/-
  The commands of a line are the tokens between its operators, unless an array is used for two
  of them.
-/
import OSModules.Shell.Commands

namespace Shell

open CArray CString Prog

/-! ## Segments -/

/-- The tokens between the operators, behind `cur` for the first segment. -/
def segmentsFrom (cur ts : List Str) : List (List Str) := (ts.splitOnP isOp).modifyHead (cur ++ ·)

def segments (ts : List Str) : List (List Str) := ts.splitOnP isOp

section
variable {cur ts : List Str} {t : Str}

theorem segmentsFrom_nil (ts : List Str) : segmentsFrom [] ts = segments ts := by
  obtain ⟨c, cs, hc⟩ := List.exists_cons_of_ne_nil (List.splitOnP_ne_nil isOp ts)
  rw [segmentsFrom, segments, hc]
  rfl

theorem segmentsFrom_op (ht : isOp t) : segmentsFrom cur (t :: ts) = cur :: segments ts := by
  rw [segmentsFrom, List.splitOnP_cons_eq_if_modifyHead, if_pos ht, List.modifyHead_cons,
    List.append_nil]
  rfl

theorem segmentsFrom_token (ht : ¬ isOp t) :
    segmentsFrom cur (t :: ts) = segmentsFrom (cur ++ [t]) ts := by
  obtain ⟨c, cs, hc⟩ := List.exists_cons_of_ne_nil (List.splitOnP_ne_nil isOp ts)
  rw [segmentsFrom, segmentsFrom, List.splitOnP_cons_eq_if_modifyHead, if_neg ht, hc]
  simp

theorem length_segments (ts : List Str) : (segments ts).length = ts.countP isOp + 1 := by
  induction ts with
  | nil => rfl
  | cons t ts ih =>
    rw [← segmentsFrom_nil]
    by_cases ht : isOp t
    · rw [segmentsFrom_op ht, List.length_cons, ih, List.countP_cons_of_pos ht]
    · rw [segmentsFrom_token ht, segmentsFrom, List.length_modifyHead, List.countP_cons_of_neg ht]
      exact ih

theorem getLast?_segmentsFrom_op (ht : isOp t) :
    (segmentsFrom cur (t :: ts)).getLast? = (segmentsFrom [] ts).getLast? := by
  obtain ⟨c, cs, hc⟩ := List.exists_cons_of_ne_nil (List.splitOnP_ne_nil isOp ts)
  rw [segmentsFrom_op ht, segmentsFrom_nil, segments, hc]
  rfl

/-- A token that is no operator is in a segment. -/
theorem exists_segment (h : t ∈ cur ∨ t ∈ ts) (ht : ¬ isOp t) : ∃ c ∈ segmentsFrom cur ts, t ∈ c := by
  induction ts generalizing cur with
  | nil => exact ⟨cur, by simp [segmentsFrom], h.resolve_right List.not_mem_nil⟩
  | cons u ts ih =>
    by_cases hu : isOp u
    · rw [segmentsFrom_op hu]
      rcases h with h | h
      · exact ⟨cur, List.mem_cons_self, h⟩
      · have hts : t ∈ ts := (List.mem_cons.1 h).resolve_left fun he => ht (he ▸ hu)
        have hin : t ∈ [] ∨ t ∈ ts := Or.inr hts
        obtain ⟨c, hc, htc⟩ := ih hin
        rw [segmentsFrom_nil] at hc
        exact ⟨c, List.mem_cons_of_mem _ hc, htc⟩
    · rw [segmentsFrom_token hu]
      refine ih ?_
      simpa [or_assoc] using h

/-- No operator is in a segment. -/
theorem not_isOp_of_segment {c : List Str} (hcur : ∀ t ∈ cur, ¬ isOp t)
    (hc : c ∈ segmentsFrom cur ts) : ∀ t ∈ c, ¬ isOp t := by
  induction ts generalizing cur with
  | nil =>
    obtain rfl : c = cur := by simpa [segmentsFrom] using hc
    exact hcur
  | cons u ts ih =>
    by_cases hu : isOp u
    · rw [segmentsFrom_op hu, List.mem_cons] at hc
      rcases hc with rfl | hc
      · exact hcur
      · rw [← segmentsFrom_nil] at hc
        exact ih (fun t ht => absurd ht List.not_mem_nil) hc
    · rw [segmentsFrom_token hu] at hc
      refine ih (fun t ht => ?_) hc
      rcases List.mem_append.1 ht with ht | ht
      · exact hcur t ht
      · rwa [List.mem_singleton.1 ht]

/-- The commands are made of the tokens. -/
theorem mem_of_shown {c : List Str} (hc : c ∈ shown cur ts) (h : t ∈ c) : t ∈ cur ∨ t ∈ ts := by
  induction ts generalizing cur c with
  | nil =>
    obtain rfl := List.mem_singleton.1 hc
    exact Or.inl h
  | cons u ts ih =>
    rw [shown] at hc
    by_cases hu : isOp u
    · rw [if_pos hu, List.mem_cons] at hc
      have hrest : ∀ d ∈ shown [] ts, t ∈ d → t ∈ ts := fun d hd htd =>
        (ih hd htd).resolve_left List.not_mem_nil
      rcases hc with rfl | hc
      · split at h
        · obtain ⟨d, ds, hd⟩ := List.exists_cons_of_ne_nil (shown_ne_nil [] ts)
          rw [hd] at h hrest
          exact Or.inr (List.mem_cons_of_mem _ (hrest d List.mem_cons_self h))
        · exact Or.inl h
      · exact Or.inr (List.mem_cons_of_mem _ (hrest c hc h))
    · rw [if_neg hu] at hc
      simpa [or_assoc] using ih hc h

/-! ## Arrays that are used again -/

/-- The segments on both sides of each `&` are equal. -/
def AmpEqual (cur ts : List Str) : Prop :=
  ∀ a b, ts = a ++ "&".toList :: b → (segmentsFrom cur a).getLast? = (segmentsFrom [] b).head?

theorem isOp_amp : isOp "&".toList := rfl

theorem ampEqual_token (ht : ¬ isOp t) : AmpEqual cur (t :: ts) ↔ AmpEqual (cur ++ [t]) ts := by
  constructor
  · intro h a b hab
    rw [← segmentsFrom_token ht]
    exact h (t :: a) b (congrArg (t :: ·) hab)
  · intro h a b hab
    cases a with
    | nil =>
      have hamp : t = "&".toList := (List.cons.inj hab).1
      exact absurd (hamp ▸ isOp_amp) ht
    | cons u a =>
      obtain ⟨rfl, htail⟩ := List.cons.inj hab
      rw [segmentsFrom_token ht]
      exact h a b htail

theorem ampEqual_op (ht : isOp t) : AmpEqual cur (t :: ts) ↔
    (t = "&".toList → some cur = (segmentsFrom [] ts).head?) ∧ AmpEqual [] ts := by
  constructor
  · intro h
    constructor
    · rintro rfl
      rw [← h [] ts rfl]
      simp [segmentsFrom]
    · intro a b hab
      rw [← getLast?_segmentsFrom_op ht]
      exact h (t :: a) b (congrArg (t :: ·) hab)
  · rintro ⟨h, hrest⟩ a b hab
    cases a with
    | nil =>
      obtain ⟨rfl, rfl⟩ := List.cons.inj hab
      rw [← h rfl]
      simp [segmentsFrom]
    | cons u a =>
      obtain ⟨rfl, htail⟩ := List.cons.inj hab
      rw [getLast?_segmentsFrom_op ht]
      exact hrest a b htail

/-- An array that is used again holds the right command only if the next one is the same. -/
theorem shown_eq_iff : shown cur ts = segmentsFrom cur ts ↔ AmpEqual cur ts := by
  induction ts generalizing cur with
  | nil =>
    refine iff_of_true ?_ fun a b h => absurd h (by simp)
    rw [shown, segmentsFrom]
    simp
  | cons t ts ih =>
    by_cases ht : isOp t
    · rw [shown, if_pos ht, segmentsFrom_op ht, List.cons.injEq, ← segmentsFrom_nil ts, ampEqual_op ht,
        ← ih, and_congr_left_iff]
      intro heq
      obtain ⟨c, cs, hc⟩ := List.exists_cons_of_ne_nil (shown_ne_nil [] ts)
      rw [← heq, hc, List.headD_cons, List.head?_cons, Option.some.injEq]
      split
      · next hamp => exact ⟨fun he _ => he.symm, fun he => (he hamp).symm⟩
      · next hamp => exact iff_of_true rfl fun he => absurd he hamp
    · rw [shown, if_neg ht, segmentsFrom_token ht, ampEqual_token ht, ih]

end

/-! ## Lines without `&` -/

theorem typed_append {line : List Char} (hline : '\n' ∉ line) (rest : List Char) :
    typed (line ++ '\n' :: rest) = line := by
  have hnext : typed (line ++ '\n' :: rest) = line ++ typed ('\n' :: rest) := by
    refine List.takeWhile_append_of_pos fun c hc => ?_
    rw [decide_eq_true_eq]
    rintro rfl
    exact hline hc
  rw [hnext]
  exact List.append_nil line

theorem ampEqual_of_notMem {ts : List Str} (h : "&".toList ∉ ts) (cur : List Str) :
    AmpEqual cur ts := by
  rintro a b rfl
  exact absurd (List.mem_append_right a List.mem_cons_self) h

theorem typeOf_of_notMem {ts : List Str} (h : "&".toList ∉ ts) (cmd_type : ℕ) :
    typeOf cmd_type ts = match (ts.filter isOp).getLast? with
      | none => cmd_type
      | some op => if op = "&&".toList then 2 else 3 := by
  rw [typeOf]
  cases hop : (ts.filter isOp).getLast? with
  | none => rfl
  | some op =>
    obtain ⟨hts, hisOp⟩ := List.mem_filter.1 (List.mem_of_getLast? hop)
    have hne : op ≠ "&".toList := by
      rintro rfl
      exact h hts
    rw [isOp, decide_eq_true_eq] at hisOp
    simp only [opType]
    split
    · rfl
    · rw [if_pos (by tauto)]

/-- A line that fits and has no `&` is parsed into the segments between its operators, each of them
in an array with a `NULL` behind it; the type is that of the last operator. -/
theorem parse_segments (s : Mem) {line : List Char} (rest : List Char) (hlen : line.length ≤ 1022)
    (hnul : '\x00' ∉ line) (hline : '\n' ∉ line) (hcount : (words isSep line).length ≤ 63)
    (hword : ∀ w ∈ words isSep line, w.length ≤ 63)
    (hops : (words isSep line).countP isOp ≤ 62) (hamp : "&".toList ∉ words isSep line) :
    ∃ cmd_type s' ps, Returns (parse (line ++ '\n' :: rest)) s cmd_type s' ∧ Holds s'.cmds ps ∧
      List.Forall₂ (fun p c => Holds (s'.arrays p) c) ps (segments (words isSep line)) ∧
      (segments (words isSep line)).length = (words isSep line).countP isOp + 1 ∧
      (List.zipWith (· ++ ·) (segments (words isSep line))
        (((words isSep line).filter isOp).map (fun op => [op]) ++ [[]])).flatten = words isSep line ∧
      (∀ c ∈ segments (words isSep line), ∀ t ∈ c, ¬ isOp t) ∧
      cmd_type = match ((words isSep line).filter isOp).getLast? with
        | none => 0
        | some op => if op = "&&".toList then 2 else 3 := by
  have htyped := typed_append hline rest
  have hof := lineOf_of_notMem hnul
  have hfits : Fits (line ++ ['\n']) := by
    rw [fits_line_iff]
    exact ⟨fun w hw => Nat.lt_succ_of_le (hword w hw), Nat.lt_succ_of_le hcount,
      Nat.lt_succ_of_le (Nat.succ_le_succ hops)⟩
  have hmax : (typed (line ++ '\n' :: rest)).length + 2 ≤ MAX_INPUT_SIZE := by
    rw [htyped]
    exact Nat.add_le_add_right hlen 2
  have hparse := wp_parse (s := s) hmax
  rw [htyped, hof, tokensOf_line] at hparse
  obtain ⟨cmd_type, s', hret, -, htype, ps, hcmds, hheld⟩ :=
    wp.total (hparse.mono (fun _ hfit => hfit hfits) fun _ _ hpost => hpost)
  have hshown : shown [] (words isSep line) = segments (words isSep line) := by
    rw [shown_eq_iff.2 (ampEqual_of_notMem hamp []), segmentsFrom_nil]
  rw [hshown] at hheld
  refine ⟨cmd_type, s', ps, hret, hcmds, hheld, length_segments _, List.splitOnP_spec _, ?_, ?_⟩
  · intro c hc
    rw [← segmentsFrom_nil] at hc
    exact not_isOp_of_segment (fun t ht => absurd ht List.not_mem_nil) hc
  · rw [htype, typeOf_of_notMem hamp]

theorem parse_segments_three : ∃ cmd_type s' ps,
    Returns (parse ("ls -l && echo hi &&& date".toList ++ '\n' :: [])) .blank cmd_type s' ∧
      Holds s'.cmds ps ∧
      List.Forall₂ (fun p c => Holds (s'.arrays p) c) ps
        (segments (words isSep "ls -l && echo hi &&& date".toList)) ∧
      (segments (words isSep "ls -l && echo hi &&& date".toList)).length =
        (words isSep "ls -l && echo hi &&& date".toList).countP isOp + 1 ∧
      (List.zipWith (· ++ ·) (segments (words isSep "ls -l && echo hi &&& date".toList))
        (((words isSep "ls -l && echo hi &&& date".toList).filter isOp).map (fun op => [op]) ++
          [[]])).flatten = words isSep "ls -l && echo hi &&& date".toList ∧
      (∀ c ∈ segments (words isSep "ls -l && echo hi &&& date".toList), ∀ t ∈ c, ¬ isOp t) ∧
      cmd_type =
        match ((words isSep "ls -l && echo hi &&& date".toList).filter isOp).getLast? with
        | none => 0
        | some op => if op = "&&".toList then 2 else 3 :=
  parse_segments .blank [] (by decide) (by decide) (by decide) (by decide) (by decide) (by decide)
    (by decide)

end Shell

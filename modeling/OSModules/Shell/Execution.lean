/-
  Which commands `main` executes.
-/
import OSModules.Shell.Segments

namespace Shell

open CArray CString Prog

/-! ## Execution of commands -/

section
variable {s : Mem} {cmd : Fin MAX_NUM_TOKENS → Option Str} {is_background : Bool} {E : Fault → Prop}

/-- A command with a token is executed. -/
theorem wp_execute_cmd {t : Str} (h : cmd 0 = some t) :
    wp (execute_cmd cmd is_background) s E fun _ s' => s' = s := by
  rw [execute_cmd, h]
  simp only [start_executing, h]
  split
  · rfl
  · split
    · rfl
    · rfl

/-- The name of an empty command is `NULL`. -/
theorem wp_execute_null (h : cmd 0 = none) (hE : E .null) {Q : Action → Mem → Prop} :
    wp (execute_cmd cmd is_background) s E Q := by
  rw [execute_cmd, h]
  exact hE

/-- The calls pass arrays with the commands. -/
def Passes (calls : List Call) (cs : List (List Str)) : Prop :=
  List.Forall₂ (fun call c => Holds call.cmd c) calls cs

theorem Passes.unique {calls : List Call} {cs cs' : List (List Str)} (h : Passes calls cs)
    (h' : Passes calls cs') : cs = cs' := by
  unfold Passes at h h'
  induction h generalizing cs' with
  | nil =>
    cases h'
    rfl
  | cons hc _ ih =>
    cases h' with
    | cons hc' h' => rw [hc.unique hc', ih h']

theorem wp_executeNext {ps : List ℕ} {cs : List (List Str)}
    (h : List.Forall₂ (fun p c => Holds (s.arrays p) c) ps cs) {calls : List Call}
    {done : List (List Str)} (hcalls : Passes calls done) :
    wp (ps.foldlM (executeNext is_background) calls) s (fun _ => [] ∈ cs) fun calls' _ =>
      [] ∉ cs ∧ Passes calls' (done ++ cs) := by
  induction h generalizing calls done with
  | nil =>
    rw [List.append_nil]
    exact ⟨List.not_mem_nil, hcalls⟩
  | @cons p c ps cs hc _ ih =>
    rw [List.foldlM_cons, wp_bind, executeNext, wp_bind, wp_get, wp_bind]
    cases c with
    | nil =>
      refine wp_execute_null hc.head ?_
      exact List.mem_cons_self
    | cons t c =>
      refine (wp_execute_cmd hc.head).imp ?_
      rintro action s' rfl
      have hcalls' : Passes (calls ++ [⟨s'.arrays p, action⟩]) (done ++ [t :: c]) :=
        List.rel_append hcalls (.cons hc .nil)
      refine (ih hcalls').mono (fun _ hmem => List.mem_cons_of_mem _ hmem) ?_
      rintro calls' - ⟨hne, hpasses⟩
      rw [List.append_assoc] at hpasses
      exact ⟨by simpa using hne, hpasses⟩

end

/-! ## A round -/

/-- A line all of whose commands are executed as they are: it fits, no segment is empty, and where
an array is used again it gets the same command. -/
structure Intact (line : Str) : Prop where
  nul : '\x00' ∉ line
  length : line.length ≤ 1022
  fits : Fits (line ++ ['\n'])
  nonempty : [] ∉ segments (words isSep line)
  amp : AmpEqual [] (words isSep line)

theorem Intact.shown_eq {line : Str} (h : Intact line) :
    shown [] (words isSep line) = segments (words isSep line) := by
  rw [shown_eq_iff.2 h.amp, segmentsFrom_nil]

/-- A line without operators is one command. -/
theorem intact_of_plain {line : Str} (hnul : '\x00' ∉ line) (hlen : line.length ≤ 1022)
    (hfits : Fits (line ++ ['\n'])) (hne : words isSep line ≠ [])
    (hop : ∀ t ∈ words isSep line, isOp t = false) : Intact line := by
  refine ⟨hnul, hlen, hfits, ?_, ?_⟩
  · rw [segments, List.splitOnP_eq_singleton hop, List.mem_singleton]
    exact Ne.symm hne
  · refine ampEqual_of_notMem ?_ []
    intro hamp
    have hno := hop _ hamp
    rw [isOp_amp] at hno
    cases hno

/-- Behind an operator at the end of the line, `&` for example, there is an empty command. -/
theorem not_intact_of_op {line op : Str} {ts : List Str} (hop : isOp op)
    (h : words isSep line = ts ++ [op]) : ¬ Intact line := by
  intro hline
  refine hline.nonempty ?_
  rw [h, segments, List.splitOnP_append_cons ts [] hop]
  exact List.mem_append_right _ (List.mem_singleton_self [])

/-- On a full line, the newline replaces the only `NUL`. -/
theorem notMem_set_newline {typed line : Str} (hline : line = typed ++ ['\x00'])
    (h : '\x00' ∉ typed) : '\x00' ∉ line.set (cstr line).length '\n' := by
  have hcstr : cstr line = typed := by
    rw [hline, cstr_append_of_notMem h]
    exact List.append_nil typed
  have hlen : (cstr line).length < line.length := by
    rw [hcstr, hline, List.length_append]
    exact Nat.lt_succ_self _
  rw [set_cstr hlen, hcstr, List.drop_eq_nil_of_le (by simp [hline])]
  simpa using h

/-- Of any input, `main` reads a string without `NUL`s or goes past the end of the line. -/
theorem wp_readLine_any (s : Mem) (input : List Char) :
    wp (readLine input) s (fun _ => 1022 < (typed input).length) fun line _ => '\x00' ∉ line ∧
      ('\x00' ∉ typed input → (typed input).length ≤ 1022 ∧ line = typed input ++ ['\n']) := by
  rcases Nat.lt_or_ge 1022 (typed input).length with hlt | hge
  · simp only [readLine, wp_bind, wp_pure]
    refine wp_ite.2 ⟨?_, fun _ => hlt⟩
    intro hmax
    refine wp_ite.2 ⟨?_, fun _ => hlt⟩
    intro hmem
    refine ⟨notMem_cstr _, ?_⟩
    intro hnul
    -- there is room for one `NUL`
    have hone : 1024 - (typed input).length = 1 := by
      have : (typed input).length < 1024 := hmax
      omega
    refine absurd hmem (notMem_set_newline ?_ hnul)
    rw [← List.replicate_one, ← hone]
    rfl
  · refine wp_readLine (Nat.add_le_add_right hge 2) ⟨notMem_lineOf _, ?_⟩
    intro hnul
    exact ⟨hge, lineOf_of_notMem hnul⟩

theorem wp_round (s : Mem) (input : List Char) :
    wp (round input) s (fun _ => ¬ Intact (typed input)) fun calls _ => ∃ line, '\x00' ∉ line ∧
      ('\x00' ∉ typed input → (typed input).length ≤ 1022 ∧ line = typed input ++ ['\n']) ∧
      Fits line ∧ [] ∉ shown [] (tokensOf line) ∧ Passes calls (shown [] (tokensOf line)) := by
  rw [round, wp_bind, parse, wp_bind]
  refine (wp_readLine_any s input).mono (fun _ hlt h => absurd h.length (Nat.not_le.2 hlt)) ?_
  rintro line s₁ ⟨hnul, hline⟩
  refine (wp_line hnul).mono ?_ ?_
  · intro _ hfit h
    rw [(hline h.nul).2] at hfit
    exact hfit h.fits
  · rintro cmd_type s₂ ⟨hfit, -, ps, hcmds, hheld⟩
    rw [wp_bind, wp_get, foldToNull_eq hcmds]
    refine (wp_executeNext hheld .nil).mono ?_ ?_
    · intro _ hmem h
      rw [(hline h.nul).2, tokensOf_line, h.shown_eq] at hmem
      exact h.nonempty hmem
    · rintro calls - ⟨hne, hpasses⟩
      exact ⟨line, hnul, hline, hfit, hne, hpasses⟩

/-! ## The commands of a line -/

theorem mem_of_tokensOf {line t : Str} (ht : t ∈ tokensOf line) {c : Char} (hc : c ∈ t) :
    c ∈ line := by
  have hword : t ∈ words isSep line := ((List.dropLast_sublist _).filter _).subset ht
  exact (mem_words_iff.1 ⟨t, hword, hc⟩).1

theorem not_isOp_of_nul {t : Str} (h : '\x00' ∈ t) : ¬ isOp t := by
  intro ht
  rw [isOp, decide_eq_true_eq] at ht
  rcases ht with rfl | rfl | rfl
  all_goals simp at h

/-- The command with a `NUL` is not among those of a string without one. -/
theorem shown_ne_of_nul {typed line : Str} (h : '\x00' ∈ typed) (hline : '\x00' ∉ line) :
    shown [] (tokensOf line) ≠ (segments (words isSep typed)).filter (· ≠ []) := by
  intro heq
  obtain ⟨w, hw, hnul⟩ := mem_words_iff.2 ⟨h, show isSep '\x00' = false from rfl⟩
  have hin : w ∈ [] ∨ w ∈ words isSep typed := Or.inr hw
  obtain ⟨c, hc, hwc⟩ := exists_segment hin (not_isOp_of_nul hnul)
  have hshown : c ∈ shown [] (tokensOf line) := by
    rw [heq, List.mem_filter, ← segmentsFrom_nil]
    exact ⟨hc, by simpa using List.ne_nil_of_mem hwc⟩
  rcases mem_of_shown hshown hwc with hcur | ht
  · exact absurd hcur List.not_mem_nil
  · exact hline (mem_of_tokensOf ht hnul)

/-- The commands are the segments only if no segment is empty. -/
theorem shown_eq_filter_iff {ts : List Str} :
    shown [] ts = (segments ts).filter (· ≠ []) ↔ [] ∉ segments ts ∧ AmpEqual [] ts := by
  have hall : (segments ts).filter (· ≠ []) = segments ts ↔ [] ∉ segments ts := by
    rw [List.filter_eq_self]
    constructor
    · intro h hmem
      simpa using h [] hmem
    · rintro h c hc
      rw [decide_eq_true_eq]
      rintro rfl
      exact h hc
  constructor
  · intro h
    have hself : (segments ts).filter (· ≠ []) = segments ts := by
      refine List.filter_sublist.eq_of_length ?_
      rw [← h, length_shown, length_segments]
    rw [hself, ← segmentsFrom_nil] at h
    exact ⟨hall.1 hself, shown_eq_iff.1 h⟩
  · rintro ⟨hne, hamp⟩
    rw [hall.2 hne, shown_eq_iff.2 hamp, segmentsFrom_nil]

/-- The commands that `main` executes are those between the operators exactly for these lines. -/
theorem commands_intact_iff (s : Mem) (input : List Char) :
    (∃ calls s', Returns (round input) s calls s' ∧
      Passes calls ((segments (words isSep (typed input))).filter (· ≠ []))) ↔
      Intact (typed input) := by
  have hround := wp_round s input
  constructor
  · rintro ⟨calls, s', hret, hpasses⟩
    obtain ⟨line, hnul, hline, hfits, -, hshown⟩ := hround.returns hret
    have heq := hshown.unique hpasses
    have htyped : '\x00' ∉ typed input := fun h => shown_ne_of_nul h hnul heq
    obtain ⟨hlen, rfl⟩ := hline htyped
    rw [tokensOf_line, shown_eq_filter_iff] at heq
    exact ⟨htyped, hlen, hfits, heq.1, heq.2⟩
  · intro h
    obtain ⟨calls, s', hret, line, -, hline, -, -, hpasses⟩ :=
      wp.total (hround.mono (fun _ hnot => hnot h) fun _ _ hpost => hpost)
    obtain ⟨-, rfl⟩ := hline h.nul
    rw [tokensOf_line, shown_eq_filter_iff.2 ⟨h.nonempty, h.amp⟩] at hpasses
    exact ⟨calls, s', hret, hpasses⟩

/-- At `&` the array of the command is used again, and its first token becomes `NULL`. -/
theorem background_command_null :
    (segments (words isSep (typed "sleep 5 &\n".toList))).filter (· ≠ []) =
        [["sleep".toList, "5".toList]] ∧
      Faults (round "sleep 5 &\n".toList) .blank .null := by
  constructor
  · decide
  · decide +kernel

end Shell

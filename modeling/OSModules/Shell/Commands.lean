/-
  Which commands `make_cmds` makes of tokens, and when they fit into its arrays.
-/
import OSModules.Shell.Tokens

namespace Shell

open CArray CString Prog

/-! ## Commands of tokens -/

/-- The type that an operator gives to the commands. -/
def opType (op : Str) : ℕ := if op = "&&".toList then 2 else if op = "&&&".toList then 3 else 1

/-- The type of the commands, which was `cmd_type` before: that of the last operator. -/
def typeOf (cmd_type : ℕ) (ts : List Str) : ℕ :=
  match (ts.filter isOp).getLast? with
  | none => cmd_type
  | some op => opType op

/-- What the arrays of the commands hold in the end, where `cur` is read of the first one: with `&`
the array of a command is used again for the next one. -/
def shown : List Str → List Str → List (List Str)
  | cur, [] => [cur]
  | cur, t :: ts =>
    if isOp t then (if t = "&".toList then (shown [] ts).headD [] else cur) :: shown [] ts
    else shown (cur ++ [t]) ts

theorem shown_ne_nil (cur ts : List Str) : shown cur ts ≠ [] := by
  induction ts generalizing cur with
  | nil => exact List.cons_ne_nil _ _
  | cons t ts ih =>
    rw [shown]
    split
    · exact List.cons_ne_nil _ _
    · exact ih _

theorem length_shown (cur ts : List Str) : (shown cur ts).length = ts.countP isOp + 1 := by
  induction ts generalizing cur with
  | nil => rfl
  | cons t ts ih =>
    rw [shown]
    split
    · next ht => rw [List.length_cons, ih, List.countP_cons_of_pos ht]
    · next ht => rw [ih, List.countP_cons_of_neg ht]

theorem typeOf_op {t : Str} (ht : isOp t) (cmd_type : ℕ) (ts : List Str) :
    typeOf cmd_type (t :: ts) = typeOf (opType t) ts := by
  rw [typeOf, typeOf, List.filter_cons_of_pos ht, List.getLast?_cons]
  cases (ts.filter isOp).getLast? <;> rfl

theorem typeOf_token {t : Str} (ht : ¬ isOp t) (cmd_type : ℕ) (ts : List Str) :
    typeOf cmd_type (t :: ts) = typeOf cmd_type ts := by
  rw [typeOf, typeOf, List.filter_cons_of_neg ht]

/-! ## One token -/

section
variable {s : Mem} {E : Fault → Prop}

theorem wp_setCmd {cmd i : ℕ} {token : Option Str} {Q : Unit → Mem → Prop}
    (hin : ∀ h : i < MAX_NUM_TOKENS, Q () { s with
      arrays := Function.update s.arrays cmd (Function.update (s.arrays cmd) ⟨i, h⟩ token) })
    (hout : MAX_NUM_TOKENS ≤ i → E .cmd) : wp (setCmd cmd i token) s E Q := by
  simp only [setCmd, wp_bind, wp_get]
  exact wp_store hin hout

theorem wp_setCmds {i : ℕ} {cmd : Option ℕ} {Q : Unit → Mem → Prop}
    (hin : ∀ h : i < MAX_BG_PROCS, Q () { s with cmds := Function.update s.cmds ⟨i, h⟩ cmd })
    (hout : MAX_BG_PROCS ≤ i → E .cmds) : wp (setCmds i cmd) s E Q := by
  simp only [setCmds, wp_bind, wp_get]
  exact wp_store hin hout

end

/-- The commands before stand in `cmds`, and what is read of the next one in its array. -/
structure Splitting (s : Mem) (v : Split) (done : List ℕ) (cur : List Str) : Prop where
  cmds : Starts s.cmds (done.map some)
  cmds_itr : v.cmds_itr = done.length
  cmd : Starts (s.arrays v.cmd) (cur.map some)
  cmd_itr : v.cmd_itr = cur.length
  allocated : v.cmd < s.allocated

/-- Arrays other than `cmd` that were allocated before are as they were. -/
def SameArrays (cmd : ℕ) (s s' : Mem) : Prop := ∀ p < s.allocated, p ≠ cmd → s'.arrays p = s.arrays p

/-- What the state is when the command has been ended and put into `cmds`. -/
structure Ended (s : Mem) (v : Split) (done : List ℕ) (cur : List Str) (s' : Mem) : Prop where
  cmds : Starts s'.cmds ((done ++ [v.cmd]).map some)
  cmd : Holds (s'.arrays v.cmd) cur
  same : SameArrays v.cmd s s'
  allocated : s'.allocated = s.allocated

section
variable {s : Mem} {v : Split} {done : List ℕ} {cur : List Str} {t : Str} {E : Fault → Prop}

theorem wp_calloc {Q : ℕ → Mem → Prop}
    (hQ : ∀ s', s'.allocated = s.allocated + 1 → s'.tokens = s.tokens → s'.cmds = s.cmds →
      SameArrays s.allocated s s' → Q s.allocated s') : wp calloc s E Q := by
  simp only [calloc, wp_bind, wp_get, wp_set, wp_pure]
  exact hQ _ rfl rfl rfl fun p _ hp => Function.update_of_ne hp _ _

theorem Splitting.cmds_itr_succ (h : Splitting s v done cur) :
    v.cmds_itr + 1 = (done ++ [v.cmd]).length := by
  rw [h.cmds_itr, List.length_append]
  rfl

theorem Splitting.wp_token (h : Splitting s v done cur) (ht : ¬ isOp t)
    (hlen : cur.length < MAX_NUM_TOKENS) :
    wp (split v t) s E fun v' s' => Splitting s' v' done (cur ++ [t]) ∧ v'.cmd = v.cmd ∧
      v'.cmd_type = v.cmd_type ∧ s'.allocated = s.allocated ∧ SameArrays v.cmd s s' := by
  obtain ⟨hcmds, hcmds_itr, hcmd, hcmd_itr, halloc⟩ := h
  rw [split, if_neg ht, wp_bind, hcmd_itr]
  refine wp_setCmd (fun hi => ?_) fun hi => absurd hlen (Nat.not_lt.2 hi)
  refine ⟨⟨hcmds, hcmds_itr, ?_, ?_, halloc⟩, rfl, rfl, rfl,
    fun p _ hp => Function.update_of_ne hp _ _⟩
  · show Starts (Function.update s.arrays v.cmd _ v.cmd) _
    rw [Function.update_self]
    exact hcmd.push hi t
  · rw [List.length_append]
    rfl

theorem Splitting.wp_end (h : Splitting s v done cur) (hlen : cur.length < MAX_NUM_TOKENS)
    (hE : MAX_BG_PROCS ≤ done.length → E .cmds) {Q : Mem → Prop}
    (hQ : ∀ s', Ended s v done cur s' → done.length < MAX_BG_PROCS → Q s') :
    wp (setCmd v.cmd v.cmd_itr none) s E fun _ s₁ =>
      wp (setCmds v.cmds_itr (some v.cmd)) s₁ E fun _ s' => Q s' := by
  obtain ⟨hcmds, hcmds_itr, hcmd, hcmd_itr, halloc⟩ := h
  rw [hcmd_itr, hcmds_itr]
  refine wp_setCmd (fun hi => ?_) fun hi => absurd hlen (Nat.not_lt.2 hi)
  refine wp_setCmds (fun hj => hQ _ ⟨hcmds.push hj v.cmd, ?_, ?_, rfl⟩ hj) hE
  · show Holds (Function.update s.arrays v.cmd _ v.cmd) _
    rw [Function.update_self]
    exact hcmd.holds hi
  · exact fun p _ hp => Function.update_of_ne hp _ _

/-- A new array for the next command. -/
theorem Ended.wp_calloc {s₁ : Mem} (h : Ended s v done cur s₁) (halloc : v.cmd < s.allocated)
    (hitr : v.cmds_itr + 1 = (done ++ [v.cmd]).length) (cmd_type : ℕ) :
    wp (do
        let cmd ← calloc
        return { cmd, cmd_itr := 0, cmds_itr := v.cmds_itr + 1, cmd_type }) s₁ E
      fun v' s' => Splitting s' v' (done ++ [v.cmd]) [] ∧ v'.cmd_type = cmd_type ∧
        s.allocated ≤ s'.allocated ∧ SameArrays v.cmd s s' ∧ v'.cmd = s.allocated ∧
        Holds (s'.arrays v.cmd) cur := by
  rw [wp_bind]
  refine Shell.wp_calloc fun s' ha _ hcmds hsame => ?_
  rw [h.allocated] at ha hsame ⊢
  have hkeep : ∀ p < s.allocated, s'.arrays p = s₁.arrays p := fun p hp =>
    hsame p (by rwa [h.allocated]) hp.ne
  refine ⟨⟨?_, hitr, Starts.nil, rfl, ?_⟩, rfl, ?_, fun p hp hne => ?_, rfl, ?_⟩
  · rw [hcmds]
    exact h.cmds
  · rw [ha]
    exact Nat.lt_succ_self _
  · rw [ha]
    exact Nat.le_succ _
  · rw [hkeep p hp, h.same p hp hne]
  · rw [hkeep v.cmd halloc]
    exact h.cmd

/-- At an operator the command ends; behind `&` its array is used again. -/
theorem Splitting.wp_op (h : Splitting s v done cur) (ht : isOp t)
    (hlen : cur.length < MAX_NUM_TOKENS) (hE : MAX_BG_PROCS ≤ done.length → E .cmds) :
    wp (split v t) s E fun v' s' => Splitting s' v' (done ++ [v.cmd]) [] ∧
      v'.cmd_type = opType t ∧ s.allocated ≤ s'.allocated ∧ SameArrays v.cmd s s' ∧
      if t = "&".toList then v'.cmd = v.cmd
      else v'.cmd = s.allocated ∧ Holds (s'.arrays v.cmd) cur := by
  have halloc := h.allocated
  simp only [split, if_pos ht, wp_bind]
  refine h.wp_end hlen hE fun s₁ h₁ _ => ?_
  have hitr := h.cmds_itr_succ
  by_cases h₂ : t = "&&".toList
  · have hamp : t ≠ "&".toList := by
      rw [h₂]
      decide
    simp only [opType, if_pos h₂, if_neg hamp]
    exact h₁.wp_calloc halloc hitr 2
  · by_cases h₃ : t = "&&&".toList
    · have hamp : t ≠ "&".toList := by
        rw [h₃]
        decide
      simp only [opType, if_neg h₂, if_pos h₃, if_neg hamp]
      exact h₁.wp_calloc halloc hitr 3
    · have hamp : t = "&".toList := by
        rw [isOp, decide_eq_true_eq] at ht
        tauto
      simp only [opType, if_neg h₂, if_neg h₃, if_pos hamp]
      refine ⟨⟨h₁.cmds, hitr, Starts.nil, rfl, ?_⟩, rfl, h₁.allocated.ge, h₁.same, rfl⟩
      rw [h₁.allocated]
      exact halloc

/-- The rest of `make_cmds`. -/
theorem Splitting.wp_close (h : Splitting s v done cur) (hlen : cur.length < MAX_NUM_TOKENS)
    (hE : MAX_BG_PROCS ≤ done.length + 1 → E .cmds) :
    wp (close v) s E fun cmd_type s' => done.length + 1 < MAX_BG_PROCS ∧ cmd_type = v.cmd_type ∧
      Holds s'.cmds (done ++ [v.cmd]) ∧ Holds (s'.arrays v.cmd) cur ∧ SameArrays v.cmd s s' := by
  have hitr := h.cmds_itr_succ
  simp only [close, wp_bind]
  refine h.wp_end hlen (fun hi => hE (hi.trans (Nat.le_succ _))) fun s₁ h₁ _ => ?_
  rw [hitr]
  refine wp_setCmds (fun hi => ?_) fun hi => hE (by simpa using hi)
  exact ⟨by simpa using hi, rfl, h₁.cmds.holds hi, h₁.cmd, h₁.same⟩

end

/-! ## All tokens -/

/-- There is room for the commands and the `NULL` behind them. -/
def CmdsFit (done : List ℕ) (ts : List Str) : Prop :=
  done.length + ts.countP isOp + 1 < MAX_BG_PROCS

theorem cmdsFit_op {t : Str} (ht : isOp t) (done : List ℕ) (ts : List Str) (p : ℕ) :
    CmdsFit done (t :: ts) ↔ CmdsFit (done ++ [p]) ts := by
  rw [CmdsFit, CmdsFit, List.countP_cons_of_pos ht, List.length_append, List.length_singleton]
  omega

theorem cmdsFit_token {t : Str} (ht : ¬ isOp t) (done : List ℕ) (ts : List Str) :
    CmdsFit done (t :: ts) ↔ CmdsFit done ts := by
  rw [CmdsFit, CmdsFit, List.countP_cons_of_neg ht]

/-- From where a command is read, `make_cmds` ends with the arrays of all commands if they fit. -/
theorem Splitting.wp_commands {s : Mem} {v : Split} {done : List ℕ} {cur ts : List Str}
    (h : Splitting s v done cur) (hlen : (cur ++ ts).length < MAX_NUM_TOKENS) :
    wp (ts.foldlM split v >>= close) s (fun _ => ¬ CmdsFit done ts) fun cmd_type s' =>
      CmdsFit done ts ∧ cmd_type = typeOf v.cmd_type ts ∧ SameArrays v.cmd s s' ∧
        ∃ ps, Holds s'.cmds (done ++ v.cmd :: ps) ∧
          List.Forall₂ (fun p c => Holds (s'.arrays p) c) (v.cmd :: ps) (shown cur ts) := by
  induction ts generalizing s v done cur with
  | nil =>
    rw [List.append_nil] at hlen
    rw [List.foldlM_nil, pure_bind]
    refine (h.wp_close hlen fun hi hfit => ?_).imp ?_
    · exact absurd hfit (Nat.not_lt.2 hi)
    · rintro cmd_type s' ⟨hfit, rfl, hcmds, hcmd, hsame⟩
      exact ⟨hfit, rfl, hsame, [], hcmds, .cons hcmd .nil⟩
  | cons t ts ih =>
    rw [List.length_append, List.length_cons] at hlen
    rw [List.foldlM_cons, bind_assoc, wp_bind]
    by_cases ht : isOp t
    · refine (h.wp_op ht (by omega) fun hi hfit => ?_).imp ?_
      · rw [CmdsFit] at hfit
        omega
      · rintro v' s₁ ⟨h₁, htype, ha, hsame, harray⟩
        rw [cmdsFit_op ht done ts v.cmd, typeOf_op ht, ← htype, shown, if_pos ht]
        refine (ih h₁ (by simp; omega)).imp ?_
        rintro cmd_type s' ⟨hfit, rfl, hsame', ps, hcmds, hheld⟩
        have hlt := h.allocated
        have hne : ∀ p < s.allocated, p ≠ v.cmd → p ≠ v'.cmd := by
          intro p hp hpne
          split at harray
          · rwa [harray]
          · rw [harray.1]
            exact hp.ne
        refine ⟨hfit, rfl, fun p hp hpne => ?_, v'.cmd :: ps, by simpa using hcmds, .cons ?_ hheld⟩
        · rw [hsame' p (hp.trans_le ha) (hne p hp hpne), hsame p hp hpne]
        · split at harray
          · next hamp =>
            -- the array is that of the next command
            rw [harray] at hheld
            rw [if_pos hamp]
            obtain ⟨c, cs, hc⟩ := List.exists_cons_of_ne_nil (shown_ne_nil [] ts)
            rw [hc] at hheld ⊢
            exact (List.forall₂_cons.1 hheld).1
          · next hamp =>
            rw [if_neg hamp, hsame' v.cmd (hlt.trans_le ha) (by rw [harray.1]; exact hlt.ne)]
            exact harray.2
    · refine (h.wp_token ht (by omega)).imp ?_
      rintro v' s₁ ⟨h₁, hcmd, htype, ha, hsame⟩
      rw [cmdsFit_token ht, typeOf_token ht, ← htype, ← hcmd, shown, if_neg ht]
      refine (ih h₁ (by simp; omega)).imp ?_
      rintro cmd_type s' ⟨hfit, rfl, hsame', ps, hcmds, hheld⟩
      rw [hcmd] at hsame'
      refine ⟨hfit, rfl, fun p hp hpne => ?_, ps, hcmds, hheld⟩
      rw [hcmd] at hpne
      rw [hsame' p (by rwa [ha]) hpne, hsame p hp hpne]

theorem wp_make_cmds {s : Mem} {ts : List Str} (h : Holds s.tokens ts) (cmd_type : ℕ) :
    wp (make_cmds cmd_type) s (fun _ => ¬ CmdsFit [] ts) fun cmd_type' s' =>
      CmdsFit [] ts ∧ cmd_type' = typeOf cmd_type ts ∧ ∃ ps, Holds s'.cmds ps ∧
        List.Forall₂ (fun p c => Holds (s'.arrays p) c) ps (shown [] ts) := by
  rw [make_cmds, wp_bind]
  refine wp_calloc fun s₁ ha htokens _ _ => ?_
  rw [wp_bind, wp_get, htokens, foldToNull_eq h]
  have hsplit : Splitting s₁ ⟨s.allocated, 0, 0, cmd_type⟩ [] [] := by
    refine ⟨Starts.nil, rfl, Starts.nil, rfl, ?_⟩
    rw [ha]
    exact Nat.lt_succ_self _
  refine (hsplit.wp_commands h.length_lt).imp ?_
  rintro cmd_type' s' ⟨hfit, rfl, -, ps, hcmds, hheld⟩
  exact ⟨hfit, rfl, _, hcmds, hheld⟩

/-! ## Lines -/

/-- The tokens and the commands of a string fit into the arrays. -/
structure Fits (line : Str) : Prop extends TokensFit line where
  cmds : CmdsFit [] (tokensOf line)

/-- A string in which the commands are looked for. -/
theorem wp_line {s : Mem} {line : Str} (hline : '\x00' ∉ line) :
    wp (tokenize line >>= fun _ => make_cmds 0) s (fun _ => ¬ Fits line) fun cmd_type s' =>
      Fits line ∧ cmd_type = typeOf 0 (tokensOf line) ∧ ∃ ps, Holds s'.cmds ps ∧
        List.Forall₂ (fun p c => Holds (s'.arrays p) c) ps (shown [] (tokensOf line)) := by
  rw [wp_bind]
  refine (wp_tokenize hline).mono (fun _ hfit hfit' => hfit hfit'.toTokensFit) ?_
  rintro - s₁ ⟨hfit, htokens⟩
  refine (wp_make_cmds htokens 0).mono (fun _ hcmds hfit' => hcmds hfit'.cmds) ?_
  rintro cmd_type s' ⟨hcmds, hrest⟩
  exact ⟨⟨hfit, hcmds⟩, hrest⟩

theorem wp_parse {s : Mem} {input : List Char} (hlen : (typed input).length + 2 ≤ MAX_INPUT_SIZE) :
    wp (parse input) s (fun _ => ¬ Fits (lineOf (typed input))) fun cmd_type s' =>
      Fits (lineOf (typed input)) ∧ cmd_type = typeOf 0 (tokensOf (lineOf (typed input))) ∧
        ∃ ps, Holds s'.cmds ps ∧ List.Forall₂ (fun p c => Holds (s'.arrays p) c) ps
          (shown [] (tokensOf (lineOf (typed input)))) := by
  rw [parse, wp_bind]
  exact wp_readLine hlen (wp_line (notMem_lineOf _))

/-- Of the lines that `main` reads, exactly those are parsed without a write past the end of an
array whose words and operators fit. -/
theorem in_bounds_iff (s : Mem) {input : List Char} (hlen : (typed input).length ≤ 1022) :
    (∀ e, ¬ Faults (parse input) s e) ↔ Fits (lineOf (typed input)) := by
  have hparse := wp_parse (s := s) (Nat.add_le_add_right hlen 2)
  constructor
  · intro h
    rcases returns_or_faults (parse input) s with ⟨a, s', hx⟩ | ⟨e, hx⟩
    · exact (hparse.returns hx).1
    · exact absurd hx (h e)
  · intro hfit e hx
    exact hparse.faults hx hfit

/-- Memory in which nothing was written. -/
def Mem.blank : Mem := ⟨fun _ => 'x', fun _ => none, fun _ _ => none, 0, fun _ => none⟩

theorem in_bounds_ls : (∀ e, ¬ Faults (parse "ls -l\n".toList) .blank e) ↔
    Fits (lineOf (typed "ls -l\n".toList)) := in_bounds_iff .blank (by decide)

/-- A word of 64 characters leaves no room for its `NUL`. -/
theorem word_too_long : (typed (List.replicate 64 'a' ++ ['\n'])).length ≤ 1022 ∧
    Faults (parse (List.replicate 64 'a' ++ ['\n'])) .blank .token := by
  constructor
  · decide
  · decide +kernel

/-- What fits of a line without a `NUL`. -/
theorem fits_line_iff (line : Str) : Fits (line ++ ['\n']) ↔
    (∀ w ∈ words isSep line, w.length < MAX_TOKEN_SIZE) ∧
      (words isSep line).length < MAX_NUM_TOKENS ∧
      (words isSep line).countP isOp + 1 < MAX_BG_PROCS := by
  constructor
  · rintro ⟨⟨⟨htoken, -⟩, htokens⟩, hcmds⟩
    rw [tokensOf_line] at htoken htokens hcmds
    rw [CmdsFit, List.length_nil, Nat.zero_add] at hcmds
    exact ⟨htoken, htokens, hcmds⟩
  · rintro ⟨htoken, htokens, hcmds⟩
    rw [← tokensOf_line] at htoken htokens hcmds
    refine ⟨⟨⟨htoken, ?_⟩, htokens⟩, ?_⟩
    · rw [openWord_line]
      exact Nat.zero_le _
    · rwa [CmdsFit, List.length_nil, Nat.zero_add]

end Shell

/-
  The bound checks of read, write and seek: when they keep the loops inside of `direct_blocks`,
  for one call with any length, and for whole runs.
-/
import OSModules.Simplefs.Space

namespace Simplefs

open CInt Prog Runs

section
variable {s : Sys} {g : Fin MAX_OPEN_FILES} {i : Fin NUM_INODES}

/-- Where the sum of offset and length overflows, the check lets the read pass, and it leaves
`direct_blocks`. -/
theorem Access.Lawful.read_overflow {A : Access} (hA : A.Lawful) (hs : s.view.Sound)
    (hi : s.view.OpenOn g i) {n : ℤ} (hn : InInt n)
    (hint : ¬ InInt ((s.view.handle g).offset + n)) :
    wp (A.read (g : ℕ) n) s (fun _ => True) fun _ _ => False := by
  have ho := hs.offset g i hi
  have h0 := (hs.ok i).size_nonneg
  unfold InInt at hn hint
  have hneg : int32 ((s.view.handle g).offset + n) < 0 := by
    unfold int32
    omega
  simp only [Access.read, wp_bind]
  refine wp_handleAt g ?_
  rw [hi, hA.readInode]
  refine wp_readInode hs.ready i (wp_ite.2 ⟨fun hlt => ?_, fun _ => ?_⟩)
  · exact absurd (hneg.trans_le h0) (not_lt.2 (le_of_lt hlt))
  · rw [wp_bind]
    exact (hA.readLoop_past_end _ ho (by omega)).imp fun _ _ h => h.elim

/-- Where there is room for a fifth block only, the write leaves `direct_blocks`. -/
theorem Access.Lawful.write_overrun {A : Access} (hA : A.Lawful) (hs : s.view.Sound)
    (hi : s.view.OpenOn g i) {buf : ℕ → UInt8} {n : ℤ}
    (hle : int32 ((s.view.handle g).offset + n) ≤ 256) (ho : s.view.Overruns (s.view.inode i) n) :
    wp (A.write (g : ℕ) buf n) s (· = .outOfBounds) fun _ _ => False :=
  hA.wp_write_room hi (hs.owns i) buf (fun hbig => absurd hle (not_le.2 hbig)) (fun _ _ => rfl)
    (fun _ _ hno => absurd ho hno) fun _ _ hno => absurd ho hno

/-- Elsewhere it does not. -/
theorem Access.Lawful.write_in_bounds {A : Access} (hA : A.Lawful) (hs : s.view.Sound)
    (hi : s.view.OpenOn g i) (buf : ℕ → UInt8) {n : ℤ}
    (hno : ¬ (int32 ((s.view.handle g).offset + n) ≤ 256 ∧ s.view.Overruns (s.view.inode i) n)) :
    ∃ r s', Returns (A.write (g : ℕ) buf n) s r s' := by
  have hwp := hA.wp_write_room (E := fun _ => False) hi (hs.owns i) buf (n := n)
    (Q := fun _ _ => True) (fun _ => trivial) (fun hle ho => hno ⟨hle, ho⟩)
    (fun _ _ _ _ _ _ _ _ _ => trivial) fun _ _ _ _ _ _ _ _ _ => trivial
  obtain ⟨r, s', hr, -⟩ := hwp.total
  exact ⟨r, s', hr⟩

end

/-! ## One call -/

/-- The call returns `-1`, or it returns with a check at each slot that it gets at: that the slot
is one of `direct_blocks` and holds an allocated block. -/
def Op.SlotsOk (op : Op) (s : Sys) : Prop :=
  (∃ r s', Returns op.exec s r s' ∧ r.val = -1) ∨
    ∃ r s', Returns (Access.checkSlots.exec op) s r s'

theorem not_slotsOk {op : Op} {s : Sys}
    (h : ∀ A : Access, A.Lawful → wp (A.exec op) s (fun _ => True) fun _ _ => False) :
    ¬ op.SlotsOk s := by
  rintro (⟨r, s', hr, -⟩ | ⟨r, s', hr⟩)
  · rw [← Access.plain_exec] at hr
    exact (h _ Access.plain_lawful).returns hr
  · exact (h _ Access.checkSlots_lawful).returns hr

section
variable {s : Sys} (hs : s.view.Sound) {g : Fin MAX_OPEN_FILES} {i : Fin NUM_INODES}
  (hi : s.view.OpenOn g i) {n : ℤ}
include hs hi

theorem slotsOk_read (hn : InInt n) :
    (Op.read (g : ℕ) n).SlotsOk s ↔ InInt ((s.view.handle g).offset + n) := by
  refine ⟨fun h => ?_, fun hint => Or.inr ?_⟩
  · by_contra hint
    refine not_slotsOk (fun A hA => ?_) h
    simp only [Access.exec, wp_bind]
    exact (hA.read_overflow hs hi hn hint).imp fun _ _ h => h.elim
  · have hwp := Access.checkSlots_lawful.wp_read (E := fun _ => False) hs.ready hi (hs.ok i)
      (hs.offset g i hi).1 hint (Q := fun _ _ => True) (fun _ => trivial) fun _ => trivial
    obtain ⟨r, s', hr, -⟩ := hwp.total
    exact ⟨_, s', hr.bind rfl⟩

theorem slotsOk_write (buf : ℕ → UInt8) : (Op.write (g : ℕ) buf n).SlotsOk s ↔
    ¬ (int32 ((s.view.handle g).offset + n) ≤ 256 ∧ s.view.Overruns (s.view.inode i) n) := by
  refine ⟨fun h hno => ?_, fun hno => Or.inr ?_⟩
  · refine not_slotsOk (fun A hA => ?_) h
    simp only [Access.exec, wp_bind]
    exact (hA.write_overrun hs hi hno.1 hno.2).mono (fun _ _ => trivial) fun _ _ h => h.elim
  · obtain ⟨r, s', hr⟩ := Access.checkSlots_lawful.write_in_bounds hs hi buf hno
    exact ⟨_, s', hr.bind rfl⟩

/-- A seek leaves the offset within the file, whatever the distance. -/
theorem seek_in_file (ho : 0 ≤ (s.view.handle g).offset ∧
      (s.view.handle g).offset ≤ (s.view.inode i).file_size) :
    ∃ r s', Returns (simplefs_seek (g : ℕ) n) s r s' ∧ 0 ≤ (s'.view.handle g).offset ∧
      (s'.view.handle g).offset ≤ (s'.view.inode i).file_size := by
  refine (wp_seek (E := fun _ => False) hs.ready g i hi (fun _ => ho) fun h₀ hle s' hs' => ?_).total
  rw [hs', View.setHandle_handle, Function.update_self]
  exact ⟨h₀, hle⟩

end

/-- The bounds hold for a length if and only if it does not overflow and a write of that length
does not overrun the slots. -/
theorem bounds_hold_iff {s : Sys} (hs : simplefs.Reachable s) {g : Fin MAX_OPEN_FILES}
    {i : Fin NUM_INODES} (hi : s.view.OpenOn g i) (ho : 0 ≤ (s.view.handle g).offset ∧
      (s.view.handle g).offset ≤ (s.view.inode i).file_size) {n : ℤ} (hn : InInt n)
    (buf : ℕ → UInt8) :
    ((Op.read (g : ℕ) n).SlotsOk s ∧ (Op.write (g : ℕ) buf n).SlotsOk s ∧
      ∃ r s', Returns (simplefs_seek (g : ℕ) n) s r s' ∧ 0 ≤ (s'.view.handle g).offset ∧
        (s'.view.handle g).offset ≤ (s'.view.inode i).file_size) ↔
    InInt ((s.view.handle g).offset + n) ∧
      ¬ ((s.view.handle g).offset + n ≤ 256 ∧ s.view.Overruns (s.view.inode i) n) := by
  have hv := (sound_of_reachable hs).view
  rw [slotsOk_read hv hi hn, slotsOk_write hv hi]
  constructor
  · rintro ⟨hint, hno, -⟩
    rw [int32_eq hint] at hno
    exact ⟨hint, hno⟩
  · rintro ⟨hint, hno⟩
    rw [int32_eq hint]
    exact ⟨hint, hno, seek_in_file hv hi ho⟩

/-- Ten bytes of a new file. -/
theorem bounds_hold_new_file : ∃ s, simplefs.Reachable s ∧ (Op.read 0 10).SlotsOk s ∧
    (Op.write 0 (fun _ => 7) 10).SlotsOk s := by
  obtain ⟨s, hr, hend, hh, -⟩ := exists_opened
  have hsize : (s.view.inode 0).file_size = 0 := by rw [← hend.offset, hh]
  have h := (bounds_hold_iff hr hend.open_ (n := 10) (by rw [hh, hsize]; simp) (by decide)
    (fun _ => 7)).2 ?_
  · exact ⟨s, hr, h.1, h.2.1⟩
  · rw [hh]
    refine ⟨by decide, fun h => ?_⟩
    have := h.2.1
    rw [hsize] at this
    exact absurd this (by norm_num)

/-- A read of `INT_MAX` bytes from offset `1`. -/
theorem read_int_max : ∃ s, simplefs.Reachable s ∧ s.view.OpenOn 0 0 ∧
    (s.view.handle 0).offset = 1 ∧ (s.view.inode 0).file_size = 1 ∧
    ¬ (Op.read 0 2147483647).SlotsOk s := by
  have h : ∃ s₀, Returns simplefs_formatDisk blankSys () s₀ ∧
      ∃ s, Returns ([.create nameA, .open_ nameA, .write 0 (fun _ => 7) 1, .seek 0 1].mapM Op.exec)
          s₀ [⟨0, []⟩, ⟨0, []⟩, ⟨0, []⟩, ⟨0, []⟩] s ∧
        s.view.OpenOn 0 0 ∧ (s.view.handle 0).offset = 1 ∧ (s.view.inode 0).file_size = 1 := by
    decide +kernel
  obtain ⟨s₀, h₀, s, h₁, hopen, hoff, hsize⟩ := h
  have hr : simplefs.Reachable s := (wp_calls (.init ⟨blankSys, h₀⟩) _).returns h₁
  refine ⟨s, hr, hopen, hoff, hsize, fun h => ?_⟩
  have hint := (slotsOk_read (sound_of_reachable hr).view hopen (by decide)).1 h
  rw [hoff] at hint
  exact absurd hint (by decide)

/-! ## Runs -/

/-- A call through an open handle, with a length that is not negative and does not overflow. -/
def Op.OnOpenHandle (v : View) : Op → Prop
  | .close h => ∃ g : Fin MAX_OPEN_FILES, h = (g : ℕ)
  | .read h n | .write h _ n => ∃ (g : Fin MAX_OPEN_FILES) (i : Fin NUM_INODES), h = (g : ℕ) ∧
      v.OpenOn g i ∧ 0 ≤ n ∧ InInt ((v.handle g).offset + n)
  | .seek h _ => ∃ (g : Fin MAX_OPEN_FILES) (i : Fin NUM_INODES), h = (g : ℕ) ∧ v.OpenOn g i
  | _ => True

/-- A write that passes the check of its offset, though the file is too large for it and there
are blocks enough to fill all slots and one more. -/
def Op.Overruns (v : View) : Op → Prop
  | .write h _ n => ∃ (g : Fin MAX_OPEN_FILES) (i : Fin NUM_INODES), h = (g : ℕ) ∧ v.OpenOn g i ∧
      (v.handle g).offset + n ≤ 256 ∧ v.Overruns (v.inode i) n
  | _ => False

theorem Op.OnOpenHandle.handleOk {v : View} {op : Op} (h : op.OnOpenHandle v) : op.HandleOk v := by
  cases op with
  | create | delete | open_ => trivial
  | close | seek => exact h
  | read | write =>
    obtain ⟨g, i, hg, hi, -⟩ := h
    exact ⟨g, i, hg, hi⟩

/-- Such a call leaves an array if and only if it is a write that overruns the slots. -/
theorem outOfBounds_iff {s : Sys} (hs : s.view.Sound) {op : Op} (hop : op.OnOpenHandle s.view) :
    Faults op.exec s .outOfBounds ↔ op.Overruns s.view := by
  have hwp := wp_exec hs hop.handleOk
  cases op with
  | create | open_ | close | seek => exact ⟨fun h => (hwp.faults h).elim, fun h => h.elim⟩
  | delete f => exact ⟨fun h => absurd (hwp.faults h).1 (by simp), fun h => h.elim⟩
  | read h n =>
    refine ⟨fun hf => ?_, fun h => h.elim⟩
    obtain ⟨g, i, rfl, -, -, hint⟩ := hop
    obtain ⟨g', hg', hno⟩ := hwp.faults hf
    obtain rfl := handle_inj hg'
    exact absurd hint hno
  | write h buf n =>
    obtain ⟨g, i, rfl, hi, hn, hint⟩ := hop
    constructor
    · intro hf
      by_contra hno
      obtain ⟨r, s', hr⟩ := Access.plain_lawful.write_in_bounds hs hi buf (n := n)
        (by rw [int32_eq hint]; exact fun h => hno ⟨g, i, rfl, hi, h⟩)
      rw [Access.plain_write] at hr
      have hexec : Returns (Op.write (g : ℕ) buf n).exec s ⟨r, []⟩ s' := hr.bind rfl
      exact hexec.not_faults _ hf
    · rintro ⟨g', i', hg', hi', hle, ho⟩
      obtain rfl := handle_inj hg'
      obtain rfl := hi.inj hi'
      refine wp.faulted ?_
      simp only [Op.exec, wp_bind, ← Access.plain_write]
      exact (Access.plain_lawful.write_overrun hs hi (by rwa [int32_eq hint]) ho).imp
        fun _ _ h => h.elim

/-- The runs of such calls; the last call may stop at a fault. -/
def attemptsOnOpen : LTS (Except Fault Sys) Op :=
  attempts.guard fun x op => ∀ s, x = .ok s → op.OnOpenHandle s.view

theorem attempts_of_onOpen {x : Except Fault Sys} (h : attemptsOnOpen.Reachable x) :
    attempts.Reachable x := by
  refine h.invariant (I := attempts.Reachable) ?_ ?_
  · intro x hx
    exact .init hx
  · rintro x op y hr ⟨-, hs⟩
    exact hr.step hs

/-- Along a run the calls stay inside of `direct_blocks` and the file sizes within their bounds,
if and only if no write overruns the slots. -/
theorem writes_stay_inside_iff {xs : List (Except Fault Sys × Op)} {y : Except Fault Sys}
    (h : attemptsOnOpen.Exec xs y) :
    ((∀ p ∈ xs, ∀ s, p.1 = .ok s → ¬ Faults p.2.exec s .outOfBounds) ∧
      ∀ x ∈ LTS.states xs y, ∀ s, x = .ok s →
        ∀ i, 0 ≤ (s.view.inode i).file_size ∧ (s.view.inode i).file_size ≤ 256) ↔
    ∀ p ∈ xs, ∀ s, p.1 = .ok s → ¬ p.2.Overruns s.view := by
  have hsound (x) (hx : attemptsOnOpen.Reachable x) (s) (hs : x = .ok s) : s.view.Sound :=
    (sound_of_reachable (reachable_of_attempts (attempts_of_onOpen (hs ▸ hx)))).view
  have hiff (p) (hp : p ∈ xs) (s) (hs : p.1 = .ok s) :
      Faults p.2.exec s .outOfBounds ↔ p.2.Overruns s.view := by
    obtain ⟨-, hon, -⟩ := h.step_of_mem p hp
    exact outOfBounds_iff (hsound _ (h.reachable_of_mem p hp) s hs) (hon s hs)
  constructor
  · rintro ⟨hno, -⟩ p hp s hs ho
    exact hno p hp s hs ((hiff p hp s hs).2 ho)
  · intro hno
    refine ⟨fun p hp s hs hf => hno p hp s hs ((hiff p hp s hs).1 hf), fun x hx s hs i => ?_⟩
    have hok := (hsound _ (h.reachable_of_states x hx) s hs).ok i
    exact ⟨hok.size_nonneg, hok.size_le⟩

theorem step_onOpen {s : Sys} {op : Op} (hon : op.OnOpenHandle s.view) :
    attemptsOnOpen.step (.ok s) op ((op.exec.run s).map Prod.snd) := by
  refine ⟨fun t ht => ?_, s, rfl, rfl⟩
  cases ht
  exact hon

theorem step_onOpen_ok {s s' : Sys} {op : Op} {r : Ret} (h : Returns op.exec s r s')
    (hon : op.OnOpenHandle s.view) : attemptsOnOpen.step (.ok s) op (.ok s') := by
  have hstep := step_onOpen hon
  rwa [h] at hstep

/-- A new file is opened and filled; its handle stays at offset `0`. -/
theorem exec_fill : ∃ s₀ s₁ s₂ s₃ : Sys, attemptsOnOpen.Exec [(.ok s₀, .create nameA),
      (.ok s₁, .open_ nameA), (.ok s₂, .write 0 (fun _ => 7) 256)] (.ok s₃) ∧
    s₂.view.OpenOn 0 0 ∧ (s₂.view.inode 0).file_size = 0 ∧ s₃.view.handle 0 = ⟨0, 0⟩ ∧
    (s₃.view.inode 0).file_size = 256 ∧ s₃.view.marks DATA_BLOCK_FREE = 26 := by
  have h : ∃ s₀, Returns simplefs_formatDisk blankSys () s₀ ∧
      ∃ s₁, Returns (Op.create nameA).exec s₀ ⟨0, []⟩ s₁ ∧
      ∃ s₂, Returns (Op.open_ nameA).exec s₁ ⟨0, []⟩ s₂ ∧ s₂.view.OpenOn 0 0 ∧
        (s₂.view.handle 0).offset = 0 ∧ (s₂.view.inode 0).file_size = 0 ∧
      ∃ s₃, Returns (Op.write 0 (fun _ => 7) 256).exec s₂ ⟨0, []⟩ s₃ ∧
        (s₃.view.handle 0).offset = 0 ∧ (s₃.view.handle 0).inode_number = 0 ∧
        (s₃.view.inode 0).file_size = 256 ∧ s₃.view.marks DATA_BLOCK_FREE = 26 := by
    decide +kernel
  obtain ⟨s₀, h₀, s₁, h₁, s₂, h₂, hopen, hoff, hsize, s₃, h₃, hoff', hnum, hsize', hfree⟩ := h
  have e₀ : attemptsOnOpen.Exec [] (.ok s₀) := .init ⟨s₀, rfl, blankSys, h₀⟩
  have e₁ := e₀.step (step_onOpen_ok h₁ trivial)
  have e₂ := e₁.step (step_onOpen_ok h₂ trivial)
  have e₃ := e₂.step (step_onOpen_ok h₃ ⟨0, 0, rfl, hopen, by norm_num, by rw [hoff]; decide⟩)
  exact ⟨s₀, s₁, s₂, s₃, e₃, hopen, hsize, filehandle_t.ext hoff' hnum, hsize', hfree⟩

theorem writes_stay_inside_fill : ∃ xs y, attemptsOnOpen.Exec xs y ∧ xs.length = 3 ∧
    ∀ p ∈ xs, ∀ s, p.1 = .ok s → ¬ Faults p.2.exec s .outOfBounds := by
  obtain ⟨s₀, s₁, s₂, s₃, h, hopen, hsize, -⟩ := exec_fill
  refine ⟨_, _, h, rfl, ((writes_stay_inside_iff h).2 fun p hp s hs => ?_).1⟩
  simp only [List.mem_cons, List.not_mem_nil, or_false] at hp
  rcases hp with rfl | rfl | rfl
  · exact fun h => h
  · exact fun h => h
  · cases hs
    rintro ⟨g, i, hg, hi, -, ho, -⟩
    obtain rfl : 0 = g := handle_inj hg
    rw [← hopen.inj hi, hsize] at ho
    exact absurd ho (by norm_num)

/-- The file is full, but a write of one byte passes the check, since the handle is still at
offset `0`. -/
theorem write_overruns_full_file : ∃ (xs : List (Except Fault Sys × Op)) (y : Except Fault Sys)
    (s : Sys), attemptsOnOpen.Exec xs y ∧ (.ok s, .write 0 (fun _ => 7) 1) ∈ xs ∧
    (s.view.handle 0).offset = 0 ∧ (s.view.inode 0).file_size = 256 ∧
    Faults (Op.write 0 (fun _ => 7) 1).exec s .outOfBounds := by
  obtain ⟨s₀, s₁, s₂, s, h, -, -, hh, hsize, hfree⟩ := exec_fill
  have hopen : s.view.OpenOn 0 0 := by rw [View.OpenOn, hh]; rfl
  have hon : (Op.write 0 (fun _ => 7) 1).OnOpenHandle s.view :=
    ⟨0, 0, rfl, hopen, by norm_num, by rw [hh]; decide⟩
  have h' := h.step (step_onOpen hon)
  have hv := (sound_of_reachable (reachable_of_attempts (attempts_of_onOpen h.reachable))).view
  refine ⟨_, _, s, h', by simp, by rw [hh], hsize, (outOfBounds_iff hv hon).2 ?_⟩
  refine ⟨0, 0, rfl, hopen, by rw [hh]; norm_num, by rw [hsize]; norm_num, ?_⟩
  rw [View.room, hsize, hfree]
  decide

end Simplefs

/-
  One rule for each function of simplefs but the two transfer loops: what it does to the
  objects of the view.
-/
import OSModules.Simplefs.View

namespace Simplefs

open CInt Prog

section
variable {s : Sys} {E : Fault → Prop}

/-! ## Allocation -/

theorem find?_or_none {n : ℕ} (p : Fin n → Bool) :
    (Fin.find? p = none ∧ ∀ i, p i = false) ∨
      ∃ i, Fin.find? p = some i ∧ p i = true ∧ ∀ j < i, p j = false := by
  rcases h : Fin.find? p with _ | i
  · exact Or.inl ⟨rfl, Fin.find?_eq_none_iff.1 h⟩
  · exact Or.inr ⟨i, rfl, Fin.find?_eq_some_iff.1 h⟩

/-- The view with inode `i` marked in the free list. -/
@[simps] def View.markInode (v : View) (i : Fin NUM_INODES) (c : UInt8) : View :=
  { v with super := { v.super with inode_freelist := Function.update v.super.inode_freelist i c } }

/-- The view with data block `b` marked in the free list. -/
@[simps] def View.markBlock (v : View) (b : Fin NUM_DATA_BLOCKS) (c : UInt8) : View :=
  { v with super :=
    { v.super with datablock_freelist := Function.update v.super.datablock_freelist b c } }

/-- The view with the record of inode `i` replaced. -/
@[simps] def View.setInode (v : View) (i : Fin NUM_INODES) (inode : inode_t) : View :=
  { v with inode := Function.update v.inode i inode }

/-- The view with an entry of the table of open files replaced. -/
@[simps] def View.setHandle (v : View) (h : Fin MAX_OPEN_FILES) (e : filehandle_t) : View :=
  { v with handle := Function.update v.handle h e }

theorem wp_allocInode (hs : s.view.Ready) {Q : ℤ → Sys → Prop}
    (hnone : (∀ i, s.view.super.inode_freelist i ≠ INODE_FREE) → Q (-1) s)
    (hsome : ∀ i s', s.view.super.inode_freelist i = INODE_FREE →
      (∀ j < i, s.view.super.inode_freelist j ≠ INODE_FREE) →
      s'.view = s.view.markInode i INODE_IN_USE → Q (i : ℕ) s') :
    wp simplefs_allocInode s E Q := by
  simp only [simplefs_allocInode, wp_bind]
  refine wp_readSuperBlock (by unfold View.Ready at hs; omega) ?_
  rcases find?_or_none fun i => decide (s.view.super.inode_freelist i = INODE_FREE) with
    ⟨hf, hn⟩ | ⟨i, hf, hi, hlt⟩
  · rw [hf]
    exact hnone fun i => of_decide_eq_false (hn i)
  · rw [hf]
    simp only [wp_bind]
    refine wp_writeSuperBlock hs fun s' hs' => ?_
    exact hsome i s' (of_decide_eq_true hi) (fun j hj => of_decide_eq_false (hlt j hj)) hs'

theorem wp_allocDataBlock (hs : s.view.Ready) {Q : ℤ → Sys → Prop}
    (hnone : (∀ b, s.view.super.datablock_freelist b ≠ DATA_BLOCK_FREE) → Q (-1) s)
    (hsome : ∀ b s', s.view.super.datablock_freelist b = DATA_BLOCK_FREE →
      (∀ c < b, s.view.super.datablock_freelist c ≠ DATA_BLOCK_FREE) →
      s'.view = s.view.markBlock b DATA_BLOCK_USED → Q (b : ℕ) s') :
    wp simplefs_allocDataBlock s E Q := by
  simp only [simplefs_allocDataBlock, wp_bind]
  refine wp_readSuperBlock (by unfold View.Ready at hs; omega) ?_
  rcases find?_or_none fun b => decide (s.view.super.datablock_freelist b = DATA_BLOCK_FREE) with
    ⟨hf, hn⟩ | ⟨b, hf, hb, hlt⟩
  · rw [hf]
    exact hnone fun b => of_decide_eq_false (hn b)
  · rw [hf]
    simp only [wp_bind]
    refine wp_writeSuperBlock hs fun s' hs' => ?_
    exact hsome b s' (of_decide_eq_true hb) (fun c hc => of_decide_eq_false (hlt c hc)) hs'

theorem wp_freeDataBlock (hs : s.view.Ready) (b : Fin NUM_DATA_BLOCKS)
    (hused : s.view.super.datablock_freelist b = DATA_BLOCK_USED) {Q : Unit → Sys → Prop}
    (hQ : ∀ s', s'.view = s.view.markBlock b DATA_BLOCK_FREE → Q () s') :
    wp (simplefs_freeDataBlock (b : ℕ)) s E Q := by
  simp only [simplefs_freeDataBlock, wp_bind]
  refine wp_readSuperBlock (by unfold View.Ready at hs; omega) (wp_index b rfl ?_)
  exact wp_assert hused (wp_writeSuperBlock hs hQ)

/-- An inode after `simplefs_freeInode`: only its name stays. -/
def inode_t.freed (inode : inode_t) : inode_t :=
  { inode with status := charInt INODE_FREE, file_size := 0, direct_blocks := fun _ => -1 }

theorem inode_t.inRange_freed (inode : inode_t) : inode.freed.InRange :=
  ⟨(by decide : InInt 120), (by decide : InInt 0), fun _ => (by decide : InInt (-1))⟩

/-- The only fault of `simplefs_freeInode` is the assertion that the inode is in use. -/
theorem wp_freeInode (hs : s.view.Ready) (i : Fin NUM_INODES) {Q : Unit → Sys → Prop}
    (hE : s.view.super.inode_freelist i ≠ INODE_IN_USE → E .inodeNotInUse)
    (hQ : s.view.super.inode_freelist i = INODE_IN_USE → ∀ s',
      s'.view = (s.view.markInode i INODE_FREE).setInode i (s.view.inode i).freed → Q () s') :
    wp (simplefs_freeInode (i : ℕ)) s E Q := by
  simp only [simplefs_freeInode, wp_bind]
  refine wp_assert (by exact_mod_cast i.2) ?_
  refine wp_readSuperBlock (by unfold View.Ready at hs; omega) (wp_readInode hs i ?_)
  refine wp_index i rfl ?_
  by_cases hu : s.view.super.inode_freelist i = INODE_IN_USE
  · refine wp_assert hu (wp_writeSuperBlock hs fun s₁ h₁ => ?_)
    have hs₁ : s₁.view.Ready := by rw [h₁]; exact hs
    refine wp_writeInode hs₁ i (inode_t.inRange_freed _) fun s' hs' => hQ hu s' ?_
    rw [hs', h₁]; rfl
  · rw [assert, if_neg hu]
    exact hE hu

/-! ## Lookup -/

/-- The first inode that carries a name, in use or not. -/
def View.lookup (v : View) (f : CString) : Option (Fin NUM_INODES) :=
  Fin.find? fun i => (v.inode i).carries f

theorem find?_finRange {n : ℕ} (p : Fin n → Bool) :
    (List.finRange n).find? p = Fin.find? p := by
  rcases find?_or_none p with ⟨hf, hn⟩ | ⟨i, hf, hi, hlt⟩
  · rw [hf, List.find?_eq_none]
    simpa using hn
  · rw [hf, List.find?_eq_some_iff_append]
    obtain ⟨as, bs, h⟩ := List.append_of_mem (List.mem_finRange i)
    refine ⟨hi, as, bs, h, fun j hj => ?_⟩
    have hlt' := List.pairwise_lt_finRange n
    rw [h, List.pairwise_append] at hlt'
    simp [hlt j (hlt'.2.2 j hj i (by simp))]

theorem wp_get_inode_num (hs : s.view.Ready) {f : CString} {Q : ℤ → Sys → Prop}
    (hnone : s.view.lookup f = none → Q (-1) s)
    (hsome : ∀ i, s.view.lookup f = some i → Q (i : ℕ) s) :
    wp (get_inode_num f) s E Q := by
  set p : Fin NUM_INODES → Bool := fun i => (s.view.inode i).carries f with hp
  have key : ∀ l : List (Fin NUM_INODES), (l.find? p = none → Q (-1) s) →
      (∀ i, l.find? p = some i → Q (i : ℕ) s) → wp (get_inode_num.go f l) s E Q := by
    intro l
    induction l with
    | nil => intro h₁ _; exact h₁ rfl
    | cons i is ih =>
      intro h₁ h₂
      simp only [get_inode_num.go, wp_bind]
      refine wp_readInode hs i ?_
      by_cases hc : p i = true
      · rw [if_pos hc]
        exact h₂ i (List.find?_cons_of_pos hc)
      · rw [if_neg hc]
        rw [List.find?_cons_of_neg hc] at h₁ h₂
        exact ih h₁ h₂
  refine key _ (fun h => hnone ?_) fun i h => hsome i ?_
  · rw [View.lookup, ← find?_finRange, h]
  · rw [View.lookup, ← find?_finRange, h]

theorem lookup_eq_some {v : View} {f : CString} {i : Fin NUM_INODES} :
    v.lookup f = some i ↔
      (v.inode i).carries f ∧ ∀ j < i, ¬ (v.inode j).carries f := by
  simp only [View.lookup, Fin.find?_eq_some_iff, Bool.not_eq_true]

theorem lookup_eq_none {v : View} {f : CString} :
    v.lookup f = none ↔ ∀ i, ¬ (v.inode i).carries f := by
  simp only [View.lookup, Fin.find?_eq_none_iff, Bool.not_eq_true]

/-! ## The table of open files -/

theorem wp_get_file_handle_idx {Q : ℤ → Sys → Prop}
    (hnone : (∀ h, (s.view.handle h).inode_number ≠ -1) → Q (-1) s)
    (hsome : ∀ h, (s.view.handle h).inode_number = -1 →
      (∀ g < h, (s.view.handle g).inode_number ≠ -1) → Q (h : ℕ) s) :
    wp get_file_handle_idx s E Q := by
  rw [← view_handle] at hnone hsome
  simp only [get_file_handle_idx, wp_bind, wp_get]
  rcases find?_or_none fun i => decide ((s.file_handle_array i).inode_number = -1) with
    ⟨hf, hn⟩ | ⟨i, hf, hi, hlt⟩
  · rw [hf]
    exact hnone fun h => of_decide_eq_false (hn h)
  · rw [hf]
    exact hsome i (of_decide_eq_true hi) fun g hg => of_decide_eq_false (hlt g hg)

theorem wp_setHandle {h : Fin MAX_OPEN_FILES} {e : filehandle_t} {Q : Unit → Sys → Prop}
    (hQ : ∀ s', s'.view = s.view.setHandle h e → Q () s') : wp (setHandle h e) s E Q := by
  simp only [setHandle, wp_modify]
  exact hQ _ (by rw [view_set_handle, view_handle]; rfl)

theorem wp_handleAt (h : Fin MAX_OPEN_FILES) {Q : filehandle_t → Sys → Prop}
    (hQ : Q (s.view.handle h) s) : wp (handleAt (h : ℕ)) s E Q := by
  simp only [handleAt, wp_bind, wp_get, wp_pure, view_handle]
  exact wp_index h rfl hQ

/-! ## simplefs-ops.c -/

/-- An inode as `simplefs_create` leaves it. -/
def inode_t.named (inode : inode_t) (f : CString) : inode_t :=
  { inode with name := fun k => f.byte k, status := charInt INODE_IN_USE }

theorem inode_t.InRange.named {inode : inode_t} (h : inode.InRange) (f : CString) :
    (inode.named f).InRange :=
  ⟨(by decide : InInt 49), h.file_size, h.direct_blocks⟩

/-- The view after inode `i` is taken for a new file. -/
def View.createInode (v : View) (i : Fin NUM_INODES) (f : CString) : View :=
  (v.markInode i INODE_IN_USE).setInode i ((v.inode i).named f)

section
variable (v : View) (i : Fin NUM_INODES) (f : CString)

@[simp] theorem View.createInode_inode :
    (v.createInode i f).inode = Function.update v.inode i ((v.inode i).named f) := rfl

@[simp] theorem View.createInode_inode_freelist : (v.createInode i f).super.inode_freelist =
    Function.update v.super.inode_freelist i INODE_IN_USE := rfl

@[simp] theorem View.createInode_handle : (v.createInode i f).handle = v.handle := rfl

end

theorem wp_create (hs : s.view.Ready) {f : CString} {Q : ℤ → Sys → Prop}
    (hnone : (∀ i, s.view.super.inode_freelist i ≠ INODE_FREE) → Q (-1) s)
    (hsome : ∀ i s', s.view.super.inode_freelist i = INODE_FREE →
      (∀ j < i, s.view.super.inode_freelist j ≠ INODE_FREE) →
      s'.view = s.view.createInode i f → Q (i : ℕ) s') :
    wp (simplefs_create f) s E Q := by
  simp only [simplefs_create, wp_bind]
  refine wp_allocInode hs (fun h => ?_) fun i s₁ hi hlt h₁ => ?_
  · rw [if_pos rfl]
    exact hnone h
  · rw [if_neg (by omega), wp_bind]
    have hs₁ : s₁.view.Ready := by rw [h₁]; exact hs
    refine wp_readInode hs₁ i ?_
    rw [wp_bind]
    refine wp_writeInode hs₁ i ((inode_inRange s₁ i).named f) fun s' hs' => hsome i s' hi hlt ?_
    rw [hs', h₁]; rfl

theorem wp_open (hs : s.view.Ready) {f : CString} {Q : ℤ → Sys → Prop}
    (hnone : s.view.lookup f = none → Q (-1) s)
    (hfull : (∀ h, (s.view.handle h).inode_number ≠ -1) → Q (-1) s)
    (hsome : ∀ i h s', s.view.lookup f = some i → (s.view.handle h).inode_number = -1 →
      (∀ g < h, (s.view.handle g).inode_number ≠ -1) →
      s'.view = s.view.setHandle h ⟨0, (i : ℕ)⟩ → Q (h : ℕ) s') :
    wp (simplefs_open f) s E Q := by
  simp only [simplefs_open, wp_bind]
  refine wp_get_inode_num hs (fun hl => ?_) fun i hl => ?_
  · rw [if_pos rfl]
    exact hnone hl
  rw [if_neg (by omega), wp_bind]
  refine wp_get_file_handle_idx (fun hb => ?_) fun h hh hlt => ?_
  · rw [if_pos rfl]
    exact hfull hb
  · rw [if_neg (by omega), wp_bind]
    refine wp_index h rfl ?_
    rw [wp_bind]
    exact wp_setHandle fun s' hs' => hsome i h s' hl hh hlt hs'

theorem wp_close (h : Fin MAX_OPEN_FILES) {Q : Unit → Sys → Prop}
    (hQ : ∀ s', s'.view = s.view.setHandle h ⟨0, -1⟩ → Q () s') :
    wp (simplefs_close (h : ℕ)) s E Q := by
  simp only [simplefs_close, wp_bind]
  exact wp_index h rfl (wp_setHandle hQ)

theorem wp_seek (hs : s.view.Ready) (h : Fin MAX_OPEN_FILES) (i : Fin NUM_INODES)
    (hi : (s.view.handle h).inode_number = (i : ℕ)) {n : ℤ} {Q : ℤ → Sys → Prop}
    (hbad : int32 ((s.view.handle h).offset + n) < 0 ∨
      (s.view.inode i).file_size < int32 ((s.view.handle h).offset + n) → Q (-1) s)
    (hok : 0 ≤ int32 ((s.view.handle h).offset + n) →
      int32 ((s.view.handle h).offset + n) ≤ (s.view.inode i).file_size → ∀ s',
      s'.view = s.view.setHandle h ⟨int32 ((s.view.handle h).offset + n), (i : ℕ)⟩ → Q 0 s') :
    wp (simplefs_seek (h : ℕ) n) s E Q := by
  simp only [simplefs_seek, wp_bind]
  refine wp_index h rfl ?_
  simp only [wp_get, view_handle, hi]
  refine wp_readInode hs i (wp_ite.2 ⟨hbad, fun hn => ?_⟩)
  rw [not_or, not_lt, not_lt] at hn
  rw [wp_bind]
  refine wp_setHandle fun s' hs' => hok hn.1 hn.2 s' ?_
  rw [hs', ← hi]

end

end Simplefs

/-
  Calls through handles that are not open.  They get at an inode `-1` in the middle of the
  superblock, which so far does no harm to the rest of the disk: what holds of all runs.
-/
import OSModules.Simplefs.Step

namespace Simplefs

open CInt Prog Runs

/-- The free list of the data blocks holds marks only. -/
def View.BlocksMarked (v : View) : Prop :=
  ∀ b, v.super.datablock_freelist b = DATA_BLOCK_FREE ∨ v.super.datablock_freelist b = DATA_BLOCK_USED

theorem View.Fresh.blocksMarked {v : View} (h : v.Fresh) : v.BlocksMarked :=
  fun b => Or.inl (h.datablock_freelist b)

theorem View.Grown.blocksMarked {v v' : View} {inode inode' : inode_t} {data : List UInt8}
    (hg : v.Grown inode v' inode' data) (hm : v.BlocksMarked) : v'.BlocksMarked := by
  intro b
  rw [hg.used b]
  split_ifs
  · exact Or.inr rfl
  · exact hm b

theorem View.Step.blocksMarked {v v' : View} {op : Op} {r : Ret} (h : v.Step op r v')
    (hm : v.BlocksMarked) : v'.BlocksMarked := by
  cases h with
  | create_full | delete_none | open_none | open_full | read | write_big | seek_out | create |
    open_ | close | seek => exact hm
  | delete i hl hu =>
    intro b
    rw [View.deleteInode_datablock_freelist]
    split_ifs
    · exact Or.inl rfl
    · exact hm b
  | write_full h i inode' data hi hle hg => exact hg.blocksMarked hm
  | write h i v₁ inode' hi hle hg => exact hg.blocksMarked hm

/-! ## Closed handles -/

section
variable {s : Sys} {g : Fin MAX_OPEN_FILES} (hready : s.view.Ready)
  (hclosed : (s.view.handle g).inode_number = -1)
include hready hclosed

theorem closed_seek (n : ℤ) : wp (simplefs_seek (g : ℕ) n) s (fun _ => True) fun _ s' =>
    s'.view = s.view ∨ ∃ o, s'.view = s.view.setHandle g ⟨o, -1⟩ := by
  simp only [simplefs_seek, wp_bind]
  refine wp_index g rfl ?_
  simp only [wp_get, view_handle, hclosed]
  refine wp_readInode_neg hready fun inode _ _ => wp_ite.2 ⟨fun _ => Or.inl rfl, fun _ => ?_⟩
  rw [wp_bind]
  exact wp_setHandle fun s' hs' => Or.inr ⟨_, hs'⟩

end

/-- The size that inode `-1` seems to have is out of all bounds: a write that copies something
leaves `direct_blocks` at once. -/
theorem closed_writeLoop {s : Sys} {inode : inode_t} {a b : ℤ} (ha : a = 120 ∨ a = 49)
    (hb : b = 120 ∨ b = 49) (hsize : inode.file_size % 65536 = a + 256 * b) {buf : ℕ → UInt8}
    {n : ℤ} (hn : 0 < n) {fuel : ℕ} :
    wp (writeLoop buf n fuel inode 0) s (fun _ => True) fun _ _ => False := by
  have hmod : inode.file_size.tmod 64 ≠ 0 := by
    intro h
    have := Int.dvd_of_tmod_eq_zero h
    omega
  have hdiv : ¬ (0 ≤ inode.file_size.tdiv 64 ∧ inode.file_size.tdiv 64 < 4) := by
    rintro ⟨h₀, h₄⟩
    rcases le_or_gt 0 inode.file_size with h | h
    · rw [Int.tdiv_eq_ediv_of_nonneg h] at h₄
      omega
    · obtain ⟨m, hm⟩ : ∃ m, inode.file_size = -m := ⟨-inode.file_size, by omega⟩
      rw [hm, Int.neg_tdiv, Int.tdiv_eq_ediv_of_nonneg (by omega)] at h₀
      omega
  cases fuel with
  | zero =>
    rw [writeLoop, if_pos (by omega)]
    trivial
  | succ fuel =>
    rw [writeLoop, if_pos (by omega)]
    simp only [writeAlloc, writeChunk, BLOCKSIZE, Nat.cast_ofNat, if_neg hmod, wp_bind, wp_pure]
    rw [index, dif_neg (by simpa using hdiv)]
    trivial

theorem closed_write {s : Sys} {g : Fin MAX_OPEN_FILES} (hready : s.view.Ready)
    (hclosed : (s.view.handle g).inode_number = -1) (hm : s.view.BlocksMarked) (buf : ℕ → UInt8)
    (n : ℤ) : wp (simplefs_write (g : ℕ) buf n) s (fun _ => True) fun _ s' => s' = s := by
  have hmark (b) : charInt (s.view.super.datablock_freelist b) = 120 ∨
      charInt (s.view.super.datablock_freelist b) = 49 := by
    rcases hm b with h | h <;> rw [h]
    · exact Or.inl rfl
    · exact Or.inr rfl
  simp only [simplefs_write, wp_bind]
  refine wp_handleAt g ?_
  rw [hclosed]
  refine wp_readInode_neg hready fun inode hsize hback => wp_ite.2 ⟨fun _ => rfl, fun _ => ?_⟩
  rw [wp_bind]
  by_cases hn : 0 < n
  · exact (closed_writeLoop (hmark 28) (hmark 29) hsize hn).imp fun _ _ h => h.elim
  · rw [Int.toNat_of_nonpos (not_lt.1 hn), writeLoop, if_neg hn]
    simp only [wp_pure, wp_bind]
    exact hback rfl

/-! ## All runs -/

/-- What holds in all runs, whatever the calls. -/
structure Sys.Sound (s : Sys) : Prop where
  view : s.view.Sound
  marked : s.view.BlocksMarked

theorem Sys.Sound.seek {s s' : Sys} (hs : s.Sound) {g : Fin MAX_OPEN_FILES} {o : ℤ}
    (h : s'.view = s.view ∨ s'.view = s.view.setHandle g ⟨o, -1⟩) : s'.Sound := by
  rcases h with h | h
  · exact ⟨by rw [h]; exact hs.view, by rw [h]; exact hs.marked⟩
  · exact ⟨by rw [h]; exact hs.view.setHandle (Or.inl rfl), by rw [h]; exact hs.marked⟩

/-- The handle that a call is given. -/
def Op.handle? : Op → Option ℤ
  | .close h | .read h _ | .write h _ _ | .seek h _ => some h
  | _ => none

/-- A call through a handle that is no index of the table leaves the table. -/
theorem wp_exec_out {s : Sys} {op : Op} {h : ℤ} (hop : op.handle? = some h)
    (hh : ¬ (0 ≤ h ∧ h < MAX_OPEN_FILES)) :
    wp op.exec s (· = .outOfBounds) fun _ _ => False := by
  cases op <;> cases hop <;>
    simp only [Op.exec, simplefs_close, simplefs_read, simplefs_write, simplefs_seek, handleAt,
      wp_bind] <;> rw [index, dif_neg hh] <;> rfl

/-- A call through a handle of the table that is not open. -/
def Op.Closed (v : View) : Op → Prop
  | .read h _ | .write h _ _ | .seek h _ =>
    ∃ g : Fin MAX_OPEN_FILES, h = (g : ℕ) ∧ (v.handle g).inode_number = -1
  | _ => False

/-- A call is given a handle as it should be, one that is not open, or no index of the table. -/
theorem View.Sound.op_cases {v : View} (hs : v.Sound) (op : Op) :
    op.HandleOk v ∨ op.Closed v ∨ ∃ h, op.handle? = some h ∧ ¬ (0 ≤ h ∧ h < MAX_OPEN_FILES) := by
  have key (h : ℤ) : (∃ (g : Fin MAX_OPEN_FILES) (i : Fin NUM_INODES), h = (g : ℕ) ∧ v.OpenOn g i) ∨
      (∃ g : Fin MAX_OPEN_FILES, h = (g : ℕ) ∧ (v.handle g).inode_number = -1) ∨
      ¬ (0 ≤ h ∧ h < MAX_OPEN_FILES) := by
    by_cases hh : 0 ≤ h ∧ h < MAX_OPEN_FILES
    · have hg : h = ((⟨h.toNat, by omega⟩ : Fin MAX_OPEN_FILES) : ℕ) := by simp only; omega
      rcases hs.handle ⟨h.toNat, by omega⟩ with hc | ⟨i, hi⟩
      · exact Or.inr (Or.inl ⟨_, hg, hc⟩)
      · exact Or.inl ⟨_, i, hg, hi⟩
    · exact Or.inr (Or.inr hh)
  cases op with
  | create | delete | open_ => exact Or.inl trivial
  | close h =>
    rcases key h with ⟨g, -, hg, -⟩ | ⟨g, hg, -⟩ | hh
    · exact Or.inl ⟨g, hg⟩
    · exact Or.inl ⟨g, hg⟩
    · exact Or.inr (Or.inr ⟨h, rfl, hh⟩)
  | read h | write h | seek h =>
    rcases key h with hg | hg | hh
    · exact Or.inl hg
    · exact Or.inr (Or.inl hg)
    · exact Or.inr (Or.inr ⟨h, rfl, hh⟩)

theorem wp_exec_sound {s : Sys} (hs : s.Sound) (op : Op) :
    wp op.exec s (fun _ => True) fun _ s' => s'.Sound := by
  rcases hs.view.op_cases op with hop | hop | ⟨h, hop, hh⟩
  · exact (wp_exec hs.view hop).mono (fun _ _ => trivial) fun r s' hst =>
      ⟨hst.sound hs.view, hst.blocksMarked hs.marked⟩
  · cases op with
    | create | delete | open_ | close => exact hop.elim
    | read h n =>
      simp only [Op.exec, wp_bind]
      refine (reads_read s).imp fun r s' hs' => ?_
      subst hs'
      exact hs
    | write h buf n =>
      obtain ⟨g, rfl, hc⟩ := hop
      simp only [Op.exec, wp_bind]
      refine (closed_write hs.view.ready hc hs.marked buf n).imp fun r s' hs' => ?_
      subst hs'
      exact hs
    | seek h n =>
      obtain ⟨g, rfl, hc⟩ := hop
      simp only [Op.exec, wp_bind]
      refine (closed_seek hs.view.ready hc n).imp fun r s' hs' => ?_
      rcases hs' with h | ⟨o, h⟩
      · exact hs.seek (g := g) (o := 0) (Or.inl h)
      · exact hs.seek (Or.inr h)
  · exact (wp_exec_out hop hh).mono (fun _ _ => trivial) fun _ _ h => h.elim

theorem sound_of_reachable {s : Sys} (h : simplefs.Reachable s) : s.Sound := by
  refine LTS.Reachable.invariant (I := Sys.Sound) (fun s hs => ?_) (fun s l s' hs hr => ?_) h
  · have hf := fresh_of_init hs
    exact ⟨hf.wf.sound, hf.blocksMarked⟩
  · exact (wp_exec_sound hs l.1).returns hr

/-! ## Which inodes the calls get at -/

section
variable {b : Fin NUM_INODES}

theorem avoids_readAt {pos : ℤ} {n : ℕ} : Avoids .inodeRange (readAt pos n) fun _ => True :=
  (Avoids.assert (by simp)).andThen fun _ => Avoids.get.andThen fun _ => .pure trivial

theorem avoids_writeAt {pos : ℤ} {data : List UInt8} :
    Avoids .inodeRange (writeAt pos data) fun _ => True :=
  (Avoids.assert (by simp)).andThen fun _ => .modify

theorem avoids_uninitialised {n : ℕ} : Avoids .inodeRange (uninitialised n) fun _ => True :=
  Avoids.get.andThen fun _ => Avoids.set.andThen fun _ => .pure trivial

theorem avoids_readSuperBlock : Avoids .inodeRange simplefs_readSuperBlock fun _ => True :=
  avoids_readAt.andThen fun _ => (Avoids.assert (by simp)).andThen fun _ => .pure trivial

theorem avoids_writeSuperBlock {sb : superblock_t} :
    Avoids .inodeRange (simplefs_writeSuperBlock sb) fun _ => True :=
  avoids_uninitialised.andThen fun _ => avoids_writeAt

theorem avoids_readInode : Avoids .inodeRange (simplefs_readInode (b : ℕ)) fun _ => True := by
  refine Avoids.andThen (.ite (fun _ => .pure trivial) fun h => ?_) fun _ => avoids_readAt.andThen
    fun _ => (Avoids.assert (by simp)).andThen fun _ => .pure trivial
  exact absurd (by exact_mod_cast b.2) h

theorem avoids_writeInode {inode : inode_t} :
    Avoids .inodeRange (simplefs_writeInode (b : ℕ) inode) fun _ => True := by
  refine Avoids.andThen (.ite (fun _ => .pure trivial) fun h => ?_) fun _ => avoids_writeAt
  exact absurd (by exact_mod_cast b.2) h

theorem avoids_readDataBlock {blocknum : ℤ} :
    Avoids .inodeRange (simplefs_readDataBlock blocknum) fun _ => True :=
  (Avoids.assert (by simp)).andThen fun _ => avoids_readAt.andThen fun _ =>
    (Avoids.assert (by simp)).andThen fun _ => .pure trivial

theorem avoids_writeDataBlock {blocknum : ℤ} {buf : List UInt8} :
    Avoids .inodeRange (simplefs_writeDataBlock blocknum buf) fun _ => True :=
  (Avoids.assert (by simp)).andThen fun _ => avoids_uninitialised.andThen fun _ => avoids_writeAt

theorem avoids_freeDataBlock {blocknum : ℤ} :
    Avoids .inodeRange (simplefs_freeDataBlock blocknum) fun _ => True :=
  avoids_readSuperBlock.andThen fun _ => (Avoids.index (by simp)).andThen fun _ =>
    (Avoids.assert (by simp)).andThen fun _ => avoids_writeSuperBlock

theorem avoids_allocDataBlock : Avoids .inodeRange simplefs_allocDataBlock fun _ => True := by
  refine avoids_readSuperBlock.andThen fun superblock => ?_
  split
  · exact avoids_writeSuperBlock.andThen fun _ => .pure trivial
  · exact .pure trivial

theorem avoids_setHandle {g : Fin MAX_OPEN_FILES} {e : filehandle_t} :
    Avoids .inodeRange (setHandle g e) fun _ => True := .modify

theorem avoids_get_file_handle_idx : Avoids .inodeRange get_file_handle_idx fun _ => True := by
  refine Avoids.get.andThen fun s => ?_
  split <;> exact .pure trivial

/-- The number of an inode, or `-1`. -/
def InodeNum (n : ℤ) : Prop := n = -1 ∨ ∃ i : Fin NUM_INODES, n = (i : ℕ)

theorem avoids_allocInode : Avoids .inodeRange simplefs_allocInode InodeNum := by
  refine avoids_readSuperBlock.andThen fun superblock => ?_
  split
  · exact avoids_writeSuperBlock.andThen fun _ => .pure (Or.inr ⟨_, rfl⟩)
  · exact .pure (Or.inl rfl)

theorem avoids_readLoop {inode : inode_t} {nbytes : ℤ} (fuel : ℕ) :
    ∀ o c, Avoids .inodeRange (readLoop inode nbytes fuel o c) fun _ => True := by
  induction fuel with
  | zero => exact fun _ _ => .ite (fun _ => .throw (by simp)) fun _ => .pure trivial
  | succ fuel ih =>
    intro o c
    rw [readLoop]
    refine .ite (fun _ => (Avoids.index (by simp)).andThen fun _ => ?_) fun _ => .pure trivial
    exact avoids_readDataBlock.andThen fun _ => (Avoids.assert (by simp)).andThen fun _ =>
      (ih _ _).andThen fun _ => .pure trivial

theorem avoids_writeAlloc {inode : inode_t} :
    Avoids .inodeRange (writeAlloc inode) fun _ => True := by
  simp only [writeAlloc]
  refine .ite (fun _ => avoids_allocDataBlock.andThen fun _ => ?_) fun _ => .pure trivial
  refine .ite (fun _ => .pure trivial) fun _ => ?_
  exact (Avoids.index (by simp)).andThen fun _ => .pure trivial

theorem avoids_writeChunk {inode : inode_t} {chunk : List UInt8} :
    Avoids .inodeRange (writeChunk inode chunk) fun _ => True := by
  refine (Avoids.index (by simp)).andThen fun k => (Avoids.assert (by simp)).andThen fun _ => ?_
  simp only [pure_bind]
  exact .ite (fun _ => avoids_readDataBlock.andThen fun _ => avoids_writeDataBlock) fun _ =>
    avoids_writeDataBlock

theorem avoids_writeLoop {buf : ℕ → UInt8} {nbytes : ℤ} (fuel : ℕ) :
    ∀ inode c, Avoids .inodeRange (writeLoop buf nbytes fuel inode c) fun _ => True := by
  induction fuel with
  | zero => exact fun _ _ => .ite (fun _ => .throw (by simp)) fun _ => .pure trivial
  | succ fuel ih =>
    intro inode c
    rw [writeLoop]
    refine .ite (fun _ => avoids_writeAlloc.andThen fun o => ?_) fun _ => .pure trivial
    cases o with
    | none => exact .pure trivial
    | some inode' => exact avoids_writeChunk.andThen fun _ => ih _ _

end

namespace Access

theorem checkInodes_readInode (b : Fin NUM_INODES) :
    checkInodes.readInode (b : ℕ) = simplefs_readInode (b : ℕ) := by
  have hb : 0 ≤ ((b : ℕ) : ℤ) ∧ ((b : ℕ) : ℤ) < NUM_INODES := ⟨by omega, by exact_mod_cast b.2⟩
  simp only [checkInodes, assert, if_pos hb]
  rfl

theorem checkInodes_writeInode (b : Fin NUM_INODES) (inode : inode_t) :
    checkInodes.writeInode (b : ℕ) inode = simplefs_writeInode (b : ℕ) inode := by
  have hb : 0 ≤ ((b : ℕ) : ℤ) ∧ ((b : ℕ) : ℤ) < NUM_INODES := ⟨by omega, by exact_mod_cast b.2⟩
  simp only [checkInodes, assert, if_pos hb]
  rfl

theorem avoids_get_inode_num (f : CString) :
    Avoids .inodeRange (checkInodes.get_inode_num f) InodeNum := by
  have key : ∀ l, Avoids .inodeRange (get_inode_num.go checkInodes f l) InodeNum := by
    intro l
    induction l with
    | nil => exact .pure (Or.inl rfl)
    | cons i is ih =>
      rw [get_inode_num.go, checkInodes_readInode]
      exact avoids_readInode.andThen fun _ =>
        .ite (fun _ => .pure (Or.inr ⟨i, rfl⟩)) fun _ => ih
  exact key _

theorem avoids_create (f : CString) :
    Avoids .inodeRange (checkInodes.create f) fun _ => True := by
  refine avoids_allocInode.bind fun n hn => ?_
  rcases hn with rfl | ⟨i, rfl⟩
  · rw [if_pos rfl]
    exact .pure trivial
  · rw [if_neg (by omega), checkInodes_readInode]
    refine avoids_readInode.andThen fun inode => ?_
    rw [checkInodes_writeInode]
    exact avoids_writeInode.andThen fun _ => .pure trivial

theorem avoids_delete (f : CString) :
    Avoids .inodeRange (checkInodes.delete f) fun _ => True := by
  refine (avoids_get_inode_num f).bind fun n hn => ?_
  rcases hn with rfl | ⟨i, rfl⟩
  · rw [if_pos rfl]
    exact .pure trivial
  · rw [if_neg (by omega), checkInodes_readInode]
    refine avoids_readInode.andThen fun inode => ?_
    refine Avoids.andThen (.forM fun k => .ite (fun _ => avoids_freeDataBlock) fun _ =>
      .pure trivial) fun _ => ?_
    refine Avoids.andThen (.ite (fun _ => .pure trivial) fun h => ?_) fun _ => ?_
    · exact absurd (by exact_mod_cast i.2) h
    refine avoids_readSuperBlock.andThen fun superblock => ?_
    rw [checkInodes_readInode]
    refine avoids_readInode.andThen fun inode => (Avoids.index (by simp)).andThen fun k =>
      (Avoids.assert (by simp)).andThen fun _ => avoids_writeSuperBlock.andThen fun _ => ?_
    rw [checkInodes_writeInode]
    exact avoids_writeInode

theorem avoids_open (f : CString) :
    Avoids .inodeRange (checkInodes.open_ f) fun _ => True := by
  refine (avoids_get_inode_num f).bind fun n _ => .ite (fun _ => .pure trivial) fun _ => ?_
  refine avoids_get_file_handle_idx.andThen fun h => .ite (fun _ => .pure trivial) fun _ => ?_
  exact (Avoids.index (by simp)).andThen fun k => avoids_setHandle.andThen fun _ => .pure trivial

section
variable {s : Sys} {g : Fin MAX_OPEN_FILES} {i : Fin NUM_INODES} (hg : s.view.OpenOn g i)
include hg

theorem avoids_read (n : ℤ) :
    wp (checkInodes.read (g : ℕ) n) s (· ≠ .inodeRange) fun _ _ => True := by
  simp only [read, wp_bind]
  refine wp_handleAt g ?_
  rw [hg, checkInodes_readInode]
  refine (avoids_readInode s).imp fun inode s' _ => ?_
  refine Avoids.ite (fun _ => .pure trivial) (fun _ => ?_) s'
  rw [readLoop_eq (A := checkInodes) rfl]
  exact (avoids_readLoop _ _ _).andThen fun _ => .pure trivial

theorem avoids_write (buf : ℕ → UInt8) (n : ℤ) :
    wp (checkInodes.write (g : ℕ) buf n) s (· ≠ .inodeRange) fun _ _ => True := by
  simp only [write, wp_bind]
  refine wp_handleAt g ?_
  rw [hg, checkInodes_readInode]
  refine (avoids_readInode s).imp fun inode s' _ => ?_
  refine Avoids.ite (fun _ => .pure trivial) (fun _ => ?_) s'
  rw [writeLoop_eq (A := checkInodes) rfl]
  refine (avoids_writeLoop _ _ _).andThen fun o => ?_
  cases o with
  | none => exact .pure trivial
  | some inode' =>
    simp only [checkInodes_writeInode]
    exact avoids_writeInode.andThen fun _ => .pure trivial

theorem avoids_seek (n : ℤ) :
    wp (checkInodes.seek (g : ℕ) n) s (· ≠ .inodeRange) fun _ _ => True := by
  have hi : (s.file_handle_array g).inode_number = (i : ℕ) := by rw [view_handle]; exact hg
  simp only [seek, wp_bind]
  refine wp_index g rfl ?_
  simp only [wp_get, hi, checkInodes_readInode]
  refine (avoids_readInode s).imp fun inode s' _ => ?_
  refine wp_ite.2 ⟨fun _ => trivial, fun _ => ?_⟩
  exact (avoids_setHandle.andThen fun _ => .pure trivial) s'

end

end Access

/-! ## Closed handles are not rejected -/

/-- The call gets at no inode outside of the table; if it goes through a closed handle, it returns
`-1` and changes nothing. -/
structure Op.Rejects (s : Sys) (op : Op) : Prop where
  inRange : ¬ Faults (Access.checkInodes.exec op) s .inodeRange
  unchanged : op.Closed s.view → ∃ r s', Returns op.exec s r s' ∧ r.val = -1 ∧
    s'.disk = s.disk ∧ s'.file_handle_array = s.file_handle_array

/-- Whatever is called through a closed handle reads inode `-1`. -/
theorem Op.Closed.faults {s : Sys} {op : Op} (h : op.Closed s.view) :
    Faults (Access.checkInodes.exec op) s .inodeRange := by
  have hread : wp (Access.checkInodes.readInode (-1)) s (· = .inodeRange) fun _ _ => False := by
    simp only [Access.checkInodes, assert, wp_bind]
    rw [if_neg (by decide)]
    rfl
  refine wp.faulted ?_
  cases op with
  | create | delete | open_ | close => exact h.elim
  | read h n =>
    obtain ⟨g, rfl, hc⟩ := h
    simp only [Access.exec, Access.read, wp_bind]
    refine wp_handleAt g ?_
    rw [hc]
    exact hread.imp fun _ _ h => h.elim
  | write h buf n =>
    obtain ⟨g, rfl, hc⟩ := h
    simp only [Access.exec, Access.write, wp_bind]
    refine wp_handleAt g ?_
    rw [hc]
    exact hread.imp fun _ _ h => h.elim
  | seek h n =>
    obtain ⟨g, rfl, hc⟩ := h
    simp only [Access.exec, Access.seek, wp_bind]
    refine wp_index g rfl ?_
    simp only [wp_get, view_handle, hc]
    exact hread.imp fun _ _ h => h.elim

/-- Every other call gets at inodes of the table only. -/
theorem rejects_of_not_closed {s : Sys} (hs : s.view.Sound) {op : Op} (h : ¬ op.Closed s.view) :
    op.Rejects s := by
  refine ⟨fun hf => ?_, fun hc => absurd hc h⟩
  suffices wp (Access.checkInodes.exec op) s (· ≠ .inodeRange) fun _ _ => True from
    this.faults hf rfl
  rcases hs.op_cases op with hop | hop | ⟨g, hop, hg⟩
  · cases op with
    | create f => exact ((Access.avoids_create f).andThen fun _ => .pure trivial) s
    | delete f => exact ((Access.avoids_delete f).andThen fun _ => .pure trivial) s
    | open_ f => exact ((Access.avoids_open f).andThen fun _ => .pure trivial) s
    | close h =>
      exact Avoids.andThen ((Avoids.index (by simp)).andThen fun _ => avoids_setHandle)
        (fun _ => .pure trivial) s
    | read h n =>
      obtain ⟨g, i, rfl, hi⟩ := hop
      simp only [Access.exec, wp_bind]
      exact (Access.avoids_read hi n).imp fun _ _ _ => trivial
    | write h buf n =>
      obtain ⟨g, i, rfl, hi⟩ := hop
      simp only [Access.exec, wp_bind]
      exact (Access.avoids_write hi buf n).imp fun _ _ _ => trivial
    | seek h n =>
      obtain ⟨g, i, rfl, hi⟩ := hop
      simp only [Access.exec, wp_bind]
      exact (Access.avoids_seek hi n).imp fun _ _ _ => trivial
  · exact absurd hop h
  · refine Prog.wp.mono (E := (· = .outOfBounds)) (Q := fun _ _ => False) ?_ (by simp) (by simp)
    cases op <;> cases hop <;>
      simp only [Access.exec, simplefs_close, Access.read, Access.write, Access.seek, handleAt,
        wp_bind] <;> rw [index, dif_neg hg] <;> rfl

/-- The runs of calls from `simplefs_formatDisk` with a last call that may stop at a fault. -/
def attempts : LTS (Except Fault Sys) Op where
  init x := ∃ s, x = .ok s ∧ simplefs.init s
  step x op y := ∃ s, x = .ok s ∧ y = (op.exec.run s).map Prod.snd

theorem reachable_of_attempts {s : Sys} (h : attempts.Reachable (.ok s)) :
    simplefs.Reachable s := by
  have key : ∀ x, attempts.Reachable x → ∀ s, x = .ok s → simplefs.Reachable s := by
    intro x hx
    refine LTS.Reachable.invariant (I := fun x => ∀ s, x = .ok s → simplefs.Reachable s) ?_ ?_ hx
    · rintro x ⟨s₀, rfl, hs₀⟩ s hs
      cases hs
      exact .init hs₀
    · rintro x op y hI ⟨s₀, rfl, rfl⟩ s hs
      rcases hrun : op.exec.run s₀ with e | ⟨r, s₁⟩ <;> rw [hrun] at hs <;> cases hs
      exact (hI s₀ rfl).step (l := (op, r)) hrun
  exact key _ h s rfl

/-- In a run, closed handles are rejected and no inode outside of the table is read or written, if
and only if nothing is read, written or sought through a closed handle. -/
theorem closed_rejected_iff {xs : List (Except Fault Sys × Op)} {y : Except Fault Sys}
    (h : attempts.Exec xs y) :
    (∀ p ∈ xs, ∀ s, p.1 = .ok s → p.2.Rejects s) ↔
    ∀ p ∈ xs, ∀ s, p.1 = .ok s → ¬ p.2.Closed s.view := by
  refine forall₂_congr fun p hp => forall₂_congr fun s hs => ⟨fun hr hc => ?_, fun hc => ?_⟩
  · exact hr.inRange hc.faults
  · have hreach := h.reachable_of_mem p hp
    rw [hs] at hreach
    exact rejects_of_not_closed (sound_of_reachable (reachable_of_attempts hreach)).view hc

/-- A file of three blocks is created, opened, written, sought, read and closed. -/
theorem closed_rejected_each_open : ∃ xs y, attempts.Exec xs y ∧
    xs.map Prod.snd = [.create nameA, .open_ nameA, .write 0 (fun _ => 7) 150, .seek 0 120,
      .read 0 10, .close 0] ∧
    ∀ p ∈ xs, ∀ s, p.1 = .ok s → p.2.Rejects s := by
  have h : ∃ s₀, Returns simplefs_formatDisk blankSys () s₀ ∧
      ∃ s₁, Returns (Op.create nameA).exec s₀ ⟨0, []⟩ s₁ ∧
      ∃ s₂, Returns (Op.open_ nameA).exec s₁ ⟨0, []⟩ s₂ ∧
      ∃ s₃, Returns (Op.write 0 (fun _ => 7) 150).exec s₂ ⟨0, []⟩ s₃ ∧
      ∃ s₄, Returns (Op.seek 0 120).exec s₃ ⟨0, []⟩ s₄ ∧
      ∃ s₅, Returns (Op.read 0 10).exec s₄ ⟨0, List.replicate 10 7⟩ s₅ ∧
      (s₂.file_handle_array 0).inode_number = 0 ∧ (s₃.file_handle_array 0).inode_number = 0 ∧
      (s₄.file_handle_array 0).inode_number = 0 := by
    decide +kernel
  obtain ⟨s₀, h₀, s₁, h₁, s₂, h₂, s₃, h₃, s₄, h₄, s₅, h₅, o₂, o₃, o₄⟩ := h
  have next : ∀ {xs s op r s'}, attempts.Exec xs (.ok s) → Returns (Op.exec op) s r s' →
      attempts.Exec (xs ++ [(.ok s, op)]) (.ok s') := by
    intro xs s op r s' hx hs
    exact hx.step ⟨s, rfl, by rw [show op.exec.run s = _ from hs]; rfl⟩
  have hx := next (next (next (next (next (.init ⟨s₀, rfl, _, h₀⟩) h₁) h₂) h₃) h₄) h₅
  have hx := hx.step (l := .close 0) ⟨s₅, rfl, rfl⟩
  refine ⟨_, _, hx, rfl, (closed_rejected_iff hx).2 fun p hp s hs => ?_⟩
  have open_ : ∀ {s : Sys}, (s.file_handle_array 0).inode_number = 0 →
      ¬ ∃ g : Fin MAX_OPEN_FILES, (0 : ℤ) = (g : ℕ) ∧ (s.view.handle g).inode_number = -1 := by
    rintro s hs ⟨g, hg, hc⟩
    obtain rfl : g = 0 := Fin.ext (by simpa using hg.symm)
    rw [← view_handle, hs] at hc
    exact absurd hc (by decide)
  simp only [List.nil_append, List.cons_append, List.mem_cons, List.not_mem_nil, or_false] at hp
  rcases hp with rfl | rfl | rfl | rfl | rfl | rfl <;> cases hs
  · exact fun h => h
  · exact fun h => h
  · exact open_ o₂
  · exact open_ o₃
  · exact open_ o₄
  · exact fun h => h

/-- After formatting, a write of nothing through a handle that is not open succeeds; it has read
and written inode `-1`. -/
theorem write_through_closed : ∃ s, simplefs.Reachable s ∧
    (s.file_handle_array 0).inode_number = -1 ∧
    (∃ s', Returns (simplefs_write 0 (fun _ => 0) 0) s 0 s') ∧
    Faults (Access.checkInodes.write 0 (fun _ => 0) 0) s .inodeRange := by
  have h : ∃ s, Returns simplefs_formatDisk blankSys () s ∧
      (s.file_handle_array 0).inode_number = -1 ∧
      Faults (Access.checkInodes.write 0 (fun _ => 0) 0) s .inodeRange ∧
      ∃ s', Returns (simplefs_write 0 (fun _ => 0) 0) s 0 s' ∧
        (s'.file_handle_array 0).inode_number = -1 := by
    decide +kernel
  obtain ⟨s, hs, hc, hf, s', hs', -⟩ := h
  exact ⟨s, .init ⟨blankSys, hs⟩, hc, ⟨s', hs'⟩, hf⟩

end Simplefs

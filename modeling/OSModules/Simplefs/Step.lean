/-
  The calls of simplefs as steps: what each call can do to a well-formed view, that it stays
  well formed, and the transition system of all runs from `simplefs_formatDisk`.
-/
import OSModules.Lib.Runs
import OSModules.Simplefs.Transfer

namespace Simplefs

open CInt Prog Runs

/-! ## Formatting -/

/-- What `simplefs_formatDisk` leaves. -/
structure View.Fresh (v : View) : Prop where
  size : v.size = 320
  inode_freelist : ∀ i, v.super.inode_freelist i = INODE_FREE
  datablock_freelist : ∀ b, v.super.datablock_freelist b = DATA_BLOCK_FREE
  status : ∀ i, (v.inode i).status = charInt INODE_FREE
  name : ∀ i, (v.inode i).name 0 = 0
  file_size : ∀ i, (v.inode i).file_size = 0
  direct_blocks : ∀ i k, (v.inode i).direct_blocks k = -1
  handle : ∀ h, v.handle h = ⟨0, -1⟩

theorem wp_formatDisk {s : Sys} {E : Fault → Prop} :
    wp simplefs_formatDisk s E fun _ s' => s'.view.Fresh := by
  simp only [simplefs_formatDisk, wp_bind, wp_modify]
  refine wp_writeSuperBlock' fun s₁ h₁ => wp_uninitialised fun rest j hr => ?_
  set inode : inode_t :=
    { status := charInt INODE_FREE, name := fun k => (0 :: rest).getD k 0, file_size := 0
      direct_blocks := fun _ => -1 } with hinode
  have hrange : inode.InRange :=
    ⟨(by decide : InInt 120), (by decide : InInt 0), fun _ => (by decide : InInt (-1))⟩
  -- the first `n` inodes are written
  let I : List (Fin NUM_INODES) → Sys → Prop := fun l s => ∃ n ≤ 8,
    l = (List.finRange NUM_INODES).drop n ∧ s.view.size = 64 + 32 * n ∧
    s.view.super = s₁.view.super ∧ ∀ i : Fin NUM_INODES, (i : ℕ) < n → s.view.inode i = inode
  have hstep : ∀ i l s, I (i :: l) s → wp (simplefs_writeInode (i : ℕ) inode) s E
      fun _ s' => I l s' := by
    rintro i l s ⟨n, -, hl, hsize, hsuper, hdone⟩
    have hn : n < (List.finRange NUM_INODES).length := by
      by_contra hge
      rw [List.drop_eq_nil_of_le (by omega)] at hl
      exact absurd hl (List.cons_ne_nil _ _)
    rw [List.drop_eq_getElem_cons hn, List.cons.injEq, List.getElem_finRange] at hl
    obtain ⟨rfl, rfl⟩ := hl
    refine wp_writeInode' _ hrange fun s' hs' => ⟨n + 1, ?_, rfl, ?_, ?_, fun k hk => ?_⟩
    · simpa using hn
    · rw [hs']
      simp only [hsize, Fin.val_cast]
      omega
    · rw [hs', ← hsuper]
    · rw [hs']
      by_cases hkn : (k : ℕ) = n
      · have : k = Fin.cast (List.length_finRange) ⟨n, hn⟩ := Fin.ext hkn
        simp only [← this, Function.update_self]
      · have : k ≠ Fin.cast (List.length_finRange) ⟨n, hn⟩ := fun he => hkn (by rw [he]; rfl)
        simp only [Function.update_of_ne this]
        exact hdone k (by omega)
  have hI : I (List.finRange NUM_INODES) { s₁ with junk := j } := by
    refine ⟨0, by omega, rfl, ?_, ?_, fun i hi => by omega⟩
    · rw [view_set_junk, h₁]
      simp only [view_size_empty]
      rfl
    · rw [view_set_junk]
  refine (wp_forM hstep hI).imp ?_
  rintro ⟨⟩ s₂ ⟨n, hn, hl, hsize, hsuper, hdone⟩
  have hn8 : n = 8 := by
    have := List.drop_eq_nil_iff.1 hl.symm
    rw [List.length_finRange] at this
    exact le_antisymm hn this
  have hinodes (i : Fin NUM_INODES) : s₂.view.inode i = inode := hdone i (by rw [hn8]; exact i.2)
  simp only [view_set_handle]
  refine ⟨?_, fun i => ?_, fun b => ?_, fun i => ?_, fun i => ?_, fun i => ?_, fun i k => ?_,
    fun h => rfl⟩
  · simp only [hsize, hn8]
  · simp only [hsuper, h₁]
  · simp only [hsuper, h₁]
  · simp only [hinodes, hinode]
  · simp only [hinodes, hinode]; rfl
  · simp only [hinodes, hinode]
  · simp only [hinodes, hinode]

/-! ## Well-formed views -/

/-- Each inode is well formed, no two share a block, and each handle is closed or holds an inode
number. -/
structure View.Wf (v : View) : Prop where
  ready : v.Ready
  ok : ∀ i, v.InodeOk (v.inode i)
  apart : ∀ i j, i ≠ j → (v.inode i).Apart (v.inode j)
  handle : ∀ h, (v.handle h).inode_number = -1 ∨
    ∃ i : Fin NUM_INODES, (v.handle h).inode_number = (i : ℕ)
  offset : ∀ h, 0 ≤ (v.handle h).offset ∧ (v.handle h).offset ≤ 256

/-- Handle `h` is open on inode `i`. -/
def View.OpenOn (v : View) (h : Fin MAX_OPEN_FILES) (i : Fin NUM_INODES) : Prop :=
  (v.handle h).inode_number = (i : ℕ)

theorem handle_inj {g g' : Fin MAX_OPEN_FILES} (h : ((g : ℕ) : ℤ) = (g' : ℕ)) : g = g' :=
  Fin.ext (by omega)

instance (v : View) (h : Fin MAX_OPEN_FILES) (i : Fin NUM_INODES) : Decidable (v.OpenOn h i) :=
  inferInstanceAs (Decidable (_ = _))

theorem View.OpenOn.inj {v : View} {g : Fin MAX_OPEN_FILES} {i j : Fin NUM_INODES}
    (hi : v.OpenOn g i) (hj : v.OpenOn g j) : i = j := Fin.ext (by unfold OpenOn at hi hj; omega)

/-- A view that is well formed but for the offsets of the handles that are closed. -/
structure View.Sound (v : View) : Prop where
  ready : v.Ready
  ok : ∀ i, v.InodeOk (v.inode i)
  apart : ∀ i j, i ≠ j → (v.inode i).Apart (v.inode j)
  handle : ∀ h, (v.handle h).inode_number = -1 ∨ ∃ i, v.OpenOn h i
  offset : ∀ h i, v.OpenOn h i → 0 ≤ (v.handle h).offset ∧ (v.handle h).offset ≤ 256

theorem View.Wf.sound {v : View} (hw : v.Wf) : v.Sound :=
  ⟨hw.ready, hw.ok, hw.apart, hw.handle, fun h _ _ => hw.offset h⟩

theorem View.Sound.wf {v : View} (hs : v.Sound)
    (ho : ∀ h, 0 ≤ (v.handle h).offset ∧ (v.handle h).offset ≤ 256) : v.Wf :=
  ⟨hs.ready, hs.ok, hs.apart, hs.handle, ho⟩

/-- The inode is marked in the free list. -/
def View.InUse (v : View) (i : Fin NUM_INODES) : Prop :=
  v.super.inode_freelist i = INODE_IN_USE

instance (v : View) (i : Fin NUM_INODES) : Decidable (v.InUse i) :=
  inferInstanceAs (Decidable (_ = _))

/-- A call can do this to a well-formed view. -/
inductive View.Step (v : View) : Op → Ret → View → Prop
  | create_full {f} : (∀ i, v.super.inode_freelist i ≠ INODE_FREE) →
      Step v (.create f) ⟨-1, []⟩ v
  | create {f} (i : Fin NUM_INODES) : v.super.inode_freelist i = INODE_FREE →
      (∀ j < i, v.super.inode_freelist j ≠ INODE_FREE) →
      Step v (.create f) ⟨(i : ℕ), []⟩ (v.createInode i f)
  | delete_none {f} : v.lookup f = none → Step v (.delete f) ⟨0, []⟩ v
  | delete {f} (i : Fin NUM_INODES) : v.lookup f = some i → v.InUse i →
      Step v (.delete f) ⟨0, []⟩ (v.deleteInode i)
  | open_none {f} : v.lookup f = none → Step v (.open_ f) ⟨-1, []⟩ v
  | open_full {f} : (∀ h, (v.handle h).inode_number ≠ -1) → Step v (.open_ f) ⟨-1, []⟩ v
  | open_ {f} (i : Fin NUM_INODES) (h : Fin MAX_OPEN_FILES) : v.lookup f = some i →
      (v.handle h).inode_number = -1 →
      Step v (.open_ f) ⟨(h : ℕ), []⟩ (v.setHandle h ⟨0, (i : ℕ)⟩)
  | close (h : Fin MAX_OPEN_FILES) : Step v (.close (h : ℕ)) ⟨0, []⟩ (v.setHandle h ⟨0, -1⟩)
  | read {n r} (h : Fin MAX_OPEN_FILES) (i : Fin NUM_INODES) : v.OpenOn h i →
      (InInt ((v.handle h).offset + n) →
        ((v.inode i).file_size < (v.handle h).offset + n → r = ⟨-1, []⟩) ∧
        ((v.handle h).offset + n ≤ (v.inode i).file_size → r = ⟨0, (List.range n.toNat).map
          fun k => v.byteAt (v.inode i) ((v.handle h).offset.toNat + k)⟩)) →
      Step v (.read (h : ℕ) n) r v
  | write_big {buf n} (h : Fin MAX_OPEN_FILES) (i : Fin NUM_INODES) : v.OpenOn h i →
      256 < int32 ((v.handle h).offset + n) → Step v (.write (h : ℕ) buf n) ⟨-1, []⟩ v
  | write_full {buf n v'} (h : Fin MAX_OPEN_FILES) (i : Fin NUM_INODES) (inode' : inode_t)
      (data : List UInt8) : v.OpenOn h i → int32 ((v.handle h).offset + n) ≤ 256 →
      v.Grown (v.inode i) v' inode' data → (data.length : ℤ) < n →
      (∀ b, v'.super.datablock_freelist b ≠ DATA_BLOCK_FREE) →
      Step v (.write (h : ℕ) buf n) ⟨-1, []⟩ v'
  | write {buf n} (h : Fin MAX_OPEN_FILES) (i : Fin NUM_INODES) (v₁ : View) (inode' : inode_t) :
      v.OpenOn h i → int32 ((v.handle h).offset + n) ≤ 256 →
      v.Grown (v.inode i) v₁ inode' ((List.range n.toNat).map buf) → v₁.Owns i inode' →
      Step v (.write (h : ℕ) buf n) ⟨0, []⟩ (v₁.setInode i inode')
  | seek_out {n} (h : Fin MAX_OPEN_FILES) (i : Fin NUM_INODES) : v.OpenOn h i →
      int32 ((v.handle h).offset + n) < 0 ∨
        (v.inode i).file_size < int32 ((v.handle h).offset + n) →
      Step v (.seek (h : ℕ) n) ⟨-1, []⟩ v
  | seek {n} (h : Fin MAX_OPEN_FILES) (i : Fin NUM_INODES) : v.OpenOn h i →
      0 ≤ int32 ((v.handle h).offset + n) →
      int32 ((v.handle h).offset + n) ≤ (v.inode i).file_size →
      Step v (.seek (h : ℕ) n) ⟨0, []⟩
        (v.setHandle h ⟨int32 ((v.handle h).offset + n), (i : ℕ)⟩)

/-- The handle that a call is given is an index of the table, and open where the call reads the
inode. -/
def Op.HandleOk (v : View) : Op → Prop
  | .close h => ∃ g : Fin MAX_OPEN_FILES, h = (g : ℕ)
  | .read h _ | .write h _ _ | .seek h _ =>
    ∃ (g : Fin MAX_OPEN_FILES) (i : Fin NUM_INODES), h = (g : ℕ) ∧ v.OpenOn g i
  | _ => True

/-- The faults that a call can stop at. -/
def Op.MayFault (v : View) : Op → Fault → Prop
  | .delete f, e => e = .inodeNotInUse ∧ ∃ i, v.lookup f = some i ∧ ¬ v.InUse i
  | .read h n, _ => ∃ g : Fin MAX_OPEN_FILES, h = (g : ℕ) ∧ ¬ InInt ((v.handle g).offset + n)
  | .write h _ n, e => e = .outOfBounds ∧ ∃ (g : Fin MAX_OPEN_FILES) (i : Fin NUM_INODES),
      h = (g : ℕ) ∧ v.OpenOn g i ∧ int32 ((v.handle g).offset + n) ≤ 256 ∧
        256 < (v.inode i).file_size + n
  | _, _ => False

section
variable {v : View} (hs : v.Sound)
include hs

theorem View.Sound.owns (i : Fin NUM_INODES) : v.Owns i (v.inode i) where
  ready := hs.ready
  ok := hs.ok i
  used j _ _ hr := (hs.ok j).used_of_refs hr
  apart j hj := hs.apart i j (Ne.symm hj)

/-- No block is in two places. -/
theorem View.Sound.unshared (i : Fin NUM_INODES) (k : Fin MAX_FILE_SIZE) (j : Fin NUM_INODES)
    (l : Fin MAX_FILE_SIZE) (hk : (v.inode i).direct_blocks k ≠ -1)
    (hkl : (v.inode i).direct_blocks k = (v.inode j).direct_blocks l) : i = j ∧ k = l := by
  obtain ⟨b, hb, -⟩ := (hs.ok i).block k hk
  by_cases hij : i = j
  · subst hij
    exact ⟨rfl, (hs.ok i).inj k l hk hkl⟩
  · exact absurd ⟨l, by rw [← hkl, hb]⟩ (hs.apart i j hij b ⟨k, hb⟩)

/-- A record that is well formed in a view with the same table and handles may be stored, if the
blocks of the other inodes are still used there. -/
theorem View.Sound.setInode {v₁ : View} {i : Fin NUM_INODES} {inode : inode_t}
    (htable : v₁.inode = v.inode) (hhandle : v₁.handle = v.handle) (hsize : v.size ≤ v₁.size)
    (ho : v₁.Owns i inode) : (v₁.setInode i inode).Sound where
  ready := ho.ready
  ok j := by
    by_cases hj : j = i
    · subst hj
      rw [View.setInode_inode, Function.update_self]
      exact ho.ok.mono (fun _ _ h => h) le_rfl
    · rw [View.setInode_inode, Function.update_of_ne hj, htable]
      refine (hs.ok j).mono (fun b hr _ => ho.used j hj b ?_) hsize
      rwa [htable]
  apart j k hjk := by
    simp only [View.setInode_inode]
    have hap (l) (hl : l ≠ i) : inode.Apart (v₁.inode l) := ho.apart l hl
    by_cases hj : j = i <;> by_cases hk : k = i
    · exact absurd (hj.trans hk.symm) hjk
    · rw [hj, Function.update_self, Function.update_of_ne hk]
      exact hap k hk
    · rw [hk, Function.update_self, Function.update_of_ne hj]
      exact (hap j hj).symm
    · rw [Function.update_of_ne hj, Function.update_of_ne hk, htable]
      exact hs.apart j k hjk
  handle h := by
    unfold View.OpenOn
    rw [View.setInode_handle, hhandle]
    exact hs.handle h
  offset h j := by
    unfold View.OpenOn
    rw [View.setInode_handle, hhandle]
    exact hs.offset h j

theorem View.Sound.setHandle {h : Fin MAX_OPEN_FILES} {e : filehandle_t}
    (he : e.inode_number = -1 ∨
      (∃ i : Fin NUM_INODES, e.inode_number = (i : ℕ)) ∧ 0 ≤ e.offset ∧ e.offset ≤ 256) :
    (v.setHandle h e).Sound where
  ready := hs.ready
  ok i := (hs.ok i).mono (fun _ _ h => h) le_rfl
  apart := hs.apart
  handle g := by
    unfold View.OpenOn
    rw [View.setHandle_handle]
    by_cases hg : g = h
    · rw [hg, Function.update_self]
      exact he.imp_right And.left
    · rw [Function.update_of_ne hg]
      exact hs.handle g
  offset g i := by
    unfold View.OpenOn
    rw [View.setHandle_handle]
    by_cases hg : g = h
    · rw [hg, Function.update_self]
      intro hi
      exact (he.resolve_left (by omega)).2
    · rw [Function.update_of_ne hg]
      exact hs.offset g i

end

/-- Blocks that were used stay used when a file grows. -/
theorem View.Grown.used_of_used {v v' : View} {inode inode' : inode_t} {data : List UInt8}
    (hg : v.Grown inode v' inode' data) {b : Fin NUM_DATA_BLOCKS}
    (h : v.super.datablock_freelist b = DATA_BLOCK_USED) :
    v'.super.datablock_freelist b = DATA_BLOCK_USED := by
  rw [hg.used b]
  split_ifs
  exacts [rfl, h]

/-- The blocks of a file that grows were its own or were free. -/
theorem View.Grown.block_other {v v' : View} {i j : Fin NUM_INODES} {inode' : inode_t}
    {data : List UInt8} (hg : v.Grown (v.inode i) v' inode' data) (hs : v.Sound) (hj : j ≠ i) {b : ℕ}
    (hb : (v.inode j).Refs b) : v'.block b = v.block b := by
  refine hg.frame b ?_
  rintro ⟨k, hk⟩
  obtain ⟨l, hl⟩ := hb
  obtain ⟨c, hc, hu, -⟩ := (hs.ok j).block l (by omega)
  by_cases hold : (v.inode i).direct_blocks k = -1
  · have hcb : (c : ℕ) = b := by omega
    exact free_ne_used ((hg.fresh k c (by rw [hk, hcb]) hold).symm.trans hu)
  · exact hs.apart j i hj b ⟨l, hl⟩ ⟨k, by rw [← hg.slot k hold, hk]⟩

theorem View.Grown.content_other {v v' : View} {i j : Fin NUM_INODES} {inode' : inode_t}
    {data : List UInt8} (hg : v.Grown (v.inode i) v' inode' data) (hs : v.Sound) (hj : j ≠ i) :
    v'.content (v.inode j) = v.content (v.inode j) :=
  (hs.ok j).content_congr fun _ hb => hg.block_other hs hj hb

/-- Every call keeps the view sound. -/
theorem View.Step.sound {v v' : View} {op : Op} {r : Ret} (h : v.Step op r v') (hs : v.Sound) :
    v'.Sound := by
  cases h with
  | create_full | delete_none | open_none | open_full | read | write_big | seek_out => exact hs
  | @create f i hi hlt =>
    have ho := hs.owns i
    refine hs.setInode rfl rfl le_rfl ⟨ho.ready, ?_, ho.used, ho.apart⟩
    exact (ho.ok.named f).mono (fun _ _ h => h) le_rfl
  | delete i hl hu =>
    have ho := hs.owns i
    refine hs.setInode rfl rfl le_rfl ⟨ho.ready, .freed _ _, fun j hj b hr => ?_, fun j _ b hr => ?_⟩
    · rw [View.markInode_super_datablock_freelist, View.freeBlocks_super_datablock_freelist,
        if_neg fun hi => ho.apart j hj b hi hr]
      exact ho.used j hj b hr
    · exact absurd hr (inode_t.not_refs_freed _ b)
  | open_ i h hl hh => exact hs.setHandle (Or.inr ⟨⟨i, rfl⟩, le_rfl, by simp⟩)
  | close h => exact hs.setHandle (Or.inl rfl)
  | write_full h i inode' data hi hle hg hd hn =>
    refine ⟨?_, fun j => ?_, ?_, ?_, ?_⟩
    · exact le_trans hs.ready hg.grows
    · rw [hg.table]
      exact (hs.ok j).mono (fun _ _ => hg.used_of_used) hg.grows
    · rw [hg.table]; exact hs.apart
    · unfold View.OpenOn; rw [hg.handle]; exact hs.handle
    · unfold View.OpenOn; rw [hg.handle]; exact hs.offset
  | write h i v₁ inode' hi hle hg ho => exact hs.setInode hg.table hg.handle hg.grows ho
  | seek h i hi h₀ hle =>
    exact hs.setHandle (Or.inr ⟨⟨i, rfl⟩, h₀, hle.trans (hs.ok i).size_le⟩)

/-- A call moves a handle within the bounds of a file. -/
theorem View.Step.offset {v v' : View} {op : Op} {r : Ret} (h : v.Step op r v') (hs : v.Sound)
    (g : Fin MAX_OPEN_FILES) :
    v'.handle g = v.handle g ∨ 0 ≤ (v'.handle g).offset ∧ (v'.handle g).offset ≤ 256 := by
  have hset {k : Fin MAX_OPEN_FILES} {e : filehandle_t} (he : 0 ≤ e.offset ∧ e.offset ≤ 256) :
      (v.setHandle k e).handle g = v.handle g ∨
        0 ≤ ((v.setHandle k e).handle g).offset ∧ ((v.setHandle k e).handle g).offset ≤ 256 := by
    rw [View.setHandle_handle]
    by_cases hg : g = k
    · rw [hg, Function.update_self]
      exact Or.inr he
    · exact Or.inl (Function.update_of_ne hg ..)
  cases h with
  | create_full | delete_none | open_none | open_full | read | write_big | seek_out | create |
    delete => exact Or.inl rfl
  | open_ | close => exact hset ⟨le_rfl, by simp⟩
  | write_full h i inode' data hi hle hg => exact Or.inl (by rw [hg.handle])
  | write h i v₁ inode' hi hle hg => exact Or.inl (by rw [View.setInode_handle, hg.handle])
  | seek h i hi h₀ hle => exact hset ⟨h₀, hle.trans (hs.ok i).size_le⟩

/-- Every call keeps the view well formed. -/
theorem View.Step.wf {v v' : View} {op : Op} {r : Ret} (h : v.Step op r v') (hw : v.Wf) :
    v'.Wf := by
  refine (h.sound hw.sound).wf fun g => ?_
  rcases h.offset hw.sound g with hg | hg
  · rw [hg]
    exact hw.offset g
  · exact hg

theorem View.Fresh.wf {v : View} (h : v.Fresh) : v.Wf where
  ready := by simp [View.Ready, h.size]
  ok i := by
    refine ⟨?_, ?_, fun k => ?_, fun k hk => ?_, fun k l hk => ?_⟩
    · simp [h.file_size]
    · simp [h.file_size]
    · simp [h.file_size, h.direct_blocks]
    · exact absurd (h.direct_blocks i k) hk
    · exact absurd (h.direct_blocks i k) hk
  apart i j _ b := by
    rintro ⟨k, hk⟩
    rw [h.direct_blocks] at hk
    omega
  handle g := Or.inl (by rw [h.handle])
  offset g := by simp [h.handle]

section
variable {s : Sys} {E : Fault → Prop}

/-- Deleting in a sound state. -/
theorem View.Sound.wp_delete (hs : s.view.Sound) {f : CString} {Q : Unit → Sys → Prop}
    (hnone : s.view.lookup f = none → Q () s)
    (hE : ∀ i, s.view.lookup f = some i → ¬ s.view.InUse i → E .inodeNotInUse)
    (hsome : ∀ i s', s.view.lookup f = some i → s.view.InUse i →
      s'.view = s.view.deleteInode i → Q () s') :
    wp (simplefs_delete f) s E Q := by
  refine Simplefs.wp_delete hs.ready hnone (fun i _ k hk => ?_) (fun i _ => (hs.ok i).inj) hE hsome
  obtain ⟨b, hb, hu, -⟩ := (hs.ok i).block k hk
  exact ⟨b, hb, hu⟩

/-- A handle that was closed is an index of the table. -/
theorem handleOk_of_close {h : ℤ} {r : Ret} {s' : Sys} (hr : Returns (Op.close h).exec s r s') :
    ∃ g : Fin MAX_OPEN_FILES, h = (g : ℕ) := by
  by_cases hh : 0 ≤ h ∧ h < MAX_OPEN_FILES
  · exact ⟨⟨h.toNat, by omega⟩, by simp only; omega⟩
  · have : wp (Op.close h).exec s (fun _ => True) fun _ _ => False := by
      simp only [Op.exec, simplefs_close, wp_bind]
      rw [index, dif_neg hh]
      trivial
    exact (this.returns hr).elim

end

/-- What each call does to a sound state. -/
theorem wp_exec {s : Sys} (hs : s.view.Sound) {op : Op} (hop : op.HandleOk s.view) :
    wp op.exec s (op.MayFault s.view) fun r s' => s.view.Step op r s'.view := by
  cases op with
  | create f =>
    simp only [Op.exec, wp_bind]
    refine wp_create hs.ready (fun h => .create_full h) fun i s' hi hlt hs' => ?_
    rw [wp_pure, hs']
    exact .create i hi hlt
  | delete f =>
    simp only [Op.exec, wp_bind]
    refine hs.wp_delete (fun h => .delete_none h) (fun i hl hu => ⟨rfl, i, hl, hu⟩)
      fun i s' hl hu hs' => ?_
    rw [wp_pure, hs']
    exact .delete i hl hu
  | open_ f =>
    simp only [Op.exec, wp_bind]
    refine wp_open hs.ready (fun h => .open_none h) (fun h => .open_full h)
      fun i h s' hl hh _ hs' => ?_
    rw [wp_pure, hs']
    exact .open_ i h hl hh
  | close h =>
    obtain ⟨g, rfl⟩ := hop
    simp only [Op.exec, wp_bind]
    refine wp_close g fun s' hs' => ?_
    rw [wp_pure, hs']
    exact .close g
  | read h n =>
    obtain ⟨g, i, rfl, hg⟩ := hop
    simp only [Op.exec, wp_bind]
    by_cases hn : InInt ((s.view.handle g).offset + n)
    · refine wp_read hs.ready hg (hs.ok i) (hs.offset g i hg).1 hn (fun hlt => ?_) fun hle => ?_
      · exact .read g i hg fun _ => ⟨fun _ => rfl, fun hle => absurd hle (not_le.2 hlt)⟩
      · exact .read g i hg fun _ => ⟨fun hlt => absurd hle (not_le.2 hlt), fun _ => rfl⟩
    · refine (reads_read s).mono (fun e _ => ⟨g, rfl, hn⟩) fun r s' hs' => ?_
      subst hs'
      exact .read g i hg fun h => absurd h hn
  | write h buf n =>
    obtain ⟨g, i, rfl, hg⟩ := hop
    simp only [Op.exec, wp_bind]
    refine wp_write hg (hs.owns i) (fun hb => .write_big g i hg hb)
      (fun hle hlt => ⟨rfl, g, i, rfl, hg, hle, hlt⟩)
      (fun hle s' inode' data hgr ho hz hd hn => ?_) fun hle s₁ s' inode' hgr ho hs' => ?_
    · exact .write_full g i inode' data hg hle hgr hd hn
    · rw [wp_pure, hs']
      exact .write g i s₁.view inode' hg hle hgr ho
  | seek h n =>
    obtain ⟨g, i, rfl, hg⟩ := hop
    simp only [Op.exec, wp_bind]
    refine wp_seek hs.ready g i hg (fun hb => .seek_out g i hg hb) fun h₀ hle s' hs' => ?_
    rw [wp_pure, hs']
    exact .seek g i hg h₀ hle

/-! ## Runs -/

/-- The runs of calls from `simplefs_formatDisk`; a call that does not return ends a run. -/
def simplefs : LTS Sys (Op × Ret) where
  init s := ∃ s₀, Returns simplefs_formatDisk s₀ () s
  step s l s' := Returns l.1.exec s l.2 s'

theorem fresh_of_init {s : Sys} (h : simplefs.init s) : s.view.Fresh := by
  obtain ⟨s₀, h⟩ := h
  exact (wp_formatDisk (E := fun _ => True)).returns h

/-- Formatting always succeeds. -/
theorem exists_init (s₀ : Sys) : ∃ s, Returns simplefs_formatDisk s₀ () s := by
  obtain ⟨_, s, h, -⟩ := (wp_formatDisk (s := s₀)).total
  exact ⟨s, h⟩

/-- The step of the view that a call takes. -/
theorem step_view {s s' : Sys} {op : Op} {r : Ret} (hw : s.view.Wf) (hop : op.HandleOk s.view)
    (h : Returns op.exec s r s') : s.view.Step op r s'.view ∧ s'.view.Wf := by
  have hst := (wp_exec hw.sound hop).returns h
  exact ⟨hst, hst.wf hw⟩

/-! ## For examples -/

def blankSys : Sys := ⟨FlatFile.File.empty, fun _ => ⟨0, -1⟩, fun _ => 0⟩

/-- The string `a`. -/
def nameA : CString := ⟨[97], by simp, fun _ => 0⟩

end Simplefs

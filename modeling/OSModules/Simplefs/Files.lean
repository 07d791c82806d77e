/-
  Inodes with their data blocks: when an inode is well formed, what its file holds, and the
  rules of `simplefs_delete` and `simplefs_read`.
-/
import OSModules.Simplefs.Spec

namespace Simplefs

open CInt Prog

/-- The entry of `direct_blocks` at slot `k`. -/
def inode_t.slot (inode : inode_t) (k : ℕ) : ℤ :=
  if h : k < MAX_FILE_SIZE then inode.direct_blocks ⟨k, h⟩ else -1

/-- The inode refers to block `b`. -/
def inode_t.Refs (inode : inode_t) (b : ℕ) : Prop := ∃ k, inode.direct_blocks k = b

instance (inode : inode_t) (b : ℕ) : Decidable (inode.Refs b) :=
  inferInstanceAs (Decidable (∃ _, _))

@[simp] theorem inode_t.slot_fin (inode : inode_t) (k : Fin MAX_FILE_SIZE) :
    inode.slot k = inode.direct_blocks k := dif_pos k.2

/-- Byte `p` of the file, in the block its slot refers to. -/
def View.byteAt (v : View) (inode : inode_t) (p : ℕ) : UInt8 :=
  (v.block (inode.slot (p / 64)).toNat).getD (p % 64) 0

/-- What the file holds. -/
def View.content (v : View) (inode : inode_t) : List UInt8 :=
  (List.range inode.file_size.toNat).map (v.byteAt inode)

/-- The inode has a block for each part of its file and for nothing else, and its blocks are
used, on the disk and not shared between its slots. -/
structure View.InodeOk (v : View) (inode : inode_t) : Prop where
  size_nonneg : 0 ≤ inode.file_size
  size_le : inode.file_size ≤ 256
  slot : ∀ k, inode.direct_blocks k ≠ -1 ↔ 64 * (k : ℕ) < inode.file_size
  block : ∀ k, inode.direct_blocks k ≠ -1 → ∃ b : Fin NUM_DATA_BLOCKS,
    inode.direct_blocks k = (b : ℕ) ∧ v.super.datablock_freelist b = DATA_BLOCK_USED ∧ v.Stored b
  inj : ∀ k l, inode.direct_blocks k ≠ -1 → inode.direct_blocks k = inode.direct_blocks l → k = l

/-- No block is referred to by both inodes. -/
def inode_t.Apart (inode inode' : inode_t) : Prop := ∀ b : ℕ, inode.Refs b → ¬ inode'.Refs b

theorem inode_t.Apart.symm {inode inode' : inode_t} (h : inode.Apart inode') :
    inode'.Apart inode := fun b h₁ h₂ => h b h₂ h₁

theorem View.InodeOk.freed (v : View) (inode : inode_t) : v.InodeOk inode.freed where
  size_nonneg := le_rfl
  size_le := by simp [inode_t.freed]
  slot k := by simp [inode_t.freed]
  block k h := by simp [inode_t.freed] at h
  inj k l h := by simp [inode_t.freed] at h

theorem inode_t.not_refs_freed (inode : inode_t) (b : ℕ) : ¬ inode.freed.Refs b := by
  rintro ⟨k, hk⟩
  simp only [inode_t.freed] at hk
  omega

theorem View.InodeOk.named {v : View} {inode : inode_t} (h : v.InodeOk inode) (f : CString) :
    v.InodeOk (inode.named f) := ⟨h.size_nonneg, h.size_le, h.slot, h.block, h.inj⟩

/-- The blocks an inode refers to stay its own if they stay used and on the disk. -/
theorem View.InodeOk.mono {v v' : View} {inode : inode_t} (h : v.InodeOk inode)
    (hf : ∀ b : Fin NUM_DATA_BLOCKS, inode.Refs b →
      v.super.datablock_freelist b = DATA_BLOCK_USED →
      v'.super.datablock_freelist b = DATA_BLOCK_USED)
    (hs : v.size ≤ v'.size) : v'.InodeOk inode where
  size_nonneg := h.size_nonneg
  size_le := h.size_le
  slot := h.slot
  inj := h.inj
  block k hk := by
    obtain ⟨b, hb, hu, hst⟩ := h.block k hk
    exact ⟨b, hb, hf b ⟨k, hb⟩ hu, le_trans hst hs⟩

section
variable {v : View} {inode : inode_t} (h : v.InodeOk inode)
include h

theorem View.InodeOk.used_of_refs {b : Fin NUM_DATA_BLOCKS} (hb : inode.Refs b) :
    v.super.datablock_freelist b = DATA_BLOCK_USED := by
  obtain ⟨k, hk⟩ := hb
  obtain ⟨c, hc, hu, -⟩ := h.block k (by omega)
  have : c = b := Fin.ext (by omega)
  rwa [← this]

/-- The block of a byte of the file. -/
theorem View.InodeOk.block_of_lt {p : ℕ} (hp : p < inode.file_size) :
    ∃ (k : Fin MAX_FILE_SIZE) (b : Fin NUM_DATA_BLOCKS), (k : ℕ) = p / 64 ∧
      inode.direct_blocks k = (b : ℕ) ∧ inode.slot (p / 64) = (b : ℕ) ∧
      v.super.datablock_freelist b = DATA_BLOCK_USED ∧ v.Stored b := by
  have hle := h.size_le
  have hk : p / 64 < MAX_FILE_SIZE := by simp only [MAX_FILE_SIZE]; omega
  obtain ⟨b, hb, hu, hst⟩ := h.block ⟨p / 64, hk⟩ ((h.slot _).2 (by simp only; omega))
  exact ⟨⟨p / 64, hk⟩, b, rfl, hb, by rw [← hb]; exact inode.slot_fin ⟨p / 64, hk⟩, hu, hst⟩

end

theorem View.length_content (v : View) (inode : inode_t) :
    (v.content inode).length = inode.file_size.toNat := by simp [View.content]

@[simp] theorem View.setInode_content (v : View) (i : Fin NUM_INODES) (x y : inode_t) :
    (v.setInode i x).content y = v.content y := rfl

/-- The bytes of a file from an offset on. -/
theorem View.content_slice (v : View) (inode : inode_t) {off n : ℕ}
    (h : (off + n : ℕ) ≤ inode.file_size) :
    ((v.content inode).drop off).take n = (List.range n).map fun k => v.byteAt inode (off + k) := by
  refine List.ext_getElem ?_ fun k h₁ h₂ => ?_
  · rw [List.length_take, List.length_drop, View.length_content, List.length_map, List.length_range]
    omega
  · simp [View.content]

/-- A file whose blocks are unchanged is unchanged. -/
theorem View.InodeOk.content_congr {v v' : View} {inode : inode_t} (hok : v.InodeOk inode)
    (h : ∀ b : ℕ, inode.Refs b → v'.block b = v.block b) : v'.content inode = v.content inode := by
  refine List.map_congr_left fun p hp => ?_
  have hlt := List.mem_range.1 hp
  obtain ⟨k, b, -, hb, hslot, -⟩ := hok.block_of_lt (p := p) (by omega)
  rw [View.byteAt, View.byteAt, hslot, Int.toNat_natCast, h b ⟨k, hb⟩]

/-! ## simplefs_delete -/

section
variable {s : Sys} {E : Fault → Prop}

/-- The view with the blocks in `B` free. -/
@[simps] def View.freeBlocks (v : View) (B : ℕ → Prop) [DecidablePred B] : View :=
  { v with super := { v.super with
    datablock_freelist := fun b => if B b then DATA_BLOCK_FREE else v.super.datablock_freelist b } }

@[simp] theorem ready_freeBlocks {v : View} {B : ℕ → Prop} [DecidablePred B] :
    (v.freeBlocks B).Ready ↔ v.Ready := Iff.rfl

/-- The view after inode `i` and its blocks are freed. -/
def View.deleteInode (v : View) (i : Fin NUM_INODES) : View :=
  ((v.freeBlocks fun b => (v.inode i).Refs b).markInode i INODE_FREE).setInode i (v.inode i).freed

section
variable (v : View) (i : Fin NUM_INODES)

@[simp] theorem View.deleteInode_inode :
    (v.deleteInode i).inode = Function.update v.inode i (v.inode i).freed := rfl

@[simp] theorem View.deleteInode_inode_freelist : (v.deleteInode i).super.inode_freelist =
    Function.update v.super.inode_freelist i INODE_FREE := rfl

@[simp] theorem View.deleteInode_datablock_freelist (b : Fin NUM_DATA_BLOCKS) :
    (v.deleteInode i).super.datablock_freelist b =
      if (v.inode i).Refs b then DATA_BLOCK_FREE else v.super.datablock_freelist b := rfl

@[simp] theorem View.deleteInode_block : (v.deleteInode i).block = v.block := rfl

@[simp] theorem View.deleteInode_handle : (v.deleteInode i).handle = v.handle := rfl

end

/-- What is outside of a list is its head's or outside of the longer list. -/
theorem exists_notMem_tail {α : Type} {k : α} {l : List α} (hk : k ∉ l) {p : α → Prop} :
    (∃ k', k' ∉ l ∧ p k') ↔ p k ∨ ∃ k', k' ∉ k :: l ∧ p k' := by
  constructor
  · rintro ⟨k', hk', hp⟩
    by_cases hkk : k' = k
    · exact Or.inl (hkk ▸ hp)
    · exact Or.inr ⟨k', by simp [hkk, hk'], hp⟩
  · rintro (hp | ⟨k', hk', hp⟩)
    · exact ⟨k, hk, hp⟩
    · exact ⟨k', fun h => hk' (List.mem_cons_of_mem _ h), hp⟩

/-- The loop of `simplefs_delete` over the slots of an inode whose blocks are used and not shared
between slots. -/
theorem wp_freeRefs (hs : s.view.Ready) (inode : inode_t)
    (hused : ∀ k, inode.direct_blocks k ≠ -1 → ∃ b : Fin NUM_DATA_BLOCKS,
      inode.direct_blocks k = (b : ℕ) ∧ s.view.super.datablock_freelist b = DATA_BLOCK_USED)
    (hinj : ∀ k l, inode.direct_blocks k ≠ -1 →
      inode.direct_blocks k = inode.direct_blocks l → k = l)
    {Q : Unit → Sys → Prop}
    (hQ : ∀ s', s'.view = s.view.freeBlocks (fun b => inode.Refs b) → Q () s') :
    wp ((List.finRange MAX_FILE_SIZE).forM fun i =>
      if inode.direct_blocks i ≠ -1 then simplefs_freeDataBlock (inode.direct_blocks i)
      else pure ()) s E Q := by
  -- the blocks of the slots that are no longer to come are free
  let I : List (Fin MAX_FILE_SIZE) → Sys → Prop := fun l s' => l.Nodup ∧
    s'.view = s.view.freeBlocks fun b => ∃ k, k ∉ l ∧ inode.direct_blocks k = b
  have hstep : ∀ k l s', I (k :: l) s' →
      wp (if inode.direct_blocks k ≠ -1 then simplefs_freeDataBlock (inode.direct_blocks k)
        else pure ()) s' E fun _ s'' => I l s'' := by
    rintro k l s' ⟨hnd, hv⟩
    obtain ⟨hk, hnd⟩ := List.nodup_cons.1 hnd
    by_cases hb : inode.direct_blocks k = -1
    · rw [if_neg (not_not.2 hb), wp_pure]
      refine ⟨hnd, ?_⟩
      rw [hv]
      congr 1
      funext b
      rw [exists_notMem_tail hk, or_iff_right]
      omega
    · rw [if_pos hb]
      obtain ⟨b, hbk, hu⟩ := hused k hb
      have hnot : ¬ ∃ k', k' ∉ k :: l ∧ inode.direct_blocks k' = (b : ℕ) := by
        rintro ⟨k', hk', he⟩
        exact hk' (by rw [← hinj k k' hb (by rw [hbk, he])]; exact List.mem_cons_self ..)
      have hs' : s'.view.Ready := by rwa [hv, ready_freeBlocks]
      rw [hbk]
      refine wp_freeDataBlock hs' b ?_ fun s'' hs'' => ⟨hnd, ?_⟩
      · rw [hv]
        exact (if_neg hnot).trans hu
      · rw [hs'', hv]
        simp only [View.markBlock, View.freeBlocks]
        congr 2
        funext c
        by_cases hc : c = b
        · subst hc
          rw [Function.update_self, if_pos ⟨k, hk, hbk⟩]
        · rw [Function.update_of_ne hc]
          refine if_congr ?_ rfl rfl
          have hne : (c : ℕ) ≠ b := fun he => hc (Fin.ext he)
          rw [exists_notMem_tail hk, or_iff_right]
          omega
  refine (wp_forM hstep ⟨List.nodup_finRange _, ?_⟩).imp fun _ s' h => hQ s' ?_
  · simp only [View.freeBlocks, List.mem_finRange, not_true, false_and, exists_false, if_false]
  · rw [h.2]
    congr 1
    funext b
    simp [inode_t.Refs]

/-- Deleting the file of an inode whose blocks are its own; the assertion in
`simplefs_freeInode` is the only one that can fail. -/
theorem wp_delete (hs : s.view.Ready) {f : CString} {Q : Unit → Sys → Prop}
    (hnone : s.view.lookup f = none → Q () s)
    (hused : ∀ i, s.view.lookup f = some i → ∀ k, (s.view.inode i).direct_blocks k ≠ -1 →
      ∃ b : Fin NUM_DATA_BLOCKS, (s.view.inode i).direct_blocks k = (b : ℕ) ∧
        s.view.super.datablock_freelist b = DATA_BLOCK_USED)
    (hinj : ∀ i, s.view.lookup f = some i → ∀ k l, (s.view.inode i).direct_blocks k ≠ -1 →
      (s.view.inode i).direct_blocks k = (s.view.inode i).direct_blocks l → k = l)
    (hE : ∀ i, s.view.lookup f = some i → s.view.super.inode_freelist i ≠ INODE_IN_USE →
      E .inodeNotInUse)
    (hsome : ∀ i s', s.view.lookup f = some i → s.view.super.inode_freelist i = INODE_IN_USE →
      s'.view = s.view.deleteInode i → Q () s') :
    wp (simplefs_delete f) s E Q := by
  simp only [simplefs_delete, wp_bind]
  refine wp_get_inode_num hs (fun hl => ?_) fun i hl => ?_
  · rw [if_pos rfl]
    exact hnone hl
  rw [if_neg (by omega), wp_bind]
  refine wp_readInode hs i ?_
  rw [wp_bind]
  refine wp_freeRefs hs _ (hused i hl) (hinj i hl) fun s₁ h₁ => ?_
  have hs₁ : s₁.view.Ready := by rwa [h₁, ready_freeBlocks]
  refine wp_freeInode hs₁ i (fun hne => hE i hl ?_) fun hu s' hs' => hsome i s' hl ?_ ?_
  · rwa [h₁, View.freeBlocks_super_inode_freelist] at hne
  · rwa [h₁, View.freeBlocks_super_inode_freelist] at hu
  · rw [hs', h₁, View.freeBlocks_inode]; rfl

end

end Simplefs

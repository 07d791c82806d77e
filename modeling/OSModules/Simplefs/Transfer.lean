/-
  The loops of `simplefs_write` and `simplefs_read`.  Writing appends to the file of an inode,
  chunk by chunk, and may run out of data blocks half way.
-/
import OSModules.Simplefs.Access
import OSModules.Simplefs.Files

namespace Simplefs

open CInt Prog

/-- The view with a data block written. -/
@[simps] def View.putBlock (v : View) (b : ℕ) (data : List UInt8) : View :=
  { v with block := Function.update v.block b data, size := max v.size (64 * (6 + b)) }

/-- `inode` is a well-formed record for inode `i`, whatever the table holds for `i`: the blocks
of the other inodes are used and none of them is one of its blocks. -/
structure View.Owns (v : View) (i : Fin NUM_INODES) (inode : inode_t) : Prop where
  ready : v.Ready
  ok : v.InodeOk inode
  used : ∀ j ≠ i, ∀ b : Fin NUM_DATA_BLOCKS, (v.inode j).Refs b →
    v.super.datablock_freelist b = DATA_BLOCK_USED
  apart : ∀ j ≠ i, inode.Apart (v.inode j)

theorem View.Owns.setInode {v : View} {i : Fin NUM_INODES} {inode : inode_t}
    (h : v.Owns i inode) : (v.setInode i inode).Owns i inode := by
  have hother (j) (hj : j ≠ i) : (v.setInode i inode).inode j = v.inode j := by
    rw [View.setInode_inode, Function.update_of_ne hj]
  refine ⟨h.ready, h.ok.mono (fun _ _ h => h) le_rfl, fun j hj b hr => ?_, fun j hj => ?_⟩
  · rw [hother j hj] at hr
    exact h.used j hj b hr
  · rw [hother j hj]
    exact h.apart j hj

theorem View.Owns.setHandle {v : View} {i : Fin NUM_INODES} {inode : inode_t}
    (h : v.Owns i inode) (g : Fin MAX_OPEN_FILES) (e : filehandle_t) :
    (v.setHandle g e).Owns i inode :=
  ⟨h.ready, h.ok.mono (fun _ _ h => h) le_rfl, h.used, h.apart⟩

/-- From `v` and `inode`, `data` was appended to the file: the new blocks were free, and nothing
else but the data blocks of the inode changed. -/
structure View.Grown (v : View) (inode : inode_t) (v' : View) (inode' : inode_t)
    (data : List UInt8) : Prop where
  table : v'.inode = v.inode
  handle : v'.handle = v.handle
  freelist : v'.super.inode_freelist = v.super.inode_freelist
  name : inode'.status = inode.status ∧ inode'.name = inode.name
  size : inode'.file_size = inode.file_size + data.length
  slot : ∀ k, inode.direct_blocks k ≠ -1 → inode'.direct_blocks k = inode.direct_blocks k
  fresh : ∀ k (b : Fin NUM_DATA_BLOCKS), inode'.direct_blocks k = (b : ℕ) →
    inode.direct_blocks k = -1 → v.super.datablock_freelist b = DATA_BLOCK_FREE
  used : ∀ b : Fin NUM_DATA_BLOCKS, v'.super.datablock_freelist b =
    if inode'.Refs b ∧ ¬ inode.Refs b then DATA_BLOCK_USED else v.super.datablock_freelist b
  frame : ∀ b : ℕ, ¬ inode'.Refs b → v'.block b = v.block b
  old : ∀ p : ℕ, p < inode.file_size → v'.byteAt inode' p = v.byteAt inode p
  new : ∀ k < data.length, v'.byteAt inode' (inode.file_size.toNat + k) = data.getD k 0
  grows : v.size ≤ v'.size

theorem View.Grown.refl (v : View) (inode : inode_t) : v.Grown inode v inode [] where
  table := rfl
  handle := rfl
  freelist := rfl
  name := ⟨rfl, rfl⟩
  size := by simp
  slot _ _ := rfl
  fresh k b h h' := by omega
  used b := by rw [if_neg fun h => h.2 h.1]
  frame _ _ := rfl
  old _ _ := rfl
  new k hk := by simp at hk
  grows := le_rfl

namespace View.Grown
variable {v v₁ v₂ : View} {inode inode₁ inode₂ : inode_t} {d₁ d₂ : List UInt8}

theorem refs (h : v.Grown inode v₁ inode₁ d₁) {b : ℕ} (hb : inode.Refs b) : inode₁.Refs b := by
  obtain ⟨k, hk⟩ := hb
  exact ⟨k, by rw [h.slot k (by omega), hk]⟩

theorem trans (hn : 0 ≤ inode.file_size) (h₁ : v.Grown inode v₁ inode₁ d₁)
    (h₂ : v₁.Grown inode₁ v₂ inode₂ d₂) : v.Grown inode v₂ inode₂ (d₁ ++ d₂) where
  table := h₂.table.trans h₁.table
  handle := h₂.handle.trans h₁.handle
  freelist := h₂.freelist.trans h₁.freelist
  name := ⟨h₂.name.1.trans h₁.name.1, h₂.name.2.trans h₁.name.2⟩
  size := by rw [h₂.size, h₁.size, List.length_append]; push_cast; ring
  slot k hk := by
    have := h₁.slot k hk
    rw [h₂.slot k (by rwa [this]), this]
  fresh k b hk hk' := by
    by_cases hk₁ : inode₁.direct_blocks k = -1
    · -- the block came later, so it was still free in between
      have hf := h₂.fresh k b hk hk₁
      rw [h₁.used b] at hf
      split_ifs at hf with hr
      · exact absurd hf.symm free_ne_used
      · exact hf
    · exact h₁.fresh k b (by rw [← h₂.slot k hk₁, hk]) hk'
  used b := by
    rw [h₂.used b, h₁.used b]
    by_cases h : inode.Refs b
    · simp [h, h₁.refs h]
    · by_cases h' : inode₁.Refs b
      · simp [h, h', h₂.refs h']
      · simp [h, h']
  frame b hb := (h₂.frame b hb).trans (h₁.frame b fun h => hb (h₂.refs h))
  old p hp := (h₂.old p (by rw [h₁.size]; omega)).trans (h₁.old p hp)
  new k hk := by
    have hs := h₁.size
    by_cases hk₁ : k < d₁.length
    · rw [List.getD_append _ _ _ _ hk₁, ← h₁.new k hk₁]
      exact h₂.old _ (by omega)
    · rw [List.length_append] at hk
      have hidx : inode.file_size.toNat + k = inode₁.file_size.toNat + (k - d₁.length) := by omega
      rw [List.getD_append_right _ _ _ _ (by omega), hidx]
      exact h₂.new _ (by omega)
  grows := h₁.grows.trans h₂.grows

/-- The file of the record before is still there after the blocks were written. -/
theorem byteAt_before (h : v.Grown inode v₁ inode₁ d₁) (hok : v.InodeOk inode) {p : ℕ}
    (hp : p < inode.file_size) : v₁.byteAt inode p = v.byteAt inode p := by
  obtain ⟨k, b, hk, hb, hslot, -⟩ := hok.block_of_lt hp
  rw [← h.old p hp]
  unfold View.byteAt
  have : inode₁.slot (p / 64) = inode.slot (p / 64) := by
    rw [← hk, inode_t.slot_fin, inode_t.slot_fin, h.slot k (by rw [hb]; omega)]
  rw [this]

theorem content_before (h : v.Grown inode v₁ inode₁ d₁) (hok : v.InodeOk inode) :
    v₁.content inode = v.content inode := by
  refine List.map_congr_left fun p hp => h.byteAt_before hok ?_
  have := List.mem_range.1 hp
  omega

theorem content_after (h : v.Grown inode v₁ inode₁ d₁) (hn : 0 ≤ inode.file_size) :
    v₁.content inode₁ = v.content inode ++ d₁ := by
  have hlen : inode₁.file_size.toNat = inode.file_size.toNat + d₁.length := by
    rw [h.size]; omega
  unfold View.content
  rw [hlen, List.range_add, List.map_append]
  congr 1
  · refine List.map_congr_left fun p hp => h.old p ?_
    have := List.mem_range.1 hp
    omega
  · refine List.ext_getElem (by simp) fun k h₁ h₂ => ?_
    simp only [List.getElem_map, List.getElem_range]
    rw [h.new k h₂]
    simp [List.getD, h₂]

end View.Grown

/-- The file was appended to, and each new block was the first one that was free when it was
taken. -/
structure View.Filled (v : View) (inode : inode_t) (v' : View) (inode' : inode_t)
    (data : List UInt8) : Prop extends View.Grown v inode v' inode' data where
  label : v'.super.name = v.super.name
  first : ∀ k (b c : Fin NUM_DATA_BLOCKS), inode'.direct_blocks k = (b : ℕ) →
    inode.direct_blocks k = -1 → c < b → v.super.datablock_freelist c = DATA_BLOCK_FREE →
    ∃ l < k, inode'.direct_blocks l = (c : ℕ)

theorem View.Filled.refl (v : View) (inode : inode_t) : v.Filled inode v inode [] where
  toGrown := .refl v inode
  label := rfl
  first k b c h h' := by omega

/-- The slots in use come before the others. -/
theorem View.InodeOk.slot_lt {v : View} {inode : inode_t} (h : v.InodeOk inode)
    {k l : Fin MAX_FILE_SIZE} (hk : inode.direct_blocks k = -1) (hl : inode.direct_blocks l ≠ -1) :
    l < k := by
  have hk' := mt (h.slot k).2 (not_not.2 hk)
  have hl' := (h.slot l).1 hl
  rw [Fin.lt_def]
  omega

theorem View.Filled.trans {v v₁ v₂ : View} {inode inode₁ inode₂ : inode_t} {d₁ d₂ : List UInt8}
    (hn : 0 ≤ inode.file_size) (hok : v₁.InodeOk inode₁) (h₁ : v.Filled inode v₁ inode₁ d₁)
    (h₂ : v₁.Filled inode₁ v₂ inode₂ d₂) : v.Filled inode v₂ inode₂ (d₁ ++ d₂) where
  toGrown := h₁.toGrown.trans hn h₂.toGrown
  label := h₂.label.trans h₁.label
  first k b c hk hk' hcb hc := by
    by_cases hk₁ : inode₁.direct_blocks k = -1
    · by_cases hc₁ : v₁.super.datablock_freelist c = DATA_BLOCK_FREE
      · exact h₂.first k b c hk hk₁ hcb hc₁
      · -- the block was taken meanwhile, for an earlier slot
        have hu := h₁.used c
        split_ifs at hu with hr
        · obtain ⟨l, hl⟩ := hr.1
          refine ⟨l, hok.slot_lt hk₁ (by omega), ?_⟩
          rw [h₂.slot l (by omega), hl]
        · exact absurd (hu.trans hc) hc₁
    · obtain ⟨l, hlk, hl⟩ := h₁.first k b c (by rw [← h₂.slot k hk₁, hk]) hk' hcb hc
      exact ⟨l, hlk, by rw [h₂.slot l (by omega), hl]⟩

/-! ## One chunk -/

section
variable {v v₁ : View} {i : Fin NUM_INODES} {inode inode₁ : inode_t} {k₀ : Fin MAX_FILE_SIZE}
  {b : Fin NUM_DATA_BLOCKS} {chunk rest : List UInt8}

/-- What `writeAlloc` leaves: slot `k₀`, where the file ends, has the block `b`, which is its own
or was free. -/
structure View.Alloced (v : View) (inode : inode_t) (v₁ : View) (inode₁ : inode_t)
    (k₀ : Fin MAX_FILE_SIZE) (b : Fin NUM_DATA_BLOCKS) : Prop where
  view : v₁ = v.markBlock b DATA_BLOCK_USED
  slot : inode₁ = { inode with direct_blocks := Function.update inode.direct_blocks k₀ (b : ℕ) }
  ends : inode.file_size / 64 = (k₀ : ℕ)
  origin : (inode.file_size % 64 ≠ 0 ∧ inode.direct_blocks k₀ = (b : ℕ)) ∨
    (inode.file_size % 64 = 0 ∧ inode.direct_blocks k₀ = -1 ∧
      v.super.datablock_freelist b = DATA_BLOCK_FREE)

theorem View.Alloced.slot_self (ha : v.Alloced inode v₁ inode₁ k₀ b) :
    inode₁.direct_blocks k₀ = (b : ℕ) := by
  rw [ha.slot]; exact Function.update_self ..

theorem View.Alloced.slot_of_ne (ha : v.Alloced inode v₁ inode₁ k₀ b) {k : Fin MAX_FILE_SIZE}
    (hk : k ≠ k₀) : inode₁.direct_blocks k = inode.direct_blocks k := by
  rw [ha.slot]; exact Function.update_of_ne hk ..

theorem View.Alloced.file_size (ha : v.Alloced inode v₁ inode₁ k₀ b) :
    inode₁.file_size = inode.file_size := by rw [ha.slot]

theorem View.Alloced.refs (ha : v.Alloced inode v₁ inode₁ k₀ b) {x : ℕ} :
    inode₁.Refs x ↔ x = b ∨ inode.Refs x := by
  constructor
  · rintro ⟨k, hk⟩
    by_cases hk₀ : k = k₀
    · subst hk₀
      rw [ha.slot_self] at hk
      exact Or.inl (by omega)
    · exact Or.inr ⟨k, by rw [← ha.slot_of_ne hk₀, hk]⟩
  · rintro (rfl | ⟨k, hk⟩)
    · exact ⟨k₀, ha.slot_self⟩
    · by_cases hk₀ : k = k₀
      · subst hk₀
        rcases ha.origin with ⟨-, h⟩ | ⟨-, h, -⟩
        · exact ⟨k, by rw [ha.slot_self, ← h, hk]⟩
        · omega
      · exact ⟨k, by rw [ha.slot_of_ne hk₀, hk]⟩

variable (ho : v.Owns i inode) (ha : v.Alloced inode v₁ inode₁ k₀ b)
include ho ha

/-- No other slot refers to the block. -/
theorem View.Alloced.ne_of_ne {k : Fin MAX_FILE_SIZE} (hk : k ≠ k₀) :
    inode.direct_blocks k ≠ (b : ℕ) := by
  intro he
  rcases ha.origin with ⟨-, h⟩ | ⟨-, -, h⟩
  · exact hk (ho.ok.inj k k₀ (by omega) (by rw [he, h]))
  · exact free_ne_used (h.symm.trans (ho.ok.used_of_refs ⟨k, he⟩))

/-- No other inode refers to the block. -/
theorem View.Alloced.not_refs {j : Fin NUM_INODES} (hj : j ≠ i) : ¬ (v.inode j).Refs b := by
  intro hr
  rcases ha.origin with ⟨-, h⟩ | ⟨-, -, h⟩
  · exact ho.apart j hj b ⟨k₀, h⟩ hr
  · exact free_ne_used (h.symm.trans (ho.used j hj b hr))

/-- The block is used from now on. -/
theorem View.Alloced.freelist (data : List UInt8) (c : Fin NUM_DATA_BLOCKS) :
    (v₁.putBlock b data).super.datablock_freelist c =
      if inode₁.Refs c ∧ ¬ inode.Refs c then DATA_BLOCK_USED else v.super.datablock_freelist c := by
  simp only [ha.view, View.putBlock_super, View.markBlock_super_datablock_freelist, ha.refs]
  by_cases hcb : c = b
  · subst hcb
    rw [Function.update_self]
    by_cases hr : inode.Refs c
    · rw [if_neg fun h => h.2 hr, ho.ok.used_of_refs hr]
    · rw [if_pos ⟨Or.inl rfl, hr⟩]
  · have : (c : ℕ) ≠ b := fun he => hcb (Fin.ext he)
    rw [Function.update_of_ne hcb, if_neg (by rintro ⟨h | h, h'⟩; exacts [this h, h' h])]

variable (hc : 0 < chunk.length)
  (hl : (inode.file_size % 64).toNat + chunk.length + rest.length = 64)
include hc hl

/-- The record after a chunk is well formed. -/
theorem View.Alloced.owns :
    (v₁.putBlock b ((v₁.block b).take (inode.file_size % 64).toNat ++ chunk ++ rest)).Owns i
      { inode₁ with file_size := inode₁.file_size + chunk.length } := by
  have h0 := ho.ok.size_nonneg
  have hend := ha.ends
  have hk₀ : (k₀ : ℕ) < 4 := k₀.2
  have hfs := ha.file_size
  have hview := ha.view
  refine ⟨?_, ⟨?_, ?_, fun k => ?_, fun k hk => ?_, fun k l hk hkl => ?_⟩, fun j hj c hr => ?_,
    fun j hj c hr hr' => ?_⟩
  · have := ho.ready
    simp only [View.Ready, hview, View.putBlock_size, View.markBlock_size] at this ⊢
    omega
  · simp only; omega
  · simp only; omega
  · -- the slots below the new size are those below the old one and `k₀`
    simp only
    by_cases hk : k = k₀
    · subst hk
      rw [ha.slot_self]
      omega
    · rw [ha.slot_of_ne hk, ho.ok.slot k]
      have : (k : ℕ) ≠ k₀ := fun he => hk (Fin.ext he)
      omega
  · simp only at hk ⊢
    by_cases hkk : k = k₀
    · subst hkk
      refine ⟨b, ha.slot_self, ?_, ?_⟩
      · simp [hview]
      · simp [View.Stored]
    · rw [ha.slot_of_ne hkk] at hk ⊢
      obtain ⟨c, hc', hu, hst⟩ := ho.ok.block k hk
      refine ⟨c, hc', ?_, ?_⟩
      · have : c ≠ b := by rintro rfl; exact ha.ne_of_ne ho hkk hc'
        simpa [hview, this] using hu
      · simp only [View.Stored, hview, View.putBlock_size, View.markBlock_size] at hst ⊢
        omega
  · simp only at hk hkl
    by_cases hkk : k = k₀ <;> by_cases hll : l = k₀
    · rw [hkk, hll]
    · rw [hkk, ha.slot_self, ha.slot_of_ne hll] at hkl
      exact absurd hkl.symm (ha.ne_of_ne ho hll)
    · rw [hll, ha.slot_self, ha.slot_of_ne hkk] at hkl
      exact absurd hkl (ha.ne_of_ne ho hkk)
    · rw [ha.slot_of_ne hkk] at hk hkl
      rw [ha.slot_of_ne hll] at hkl
      exact ho.ok.inj k l hk hkl
  · have hr' : (v.inode j).Refs c := by rw [hview] at hr; exact hr
    have hne : c ≠ b := by rintro rfl; exact ha.not_refs ho hj hr'
    simpa [hview, hne] using ho.used j hj c hr'
  · have hr'' : (v.inode j).Refs c := by rw [hview] at hr'; exact hr'
    rcases (ha.refs (x := c)).1 hr with rfl | h
    · exact ha.not_refs ho hj hr''
    · exact ho.apart j hj c h hr''

section
variable (hb : (v.block b).length = 64)
include hb

/-- The bytes in front of the chunk are those that were there. -/
theorem View.Alloced.byteAt_front {p : ℕ} (hp : p < inode.file_size) :
    (v₁.putBlock b ((v₁.block b).take (inode.file_size % 64).toNat ++ chunk ++ rest)).byteAt
      inode₁ p = v.byteAt inode p := by
  have h0 := ho.ok.size_nonneg
  have hend := ha.ends
  have hblock : v₁.block = v.block := by rw [ha.view]; rfl
  have htake : ((v.block b).take (inode.file_size % 64).toNat).length =
      (inode.file_size % 64).toNat := by rw [List.length_take, hb]; omega
  unfold View.byteAt
  by_cases hp' : p / 64 = k₀
  · -- the byte lies in the block that was there before
    rcases ha.origin with ⟨-, h⟩ | ⟨h, -⟩
    · rw [hp', inode_t.slot_fin, inode_t.slot_fin, ha.slot_self, h, Int.toNat_natCast,
        View.putBlock_block, Function.update_self, List.append_assoc, hblock,
        List.getD_append _ _ _ _ (by omega)]
      simp only [List.getD, List.getElem?_take]
      rw [if_pos (by omega)]
    · omega
  · obtain ⟨k, c, hk, hck, hs, -⟩ := ho.ok.block_of_lt hp
    have hkk : k ≠ k₀ := fun he => hp' (by rw [← hk, he])
    have hcb : (c : ℕ) ≠ b := fun he => ha.ne_of_ne ho hkk (by rw [hck, he])
    rw [← hk, inode_t.slot_fin, inode_t.slot_fin, ha.slot_of_ne hkk, hck, Int.toNat_natCast,
      View.putBlock_block, Function.update_of_ne hcb, hblock]

/-- The bytes of the chunk come next. -/
theorem View.Alloced.byteAt_chunk {k : ℕ} (hk : k < chunk.length) :
    (v₁.putBlock b ((v₁.block b).take (inode.file_size % 64).toNat ++ chunk ++ rest)).byteAt
      inode₁ (inode.file_size.toNat + k) = chunk.getD k 0 := by
  have h0 := ho.ok.size_nonneg
  have hend := ha.ends
  have hblock : v₁.block = v.block := by rw [ha.view]; rfl
  have htake : ((v.block b).take (inode.file_size % 64).toNat).length =
      (inode.file_size % 64).toNat := by rw [List.length_take, hb]; omega
  have hdiv : (inode.file_size.toNat + k) / 64 = k₀ := by omega
  have hmod : (inode.file_size.toNat + k) % 64 = (inode.file_size % 64).toNat + k := by omega
  unfold View.byteAt
  rw [hdiv, hmod, inode_t.slot_fin, ha.slot_self, Int.toNat_natCast, View.putBlock_block,
    Function.update_self, hblock, List.append_assoc,
    List.getD_append_right _ _ _ _ (by omega), htake, Nat.add_sub_cancel_left,
    List.getD_append _ _ _ _ hk]

/-- A chunk is appended. -/
theorem View.Alloced.grown :
    v.Grown inode (v₁.putBlock b ((v₁.block b).take (inode.file_size % 64).toNat ++ chunk ++ rest))
      { inode₁ with file_size := inode₁.file_size + chunk.length } chunk := by
  have h0 := ho.ok.size_nonneg
  have hview := ha.view
  refine ⟨?_, ?_, ?_, ?_, ?_, fun k hk => ?_, fun k c hk hk' => ?_, fun c => ha.freelist ho _ c,
    fun c hc' => ?_, fun p hp => ha.byteAt_front ho hc hl hb hp,
    fun k hk => ha.byteAt_chunk ho hc hl hb hk, ?_⟩
  · rw [hview]; rfl
  · rw [hview]; rfl
  · rw [hview]; rfl
  · rw [ha.slot]; exact ⟨rfl, rfl⟩
  · simp only [ha.file_size]
  · simp only
    by_cases hkk : k = k₀
    · subst hkk
      rcases ha.origin with ⟨-, h⟩ | ⟨-, h, -⟩
      · rw [ha.slot_self, h]
      · exact absurd h hk
    · exact ha.slot_of_ne hkk
  · simp only at hk
    by_cases hkk : k = k₀
    · subst hkk
      have : c = b := Fin.ext (by rw [ha.slot_self] at hk; omega)
      rcases ha.origin with ⟨-, h⟩ | ⟨-, -, h⟩
      · omega
      · rw [this, h]
    · rw [ha.slot_of_ne hkk] at hk
      omega
  · have hne : c ≠ b := by
      rintro rfl
      exact hc' (ha.refs.2 (Or.inl rfl))
    rw [View.putBlock_block, Function.update_of_ne hne, hview]
    rfl
  · rw [hview, View.putBlock_size]
    exact le_max_left _ _

/-- A chunk is appended, to the first free block if it needs one. -/
theorem View.Alloced.filled (hfirst : inode.direct_blocks k₀ = -1 →
      ∀ c < b, v.super.datablock_freelist c ≠ DATA_BLOCK_FREE) :
    v.Filled inode (v₁.putBlock b ((v₁.block b).take (inode.file_size % 64).toNat ++ chunk ++ rest))
      { inode₁ with file_size := inode₁.file_size + chunk.length } chunk where
  toGrown := ha.grown ho hc hl hb
  label := by rw [ha.view]; rfl
  first k b' c hk hk' hcb hfree := by
    simp only at hk
    by_cases hkk : k = k₀
    · subst hkk
      have : b' = b := Fin.ext (by rw [ha.slot_self] at hk; omega)
      rw [this] at hcb
      exact absurd hfree (hfirst hk' c hcb)
    · rw [ha.slot_of_ne hkk] at hk
      omega

end

end

/-! ## The loop -/

section
variable {s : Sys} {E : Fault → Prop}

/-- Getting the block for the next chunk. -/
theorem wp_writeAlloc {i : Fin NUM_INODES} {inode : inode_t} (ho : s.view.Owns i inode)
    {Q : Option inode_t → Sys → Prop}
    (hfull : inode.file_size % 64 = 0 →
      (∀ b, s.view.super.datablock_freelist b ≠ DATA_BLOCK_FREE) → Q none s)
    (hE : inode.file_size = 256 → (∃ b, s.view.super.datablock_freelist b = DATA_BLOCK_FREE) →
      E .outOfBounds)
    (hsome : ∀ s₁ inode₁ k₀ b, s.view.Alloced inode s₁.view inode₁ k₀ b →
      (inode.direct_blocks k₀ = -1 → ∀ c < b, s.view.super.datablock_freelist c ≠ DATA_BLOCK_FREE) →
      Q (some inode₁) s₁) :
    wp (writeAlloc inode) s E Q := by
  have h0 := ho.ok.size_nonneg
  have h256 := ho.ok.size_le
  have htdiv := (tdiv_tmod_of_nonneg h0 64).1
  have htmod := (tdiv_tmod_of_nonneg h0 64).2
  simp only [writeAlloc, BLOCKSIZE, Nat.cast_ofNat, htdiv, htmod]
  refine wp_ite.2 ⟨fun hw => ?_, fun hw => ?_⟩
  · rw [wp_bind]
    refine wp_allocDataBlock ho.ready (fun hn => ?_) fun b s₁ hb hlt hs₁ => ?_
    · rw [if_pos rfl]
      exact hfull hw hn
    rw [if_neg (by omega), wp_bind]
    by_cases hlast : inode.file_size = 256
    · rw [index, dif_neg (by simp only [hlast, MAX_FILE_SIZE]; omega)]
      exact hE hlast ⟨b, hb⟩
    · have hk : (inode.file_size / 64).toNat < MAX_FILE_SIZE := by
        simp only [MAX_FILE_SIZE]; omega
      refine wp_index ⟨_, hk⟩ (by simp only; omega)
        (hsome s₁ _ ⟨_, hk⟩ b ⟨hs₁, rfl, ?_, ?_⟩ fun _ => hlt)
      · simp only; omega
      · refine Or.inr ⟨hw, ?_, hb⟩
        by_contra hne
        have := (ho.ok.slot _).1 hne
        simp only at this
        omega
  · have hk : (inode.file_size / 64).toNat < MAX_FILE_SIZE := by simp only [MAX_FILE_SIZE]; omega
    obtain ⟨b, hb, hu, -⟩ := ho.ok.block ⟨_, hk⟩ ((ho.ok.slot _).2 (by simp only; omega))
    refine hsome s inode ⟨_, hk⟩ b ⟨?_, ?_, by simp only; omega, Or.inl ⟨hw, hb⟩⟩
      fun hno => absurd (hb.symm.trans hno) (by omega)
    · simp only [View.markBlock, ← hu, Function.update_eq_self]
    · simp only [← hb, Function.update_eq_self]

/-- The accesses do what those of the source do where they should, and stop where those do. -/
structure Access.Lawful (A : Access) : Prop where
  readInode : ∀ i : Fin NUM_INODES, A.readInode (i : ℕ) = simplefs_readInode (i : ℕ)
  writeInode : ∀ (i : Fin NUM_INODES) (inode : inode_t),
    A.writeInode (i : ℕ) inode = simplefs_writeInode (i : ℕ) inode
  slot : ∀ {s : Sys} {E : Fault → Prop} {Q : ℤ → Sys → Prop} {inode : inode_t}
    {k : Fin MAX_FILE_SIZE} {b : Fin NUM_DATA_BLOCKS} {idx : ℤ}, idx = (k : ℕ) → s.view.Ready →
    inode.direct_blocks k = (b : ℕ) → s.view.super.datablock_freelist b = DATA_BLOCK_USED →
    Q (b : ℕ) s → wp (A.slot inode idx) s E Q
  slot_out : ∀ {s : Sys} {inode : inode_t} {idx : ℤ}, ¬ (0 ≤ idx ∧ idx < MAX_FILE_SIZE) →
    Faults (A.slot inode idx) s .outOfBounds

theorem Access.plain_lawful : Access.plain.Lawful where
  readInode _ := rfl
  writeInode _ _ := rfl
  slot hidx _ hb _ hQ := by
    simp only [Access.plain, wp_bind]
    refine wp_index _ hidx ?_
    rwa [hb]
  slot_out h := by
    simp only [Access.plain]
    rw [index, dif_neg h]
    rfl

theorem Access.checkSlots_lawful : Access.checkSlots.Lawful where
  readInode _ := rfl
  writeInode _ _ := rfl
  slot hidx hs hb hu hQ := by
    simp only [Access.checkSlots, wp_bind]
    refine wp_index _ hidx (wp_readSuperBlock (by unfold View.Ready at hs; omega) ?_)
    refine wp_assert ⟨_, hb, hu⟩ ?_
    rwa [hb]
  slot_out h := by
    simp only [Access.checkSlots]
    rw [index, dif_neg h]
    rfl

namespace Access.Lawful
variable {A : Access} (hA : A.Lawful)
include hA

/-- Writing the chunk behind what the block holds already. -/
theorem wp_writeChunk {v : View} {i : Fin NUM_INODES} {inode inode₁ : inode_t}
    {k₀ : Fin MAX_FILE_SIZE} {b : Fin NUM_DATA_BLOCKS} (ho : v.Owns i inode)
    (ha : v.Alloced inode s.view inode₁ k₀ b) {chunk : List UInt8}
    (hl : (inode.file_size % 64).toNat + chunk.length ≤ 64) {Q : Unit → Sys → Prop}
    (hQ : ∀ s' rest, (inode.file_size % 64).toNat + chunk.length + rest.length = 64 →
      s'.view = s.view.putBlock b
        ((s.view.block b).take (inode.file_size % 64).toNat ++ chunk ++ rest) → Q () s') :
    wp (A.writeChunk inode₁ chunk) s E Q := by
  have h0 := ho.ok.size_nonneg
  have hfs := ha.file_size
  have hend := ha.ends
  have htdiv := (tdiv_tmod_of_nonneg h0 64).1
  have htmod := (tdiv_tmod_of_nonneg h0 64).2
  have hlen := length_block s b
  have hb : (b : ℕ) < 30 := b.2
  have htake : ((s.view.block b).take (inode.file_size % 64).toNat).length =
      (inode.file_size % 64).toNat := by rw [List.length_take, hlen]; omega
  -- the write that follows, whether or not there is something to keep
  have hwrite : wp (simplefs_writeDataBlock (b : ℕ)
      ((s.view.block b).take (inode.file_size % 64).toNat ++ chunk)) s E Q := by
    refine wp_writeDataBlock hb (by rw [List.length_append, htake]; exact hl)
      fun s' rest hr hs' => hQ s' rest ?_ ?_
    · rwa [List.length_append, htake] at hr
    · rw [hs', List.append_assoc]; rfl
  have hused : s.view.super.datablock_freelist b = DATA_BLOCK_USED := by simp [ha.view]
  have hready : s.view.Ready := by rw [ha.view]; exact ho.ready
  simp only [Access.writeChunk, BLOCKSIZE, Nat.cast_ofNat, hfs, htdiv, htmod, wp_bind]
  refine hA.slot hend hready ha.slot_self hused (wp_assert (by rw [hfs, htmod]; omega) ?_)
  refine wp_ite.2 ⟨fun hw => ?_, fun hw => ?_⟩
  · rw [wp_bind]
    refine wp_readDataBlock hb ?_ hwrite
    rcases ha.origin with ⟨-, hbk⟩ | ⟨hz, -⟩
    · obtain ⟨c, hc, -, hst⟩ := ho.ok.block k₀ (by omega)
      have : (c : ℕ) = b := by omega
      rw [ha.view]
      rwa [this] at hst
    · omega
  · have hz : (inode.file_size % 64).toNat = 0 := by omega
    rw [hz, List.take_zero] at hwrite
    exact hwrite

omit hA in
/-- With nothing left to copy, the loop ends. -/
theorem wp_writeLoop_done {s : Sys} {inode : inode_t} {buf : ℕ → UInt8} {nbytes : ℤ} {c fuel : ℕ}
    (hge : nbytes ≤ c) {Q : Option inode_t → Sys → Prop}
    (hok : s.view.Filled inode s.view inode
      ((List.range (nbytes - c).toNat).map fun k => buf (c + k)) → Q (some inode) s) :
    wp (A.writeLoop buf nbytes fuel inode c) s E Q := by
  have hn : (nbytes - c).toNat = 0 := by omega
  rw [hn] at hok
  cases fuel <;> rw [Access.writeLoop, if_neg (by omega)] <;> exact hok (.refl _ _)

/-- What a run of the loop may end with: it appended the bytes still to come, or it ran out of
data blocks after some of them. -/
theorem wp_writeLoop {i : Fin NUM_INODES} {buf : ℕ → UInt8} {nbytes : ℤ} (fuel : ℕ) :
    ∀ {s : Sys} {inode : inode_t} {c : ℕ}, s.view.Owns i inode → nbytes ≤ c + fuel →
    ∀ {Q : Option inode_t → Sys → Prop},
    (∀ (s' : Sys) inode' data, s.view.Filled inode s'.view inode' data → s'.view.Owns i inode' →
      inode'.file_size = 256 → (data.length : ℤ) < nbytes - c →
      (∃ b, s'.view.super.datablock_freelist b = DATA_BLOCK_FREE) → E .outOfBounds) →
    (∀ s' inode' data, s.view.Filled inode s'.view inode' data → s'.view.Owns i inode' →
      inode'.file_size % 64 = 0 → (data.length : ℤ) < nbytes - c →
      (∀ b, s'.view.super.datablock_freelist b ≠ DATA_BLOCK_FREE) → Q none s') →
    (∀ s' inode', s.view.Filled inode s'.view inode'
      ((List.range (nbytes - c).toNat).map fun k => buf (c + k)) → s'.view.Owns i inode' →
      Q (some inode') s') →
    wp (A.writeLoop buf nbytes fuel inode c) s E Q := by
  induction fuel with
  | zero =>
    intro s inode c ho hfuel Q _ _ hok
    exact wp_writeLoop_done (by omega) fun hf => hok s inode hf ho
  | succ fuel ih =>
    intro s inode c ho hfuel Q hE hfull hok
    have h0 := ho.ok.size_nonneg
    have h256 := ho.ok.size_le
    by_cases hlt : (c : ℤ) < nbytes
    · rw [Access.writeLoop, if_pos hlt]
      simp only [wp_bind]
      refine wp_writeAlloc ho (fun hz hn => ?_) (fun h hb => ?_) fun s₁ inode₁ k₀ b ha hfirst => ?_
      · exact hfull s inode [] (.refl _ _) ho hz (by simp; omega) hn
      · exact hE s inode [] (.refl _ _) ho h (by simp; omega) hb
      have hfs := ha.file_size
      have htmod := (tdiv_tmod_of_nonneg h0 64).2
      obtain ⟨n, hn⟩ : ∃ n : ℕ, min (64 - inode.file_size % 64) (nbytes - c) = n :=
        ⟨_, (Int.toNat_of_nonneg (by omega)).symm⟩
      have hsize : min ((BLOCKSIZE : ℤ) - inode₁.file_size.tmod BLOCKSIZE) (nbytes - c) = n := by
        rw [hfs]
        simp only [BLOCKSIZE, Nat.cast_ofNat, htmod, hn]
      have hchunk : (List.ofFn fun k : Fin (min ((BLOCKSIZE : ℤ) - inode₁.file_size.tmod BLOCKSIZE)
          (nbytes - c)).toNat => buf ((c : ℤ).toNat + k)) =
          (List.range n).map fun k => buf (c + k) := by
        refine List.ext_getElem (by simp only [List.length_ofFn, List.length_map,
          List.length_range, hsize, Int.toNat_natCast]) fun k _ _ => ?_
        simp
      have hlen : ((List.range n).map fun k => buf (c + k)).length = n := by simp
      dsimp only
      rw [hchunk, hsize, wp_bind]
      refine hA.wp_writeChunk ho ha (by omega) fun s' rest hl hs' => ?_
      have hg := ha.filled ho (by omega) hl (length_block s b) hfirst
      have ho' := ha.owns ho (by omega) hl
      rw [← hs', hlen] at hg ho'
      rw [← Nat.cast_add]
      refine ih ho' (by push_cast; omega) (fun s₂ inode₂ data hg₂ ho₂ hz hd hfree => ?_)
        (fun s₂ inode₂ data hg₂ ho₂ hz hd hnone => ?_) (fun s₂ inode₂ hg₂ ho₂ => ?_)
      · refine hE s₂ inode₂ _ (hg.trans h0 ho'.ok hg₂) ho₂ hz ?_ hfree
        rw [List.length_append, hlen]
        push_cast at hd ⊢
        omega
      · refine hfull s₂ inode₂ _ (hg.trans h0 ho'.ok hg₂) ho₂ hz ?_ hnone
        rw [List.length_append, hlen]
        push_cast at hd ⊢
        omega
      · refine hok s₂ inode₂ ?_ ho₂
        have := hg.trans h0 ho'.ok hg₂
        have hsum : (nbytes - c).toNat = n + (nbytes - (c + n : ℕ)).toNat := by push_cast; omega
        rw [hsum, List.range_add, List.map_append, List.map_map]
        convert this using 4
        simp [Nat.add_assoc]
    · exact wp_writeLoop_done (not_lt.1 hlt) fun hf => hok s inode hf ho

end Access.Lawful

/-- A record that the loop leaves can be stored. -/
theorem View.Owns.inRange {v : View} {i : Fin NUM_INODES} {inode : inode_t} (ho : v.Owns i inode)
    (hs : InInt inode.status) : inode.InRange where
  status := hs
  file_size := by
    have := ho.ok.size_nonneg
    have := ho.ok.size_le
    unfold InInt; omega
  direct_blocks k := by
    unfold InInt
    by_cases hk : inode.direct_blocks k = -1
    · rw [hk]; omega
    · obtain ⟨b, hb, -⟩ := ho.ok.block k hk
      have : (b : ℕ) < 30 := b.2
      omega

theorem Access.Lawful.wp_write {A : Access} (hA : A.Lawful) {h : Fin MAX_OPEN_FILES}
    {i : Fin NUM_INODES}
    (hi : (s.view.handle h).inode_number = (i : ℕ)) (ho : s.view.Owns i (s.view.inode i))
    {buf : ℕ → UInt8} {n : ℤ} {Q : ℤ → Sys → Prop}
    (hbig : 256 < int32 ((s.view.handle h).offset + n) → Q (-1) s)
    (hE : int32 ((s.view.handle h).offset + n) ≤ 256 → ∀ (s' : Sys) inode' data,
      s.view.Filled (s.view.inode i) s'.view inode' data → s'.view.Owns i inode' →
      inode'.file_size = 256 → (data.length : ℤ) < n →
      (∃ b, s'.view.super.datablock_freelist b = DATA_BLOCK_FREE) → E .outOfBounds)
    (hfull : int32 ((s.view.handle h).offset + n) ≤ 256 → ∀ (s' : Sys) inode' data,
      s.view.Filled (s.view.inode i) s'.view inode' data → s'.view.Owns i inode' →
      inode'.file_size % 64 = 0 → (data.length : ℤ) < n →
      (∀ b, s'.view.super.datablock_freelist b ≠ DATA_BLOCK_FREE) → Q (-1) s')
    (hok : int32 ((s.view.handle h).offset + n) ≤ 256 → ∀ (s₁ s' : Sys) inode',
      s.view.Filled (s.view.inode i) s₁.view inode' ((List.range n.toNat).map buf) →
      s₁.view.Owns i inode' → s'.view = s₁.view.setInode i inode' → Q 0 s') :
    wp (A.write (h : ℕ) buf n) s E Q := by
  simp only [Access.write, wp_bind]
  refine wp_handleAt h ?_
  rw [hi, hA.readInode]
  refine wp_readInode ho.ready i (wp_ite.2 ⟨fun hlt => hbig hlt, fun hle => ?_⟩)
  have hle' : int32 ((s.view.handle h).offset + n) ≤ 256 := not_lt.1 hle
  rw [wp_bind, ← Nat.cast_zero]
  refine hA.wp_writeLoop n.toNat ho (by push_cast; omega) (fun s' inode' data hg ho' hz hd hb => ?_)
    (fun s' inode' data hg ho' hz hd hn => ?_) fun s₁ inode' hg ho' => ?_
  · exact hE hle' s' inode' data hg ho' hz (by push_cast at hd; omega) hb
  · exact hfull hle' s' inode' data hg ho' hz (by push_cast at hd; omega) hn
  · simp only [wp_bind, hA.writeInode]
    refine wp_writeInode ho'.ready i (ho'.inRange ?_) fun s' hs' => ?_
    · rw [hg.name.1]
      exact (inode_inRange s i).status
    · refine hok hle' s₁ s' inode' ?_ ho' hs'
      simpa using hg

theorem wp_write {h : Fin MAX_OPEN_FILES} {i : Fin NUM_INODES}
    (hi : (s.view.handle h).inode_number = (i : ℕ)) (ho : s.view.Owns i (s.view.inode i))
    {buf : ℕ → UInt8} {n : ℤ} {Q : ℤ → Sys → Prop}
    (hbig : 256 < int32 ((s.view.handle h).offset + n) → Q (-1) s)
    (hE : int32 ((s.view.handle h).offset + n) ≤ 256 → 256 < (s.view.inode i).file_size + n →
      E .outOfBounds)
    (hfull : int32 ((s.view.handle h).offset + n) ≤ 256 → ∀ s' inode' data,
      s.view.Grown (s.view.inode i) s'.view inode' data → s'.view.Owns i inode' →
      inode'.file_size % 64 = 0 → (data.length : ℤ) < n →
      (∀ b, s'.view.super.datablock_freelist b ≠ DATA_BLOCK_FREE) → Q (-1) s')
    (hok : int32 ((s.view.handle h).offset + n) ≤ 256 → ∀ (s₁ s' : Sys) inode',
      s.view.Grown (s.view.inode i) s₁.view inode' ((List.range n.toNat).map buf) →
      s₁.view.Owns i inode' → s'.view = s₁.view.setInode i inode' → Q 0 s') :
    wp (simplefs_write (h : ℕ) buf n) s E Q := by
  rw [← Access.plain_write]
  refine Access.plain_lawful.wp_write hi ho hbig (fun hle s' inode' data hg _ hfs hd _ => ?_)
    (fun hle s' inode' data hg => hfull hle s' inode' data hg.toGrown)
    fun hle s₁ s' inode' hg => hok hle s₁ s' inode' hg.toGrown
  have := hg.size
  exact hE hle (by omega)

end

/-! ## Reading -/

section
variable {s : Sys} {E : Fault → Prop}

theorem Access.Lawful.wp_readLoop {A : Access} (hA : A.Lawful) (hs : s.view.Ready)
    {inode : inode_t} (hok : s.view.InodeOk inode) {nbytes : ℤ} (fuel : ℕ) :
    ∀ {o c : ℕ}, nbytes ≤ c + fuel → o + (nbytes - c) ≤ inode.file_size →
    ∀ {Q : List UInt8 → Sys → Prop},
    Q ((List.range (nbytes - c).toNat).map fun k => s.view.byteAt inode (o + k)) s →
    wp (A.readLoop inode nbytes fuel o c) s E Q := by
  induction fuel with
  | zero =>
    intro o c hfuel hle Q hQ
    have hn : (nbytes - c).toNat = 0 := by omega
    rw [hn] at hQ
    rw [Access.readLoop, if_neg (by omega)]
    exact hQ
  | succ fuel ih =>
    intro o c hfuel hle Q hQ
    rw [Access.readLoop]
    by_cases hlt : (c : ℤ) < nbytes
    · rw [if_pos hlt]
      have h256 := hok.size_le
      obtain ⟨k, b, hk, hb, hslot, hu, hst⟩ := hok.block_of_lt (show (o : ℤ) < _ by omega)
      have hdiv := (tdiv_tmod_of_nonneg (Int.natCast_nonneg o) 64).1
      have hmod := (tdiv_tmod_of_nonneg (Int.natCast_nonneg o) 64).2
      obtain ⟨n, hn⟩ : ∃ n : ℕ, min (64 - (o : ℤ) % 64) (nbytes - c) = n :=
        ⟨_, (Int.toNat_of_nonneg (by omega)).symm⟩
      have hb30 : (b : ℕ) < 30 := b.2
      -- the chunk is the part of the block that the bytes `o`, ..., `o + n - 1` of the file are in
      have hchunk : ((s.view.block b).drop (o % 64)).take n =
          (List.range n).map fun k => s.view.byteAt inode (o + k) := by
        have hlen := length_block s b
        refine List.ext_getElem (by simp [hlen]; omega) fun j h₁ h₂ => ?_
        have hj : j < n := by simpa using h₂
        have h₃ : (o + j) / 64 = o / 64 := by omega
        have h₄ : (o + j) % 64 = o % 64 + j := by omega
        simp only [List.getElem_take, List.getElem_drop, List.getElem_map, List.getElem_range,
          View.byteAt, h₃, h₄, hslot, Int.toNat_natCast]
        rw [List.getD_eq_getElem _ _ (by omega)]
      simp only [BLOCKSIZE, Nat.cast_ofNat, hdiv, hmod, hn, wp_bind]
      refine hA.slot (by rw [hk]; norm_cast) hs hb hu ?_
      refine wp_readDataBlock hb30 hst (wp_assert (by omega) ?_)
      have ho : ((o : ℤ) % 64).toNat = o % 64 := by omega
      rw [ho, Int.toNat_natCast, hchunk, ← Nat.cast_add, ← Nat.cast_add]
      refine ih (by push_cast; omega) (by push_cast; omega) ?_
      have hsum : (nbytes - c).toNat = n + (nbytes - (c + n : ℕ)).toNat := by push_cast; omega
      rw [hsum, List.range_add, List.map_append, List.map_map] at hQ
      simpa [Function.comp_def, Nat.add_assoc] using hQ
    · have hn : (nbytes - c).toNat = 0 := by omega
      rw [hn] at hQ
      rw [if_neg hlt]
      exact hQ

theorem Access.Lawful.wp_read {A : Access} (hA : A.Lawful) {h : Fin MAX_OPEN_FILES}
    {i : Fin NUM_INODES} (hs : s.view.Ready)
    (hi : (s.view.handle h).inode_number = (i : ℕ)) (hok : s.view.InodeOk (s.view.inode i))
    (ho : 0 ≤ (s.view.handle h).offset) {n : ℤ} (hint : InInt ((s.view.handle h).offset + n))
    {Q : ℤ × List UInt8 → Sys → Prop}
    (hbad : (s.view.inode i).file_size < (s.view.handle h).offset + n → Q (-1, []) s)
    (hgood : (s.view.handle h).offset + n ≤ (s.view.inode i).file_size →
      Q (0, (List.range n.toNat).map fun k =>
        s.view.byteAt (s.view.inode i) ((s.view.handle h).offset.toNat + k)) s) :
    wp (A.read (h : ℕ) n) s E Q := by
  simp only [Access.read, wp_bind]
  refine wp_handleAt h ?_
  rw [hi, hA.readInode, int32_eq hint]
  refine wp_readInode hs i (wp_ite.2 ⟨fun hlt => hbad hlt, fun hle => ?_⟩)
  have hle' : (s.view.handle h).offset + n ≤ (s.view.inode i).file_size := not_lt.1 hle
  obtain ⟨o, hoff⟩ := Int.eq_ofNat_of_zero_le ho
  rw [hoff] at hle' ⊢
  rw [wp_bind, ← Nat.cast_zero]
  refine hA.wp_readLoop hs hok n.toNat (by push_cast; omega) (by push_cast; omega) ?_
  have := hgood (by rw [hoff]; exact hle')
  rw [hoff, Int.toNat_natCast] at this
  simpa using this

theorem wp_read {h : Fin MAX_OPEN_FILES} {i : Fin NUM_INODES} (hs : s.view.Ready)
    (hi : (s.view.handle h).inode_number = (i : ℕ)) (hok : s.view.InodeOk (s.view.inode i))
    (ho : 0 ≤ (s.view.handle h).offset) {n : ℤ} (hint : InInt ((s.view.handle h).offset + n))
    {Q : ℤ × List UInt8 → Sys → Prop}
    (hbad : (s.view.inode i).file_size < (s.view.handle h).offset + n → Q (-1, []) s)
    (hgood : (s.view.handle h).offset + n ≤ (s.view.inode i).file_size →
      Q (0, (List.range n.toNat).map fun k =>
        s.view.byteAt (s.view.inode i) ((s.view.handle h).offset.toNat + k)) s) :
    wp (simplefs_read (h : ℕ) n) s E Q := by
  rw [← Access.plain_read]
  exact Access.plain_lawful.wp_read hs hi hok ho hint hbad hgood

/-! ## Reading changes nothing, whatever the arguments -/

theorem reads_readAt {pos : ℤ} {n : ℕ} : Reads (readAt pos n) :=
  Reads.assert.bind fun _ => Reads.get.bind fun _ => .pure _

theorem reads_readInode {inodenum : ℤ} : Reads (simplefs_readInode inodenum) :=
  Reads.assert.bind fun _ => reads_readAt.bind fun _ => Reads.assert.bind fun _ => .pure _

theorem reads_readDataBlock {blocknum : ℤ} : Reads (simplefs_readDataBlock blocknum) :=
  Reads.assert.bind fun _ => reads_readAt.bind fun _ => Reads.assert.bind fun _ => .pure _

theorem reads_readLoop {inode : inode_t} {nbytes : ℤ} (fuel : ℕ) :
    ∀ o c, Reads (readLoop inode nbytes fuel o c) := by
  induction fuel with
  | zero => exact fun _ _ => .ite (fun _ => .throw _) fun _ => .pure _
  | succ fuel ih =>
    intro o c
    rw [readLoop]
    refine .ite (fun _ => Reads.index.bind fun _ => ?_) fun _ => .pure _
    exact reads_readDataBlock.bind fun _ => Reads.assert.bind fun _ => (ih _ _).bind fun _ => .pure _

theorem reads_read {h n : ℤ} : Reads (simplefs_read h n) := by
  refine (Reads.index.bind fun _ => Reads.get.bind fun _ => .pure _).bind fun _ => ?_
  refine reads_readInode.bind fun _ => .ite (fun _ => .pure _) fun _ => ?_
  exact (reads_readLoop _ _ _).bind fun _ => .pure _

/-- A loop that is to read past the last block never gets there: it leaves `direct_blocks`. -/
theorem Access.Lawful.readLoop_past_end {A : Access} (hA : A.Lawful) {inode : inode_t} {nbytes : ℤ}
    (fuel : ℕ) : ∀ {s : Sys} {o c : ℤ}, 0 ≤ o ∧ o ≤ 256 → 256 - o < nbytes - c →
    wp (A.readLoop inode nbytes fuel o c) s (fun _ => True) fun _ _ => False := by
  induction fuel with
  | zero =>
    intro s o c ho hlt
    rw [Access.readLoop, if_pos (by omega)]
    trivial
  | succ fuel ih =>
    intro s o c ho hlt
    have hdiv := (tdiv_tmod_of_nonneg ho.1 64).1
    have hmod := (tdiv_tmod_of_nonneg ho.1 64).2
    rw [Access.readLoop, if_pos (by omega)]
    simp only [BLOCKSIZE, Nat.cast_ofNat, hdiv, hmod, wp_bind]
    by_cases hlast : o = 256
    · exact (hA.slot_out (by simp only [hlast, MAX_FILE_SIZE]; omega)).wp trivial
    · refine wp_true.imp fun _ _ _ => wp_true.imp fun _ _ _ => wp_true.imp fun _ _ _ => ?_
      exact (ih (by omega) (by omega)).imp fun _ _ h => h.elim

/-- Whatever the arguments, a read delivers nothing or a part of the file. -/
theorem wp_read_part {h : Fin MAX_OPEN_FILES} {i : Fin NUM_INODES} (hs : s.view.Ready)
    (hi : (s.view.handle h).inode_number = (i : ℕ)) (hok : s.view.InodeOk (s.view.inode i))
    (ho : 0 ≤ (s.view.handle h).offset ∧ (s.view.handle h).offset ≤ 256) {n : ℤ} :
    wp (simplefs_read (h : ℕ) n) s (fun _ => True) fun r _ => r.2 = [] ∨
      (s.view.handle h).offset + n ≤ (s.view.inode i).file_size ∧
      r.2 = ((s.view.content (s.view.inode i)).drop (s.view.handle h).offset.toNat).take n.toNat := by
  have h256 := hok.size_le
  by_cases hn : 0 < n
  · by_cases hle : (s.view.handle h).offset + n ≤ 256
    · refine wp_read hs hi hok ho.1 ⟨by omega, by omega⟩ (fun _ => Or.inl rfl) fun hle' => ?_
      refine Or.inr ⟨hle', (s.view.content_slice _ ?_).symm⟩
      push_cast
      omega
    · simp only [simplefs_read, wp_bind]
      refine wp_handleAt h ?_
      rw [hi]
      refine wp_readInode hs i (wp_ite.2 ⟨fun _ => Or.inl rfl, fun _ => ?_⟩)
      rw [wp_bind, ← Access.readLoop_eq (A := .plain) rfl]
      exact (Access.plain_lawful.readLoop_past_end _ ho (by omega)).imp fun _ _ h => h.elim
  · simp only [simplefs_read, wp_bind]
    refine wp_handleAt h ?_
    rw [hi]
    refine wp_readInode hs i (wp_ite.2 ⟨fun _ => Or.inl rfl, fun _ => ?_⟩)
    rw [Int.toNat_of_nonpos (not_lt.1 hn), readLoop, if_neg hn]
    exact Or.inl rfl

end

end Simplefs

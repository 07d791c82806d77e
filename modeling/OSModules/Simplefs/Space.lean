/-
  The free list of the data blocks as a budget: what a write takes from it, and exactly when a
  write succeeds, fails, or leaves `direct_blocks`.
-/
import OSModules.Simplefs.Closed

namespace Simplefs

open CInt Prog Runs

/-- The number of data blocks with the mark `c`. -/
def View.marks (v : View) (c : UInt8) : ℕ :=
  (Finset.univ.filter fun b => v.super.datablock_freelist b = c).card

/-- The number of data blocks of a file of `n` bytes, `n / 64` rounded up. -/
def blocksFor (n : ℤ) : ℤ := (n + 63) / 64

/-- The number of data blocks that the file of the inode could have: its own and the free ones. -/
def View.room (v : View) (inode : inode_t) : ℤ :=
  blocksFor inode.file_size + v.marks DATA_BLOCK_FREE

theorem View.marks_eq_zero {v : View} {c : UInt8} :
    v.marks c = 0 ↔ ∀ b, v.super.datablock_freelist b ≠ c := by
  simp [View.marks, Finset.filter_eq_empty_iff]

theorem View.marks_pos {v : View} {c : UInt8} :
    0 < v.marks c ↔ ∃ b, v.super.datablock_freelist b = c := by
  simp [View.marks, Finset.card_pos, Finset.filter_nonempty_iff]

/-- The blocks in `N` get the mark `c`. -/
theorem View.marks_add {v v' : View} {c : UInt8} {N : Finset (Fin NUM_DATA_BLOCKS)}
    (h : ∀ b, v'.super.datablock_freelist b = c ↔ b ∈ N ∨ v.super.datablock_freelist b = c)
    (hno : ∀ b ∈ N, v.super.datablock_freelist b ≠ c) : v'.marks c = v.marks c + N.card := by
  unfold View.marks
  rw [add_comm, ← Finset.card_union_of_disjoint]
  · congr 1
    ext b
    simp [h b]
  · refine Finset.disjoint_left.2 fun b hb hf => ?_
    exact hno b hb (Finset.mem_filter.1 hf).2

/-! ## What a file that grows takes -/

/-- The slots in use. -/
def inode_t.slots (inode : inode_t) : Finset (Fin MAX_FILE_SIZE) :=
  Finset.univ.filter fun k => inode.direct_blocks k ≠ -1

@[simp] theorem inode_t.mem_slots {inode : inode_t} {k : Fin MAX_FILE_SIZE} :
    k ∈ inode.slots ↔ inode.direct_blocks k ≠ -1 := by simp [inode_t.slots]

theorem View.InodeOk.card_slots {v : View} {inode : inode_t} (h : v.InodeOk inode) :
    (inode.slots.card : ℤ) = blocksFor inode.file_size := by
  have h0 := h.size_nonneg
  have h256 := h.size_le
  have hs (k : Fin MAX_FILE_SIZE) : inode.direct_blocks k ≠ -1 ↔ 64 * (k : ℕ) < inode.file_size :=
    h.slot k
  rw [inode_t.slots, Finset.card_filter]
  simp only [hs, Fin.sum_univ_four, blocksFor]
  simp only [MAX_FILE_SIZE, Fin.val_zero, Fin.val_one, Fin.val_two,
    show ((3 : Fin 4) : ℕ) = 3 from rfl]
  split_ifs <;> push_cast at * <;> omega

/-- The blocks that are in the record after and not in the one before. -/
def inode_t.newBlocks (inode inode' : inode_t) : Finset (Fin NUM_DATA_BLOCKS) :=
  Finset.univ.filter fun b => inode'.Refs b ∧ ¬ inode.Refs b

@[simp] theorem inode_t.mem_newBlocks {inode inode' : inode_t} {b : Fin NUM_DATA_BLOCKS} :
    b ∈ inode.newBlocks inode' ↔ inode'.Refs b ∧ ¬ inode.Refs b := by simp [inode_t.newBlocks]

namespace View.Grown
variable {v v' : View} {inode inode' : inode_t} {data : List UInt8}
  (hg : v.Grown inode v' inode' data)
include hg

theorem free_of_new {b : Fin NUM_DATA_BLOCKS} (hb : inode'.Refs b) (hno : ¬ inode.Refs b) :
    v.super.datablock_freelist b = DATA_BLOCK_FREE := by
  obtain ⟨k, hk⟩ := hb
  refine hg.fresh k b hk ?_
  by_contra hne
  exact hno ⟨k, by rw [← hg.slot k hne, hk]⟩

/-- Each new block came from the free list. -/
theorem marks_free : v.marks DATA_BLOCK_FREE =
    v'.marks DATA_BLOCK_FREE + (inode.newBlocks inode').card := by
  refine View.marks_add (fun b => ?_) fun b hb => ?_
  · rw [inode_t.mem_newBlocks, hg.used b]
    split_ifs with h
    · exact ⟨fun _ => Or.inl h, fun _ => hg.free_of_new h.1 h.2⟩
    · exact ⟨Or.inr, fun h' => h'.resolve_left h⟩
  · rw [inode_t.mem_newBlocks] at hb
    rw [hg.used b, if_pos hb]
    exact free_ne_used.symm

/-- Each new block is used from then on. -/
theorem marks_used : v'.marks DATA_BLOCK_USED =
    v.marks DATA_BLOCK_USED + (inode.newBlocks inode').card := by
  refine View.marks_add (fun b => ?_) fun b hb => ?_
  · rw [inode_t.mem_newBlocks, hg.used b]
    split_ifs with h
    · exact ⟨fun _ => Or.inl h, fun _ => rfl⟩
    · exact ⟨Or.inr, fun h' => h'.resolve_left h⟩
  · rw [inode_t.mem_newBlocks] at hb
    rw [hg.free_of_new hb.1 hb.2]
    exact free_ne_used

theorem slots_subset : inode.slots ⊆ inode'.slots := by
  intro k hk
  rw [inode_t.mem_slots] at hk ⊢
  rwa [hg.slot k hk]

variable (hok : v.InodeOk inode) (hok' : v'.InodeOk inode')
include hok hok'

/-- The new blocks are in the new slots. -/
theorem card_newBlocks : ((inode.newBlocks inode').card : ℤ) =
    blocksFor inode'.file_size - blocksFor inode.file_size := by
  have hcard : (inode.newBlocks inode').card = (inode'.slots \ inode.slots).card := by
    refine (Finset.card_image_of_injective _ (f := fun b : Fin NUM_DATA_BLOCKS => ((b : ℕ) : ℤ))
      fun b c h => Fin.ext (by simpa using h)).symm.trans ?_
    rw [← Finset.card_image_of_injOn (f := inode'.direct_blocks)]
    · congr 1
      ext x
      simp only [Finset.mem_image, inode_t.mem_newBlocks, Finset.mem_sdiff, inode_t.mem_slots,
        not_not]
      constructor
      · rintro ⟨b, ⟨⟨k, hk⟩, hno⟩, rfl⟩
        refine ⟨k, ⟨by omega, ?_⟩, hk⟩
        by_contra hne
        exact hno ⟨k, by rw [← hg.slot k hne, hk]⟩
      · rintro ⟨k, ⟨hk, hno⟩, rfl⟩
        obtain ⟨b, hb, -⟩ := hok'.block k hk
        refine ⟨b, ⟨⟨k, hb⟩, fun hr => ?_⟩, hb.symm⟩
        exact free_ne_used ((hg.fresh k b hb hno).symm.trans (hok.used_of_refs hr))
    · intro k hk l _ hkl
      simp only [Finset.coe_sdiff, Set.mem_sdiff, Finset.mem_coe, inode_t.mem_slots] at hk
      exact hok'.inj k l hk.1 hkl
  rw [hcard, ← hok.card_slots, ← hok'.card_slots,
    ← Finset.card_sdiff_add_card_eq_card hg.slots_subset]
  push_cast
  ring

/-- What the file takes is gone from the free list. -/
theorem room_eq : v'.room inode' = v.room inode := by
  have hfree := hg.marks_free
  have hnew := hg.card_newBlocks hok hok'
  simp only [View.room, hfree]
  push_cast
  omega

end View.Grown

/-! ## The outcomes of a write -/

section
variable {s : Sys} {E : Fault → Prop}

/-- There is room for `n` more bytes, in the slots of the inode and on the disk. -/
def View.Fits (v : View) (inode : inode_t) (n : ℤ) : Prop :=
  inode.file_size + n ≤ 256 ∧ blocksFor (inode.file_size + n) ≤ v.room inode

/-- There is room for `n` more bytes on the disk only: the loop gets a block for a fifth slot. -/
def View.Overruns (v : View) (inode : inode_t) (n : ℤ) : Prop :=
  256 < inode.file_size + n ∧ 5 ≤ v.room inode

theorem View.Fits.not_overruns {v : View} {inode : inode_t} {n : ℤ} (h : v.Fits inode n) :
    ¬ v.Overruns inode n := fun h' => absurd h.1 (not_le.2 h'.1)

/-- A write runs out of slots, runs out of blocks, or appends its bytes. -/
theorem Access.Lawful.wp_write_room {A : Access} (hA : A.Lawful) {h : Fin MAX_OPEN_FILES}
    {i : Fin NUM_INODES} (hi : s.view.OpenOn h i) (ho : s.view.Owns i (s.view.inode i))
    (buf : ℕ → UInt8) {n : ℤ} {Q : ℤ → Sys → Prop}
    (hbig : 256 < int32 ((s.view.handle h).offset + n) → Q (-1) s)
    (hE : int32 ((s.view.handle h).offset + n) ≤ 256 → s.view.Overruns (s.view.inode i) n →
      E .outOfBounds)
    (hfull : int32 ((s.view.handle h).offset + n) ≤ 256 → ¬ s.view.Fits (s.view.inode i) n →
      ¬ s.view.Overruns (s.view.inode i) n → ∀ (s' : Sys) inode' data,
      s.view.Filled (s.view.inode i) s'.view inode' data → s'.view.Owns i inode' →
      s'.view.marks DATA_BLOCK_FREE = 0 → Q (-1) s')
    (hok : int32 ((s.view.handle h).offset + n) ≤ 256 → (0 ≤ n → s.view.Fits (s.view.inode i) n) →
      ¬ s.view.Overruns (s.view.inode i) n → ∀ (s₁ s' : Sys) inode',
      s.view.Filled (s.view.inode i) s₁.view inode' ((List.range n.toNat).map buf) →
      s₁.view.Owns i inode' → s'.view = s₁.view.setInode i inode' → Q 0 s') :
    wp (A.write (h : ℕ) buf n) s E Q := by
  have h0 := ho.ok.size_nonneg
  have h256 := ho.ok.size_le
  refine hA.wp_write hi ho hbig (fun hle s' inode' data hg ho' hfs hd hfree => ?_)
    (fun hle s' inode' data hg ho' hz hd hnone => ?_) fun hle s₁ s' inode' hg ho' => ?_
  · have hsize := hg.size
    have hroom := hg.room_eq ho.ok ho'.ok
    have := View.marks_pos.2 hfree
    refine hE hle ⟨by omega, ?_⟩
    rw [← hroom, View.room, hfs, blocksFor]
    omega
  · have hsize := hg.size
    have hroom := hg.room_eq ho.ok ho'.ok
    have hle' := ho'.ok.size_le
    have hfree := View.marks_eq_zero.2 hnone
    have heq : s.view.room (s.view.inode i) = inode'.file_size / 64 := by
      rw [← hroom, View.room, hfree, blocksFor]
      omega
    refine hfull hle (fun hf => ?_) (fun hf => ?_) s' inode' data hg ho' hfree
    · have := hf.2
      rw [heq, blocksFor] at this
      omega
    · have := hf.2
      rw [heq] at this
      omega
  · have hsize := hg.size
    have hroom := hg.room_eq ho.ok ho'.ok
    have hle' := ho'.ok.size_le
    rw [List.length_map, List.length_range] at hsize
    refine hok hle (fun hn => ⟨by omega, ?_⟩) (fun hf => ?_) s₁ s' inode' hg ho'
    · have : inode'.file_size = (s.view.inode i).file_size + n := by omega
      rw [← hroom, View.room, this]
      omega
    · have := hf.1
      omega

end

/-! ## Appending -/

/-- An open handle that stands at the end of its file. -/
structure View.AtEnd (v : View) (g : Fin MAX_OPEN_FILES) (i : Fin NUM_INODES) : Prop where
  open_ : v.OpenOn g i
  offset : (v.handle g).offset = (v.inode i).file_size

/-- The block is taken by the step from `v` to `v'`. -/
def View.Takes (v v' : View) (b : Fin NUM_DATA_BLOCKS) : Prop :=
  v.super.datablock_freelist b ≠ DATA_BLOCK_USED ∧ v'.super.datablock_freelist b = DATA_BLOCK_USED

/-- The blocks of `n` more bytes of inode `i`, and nothing else, were taken. -/
structure View.Accounts (v v' : View) (i : Fin NUM_INODES) (n : ℤ) : Prop where
  used : (v'.marks DATA_BLOCK_USED : ℤ) = v.marks DATA_BLOCK_USED +
    (blocksFor ((v.inode i).file_size + n) - blocksFor (v.inode i).file_size)
  slots : ∀ k : Fin MAX_FILE_SIZE,
    (blocksFor (v.inode i).file_size ≤ (k : ℕ) ∧ (k : ℕ) < blocksFor ((v.inode i).file_size + n)) ↔
    ∃ b : Fin NUM_DATA_BLOCKS, (v'.inode i).direct_blocks k = (b : ℕ) ∧ v.Takes v' b
  taken : ∀ b, v.Takes v' b → (v'.inode i).Refs b ∧ ∀ j ≠ i, ¬ (v'.inode j).Refs b
  owners : ∀ b, v.super.datablock_freelist b = DATA_BLOCK_USED → ∀ j k,
    (v'.inode j).direct_blocks k = (b : ℕ) ↔ (v.inode j).direct_blocks k = (b : ℕ)

theorem View.Grown.takes_iff {v v' : View} {inode inode' : inode_t} {data : List UInt8}
    (hg : v.Grown inode v' inode' data) {b : Fin NUM_DATA_BLOCKS} :
    v.Takes v' b ↔ inode'.Refs b ∧ ¬ inode.Refs b := by
  unfold View.Takes
  rw [hg.used b]
  split_ifs with h
  · rw [hg.free_of_new h.1 h.2]
    exact ⟨fun _ => h, fun _ => ⟨free_ne_used, rfl⟩⟩
  · exact ⟨fun h' => absurd h'.2 h'.1, fun h' => absurd h' h⟩

section
variable {v v' : View} {inode inode' : inode_t} {data : List UInt8}
  (hg : v.Grown inode v' inode' data)
include hg

/-- The slots that are new are those that hold a new block. -/
theorem View.Grown.new_slot_iff (hok : v.InodeOk inode) (hok' : v'.InodeOk inode')
    {k : Fin MAX_FILE_SIZE} :
    (blocksFor inode.file_size ≤ (k : ℕ) ∧ (k : ℕ) < blocksFor inode'.file_size) ↔
    ∃ b : Fin NUM_DATA_BLOCKS, inode'.direct_blocks k = (b : ℕ) ∧
      inode'.Refs b ∧ ¬ inode.Refs b := by
  have hk := hok.slot k
  have hk' := hok'.slot k
  unfold blocksFor
  constructor
  · rintro ⟨hle, hlt⟩
    obtain ⟨b, hb, -⟩ := hok'.block k (hk'.2 (by omega))
    have hold : inode.direct_blocks k = -1 := by
      by_contra hne
      have := hk.1 hne
      omega
    refine ⟨b, hb, ⟨k, hb⟩, fun hr => ?_⟩
    exact free_ne_used ((hg.fresh k b hb hold).symm.trans (hok.used_of_refs hr))
  · rintro ⟨b, hb, -, hno⟩
    have hold : ¬ inode.direct_blocks k ≠ -1 := fun hne => hno ⟨k, by rw [← hg.slot k hne, hb]⟩
    have h₁ := mt hk.2 hold
    have h₂ := hk'.1 (by omega)
    omega

/-- Used blocks stay in their slots. -/
theorem View.Grown.used_slot_iff {b : Fin NUM_DATA_BLOCKS}
    (hb : v.super.datablock_freelist b = DATA_BLOCK_USED) {k : Fin MAX_FILE_SIZE} :
    inode'.direct_blocks k = (b : ℕ) ↔ inode.direct_blocks k = (b : ℕ) := by
  constructor
  · intro hk
    by_cases hold : inode.direct_blocks k = -1
    · exact absurd ((hg.fresh k b hk hold).symm.trans hb) free_ne_used
    · rw [← hg.slot k hold, hk]
  · intro hk
    rw [hg.slot k (by omega), hk]

end

theorem View.Grown.accounts {v v₁ : View} {i : Fin NUM_INODES} {inode' : inode_t}
    {data : List UInt8} (hg : v.Grown (v.inode i) v₁ inode' data) (hs : v.Sound)
    (ho : v₁.Owns i inode') : v.Accounts (v₁.setInode i inode') i data.length := by
  have hself : (v₁.setInode i inode').inode i = inode' := by
    rw [View.setInode_inode, Function.update_self]
  have hother (j) (hj : j ≠ i) : (v₁.setInode i inode').inode j = v.inode j := by
    rw [View.setInode_inode, Function.update_of_ne hj, hg.table]
  have htakes (b) : v.Takes (v₁.setInode i inode') b ↔ inode'.Refs b ∧ ¬ (v.inode i).Refs b :=
    hg.takes_iff
  refine ⟨?_, fun k => ?_, fun b hb => ?_, fun b hb j k => ?_⟩
  · have hused := hg.marks_used
    have hnew := hg.card_newBlocks (hs.ok i) ho.ok
    rw [hg.size] at hnew
    simp only [View.marks, View.setInode_super] at hused ⊢
    omega
  · simp only [htakes, hself, ← hg.size]
    exact hg.new_slot_iff (hs.ok i) ho.ok
  · rw [htakes] at hb
    refine ⟨by rw [hself]; exact hb.1, fun j hj hr => ?_⟩
    rw [hother j hj] at hr
    exact free_ne_used ((hg.free_of_new hb.1 hb.2).symm.trans ((hs.ok j).used_of_refs hr))
  · by_cases hj : j = i
    · subst hj
      rw [hself]
      exact hg.used_slot_iff hb
    · rw [hother j hj]

/-- A write at the end of a file is too large for the inode, runs out of blocks, or appends. -/
theorem View.AtEnd.wp_write {s : Sys} {E : Fault → Prop} {g : Fin MAX_OPEN_FILES}
    {i : Fin NUM_INODES} (hg : s.view.AtEnd g i) (ho : s.view.Owns i (s.view.inode i))
    (buf : ℕ → UInt8) {n : ℤ} (hn : 0 ≤ n) (hint : InInt ((s.view.handle g).offset + n))
    {Q : ℤ → Sys → Prop} (hbig : 256 < (s.view.inode i).file_size + n → Q (-1) s)
    (hfull : (s.view.inode i).file_size + n ≤ 256 → ¬ s.view.Fits (s.view.inode i) n →
      ∀ (s' : Sys) inode' data, s.view.Filled (s.view.inode i) s'.view inode' data →
      s'.view.marks DATA_BLOCK_FREE = 0 → Q (-1) s')
    (hok : s.view.Fits (s.view.inode i) n → ∀ (s₁ s' : Sys) inode',
      s.view.Filled (s.view.inode i) s₁.view inode' ((List.range n.toNat).map buf) →
      s₁.view.Owns i inode' → s'.view = s₁.view.setInode i inode' → Q 0 s') :
    wp (simplefs_write (g : ℕ) buf n) s E Q := by
  have hsum : int32 ((s.view.handle g).offset + n) = (s.view.inode i).file_size + n := by
    rw [int32_eq hint, hg.offset]
  rw [← Access.plain_write]
  refine Access.plain_lawful.wp_write_room hg.open_ ho buf (fun h => ?_) (fun hle h => ?_)
    (fun hle hno _ s' inode' data hf _ => ?_) fun _ hf _ => hok (hf hn)
  · rw [hsum] at h
    exact hbig h
  · rw [hsum] at hle
    exact absurd h.1 (not_lt.2 hle)
  · rw [hsum] at hle
    exact hfull hle hno s' inode' data hf

section
variable {s : Sys} (hs : simplefs.Reachable s) {g : Fin MAX_OPEN_FILES} {i : Fin NUM_INODES}
  (hg : s.view.AtEnd g i) (buf : ℕ → UInt8) {n : ℤ} (hn : 0 ≤ n)
  (hint : InInt ((s.view.handle g).offset + n))
include hs hg hn hint

/-- An append succeeds if and only if its bytes fit into the inode and the free blocks, and then
it takes the blocks they need. -/
theorem append_succeeds_iff : ∃ r s', Returns (simplefs_write (g : ℕ) buf n) s r s' ∧
    (r = 0 ∨ r = -1) ∧
    (r = 0 ↔ (s.view.inode i).file_size + n ≤ 256 ∧
      blocksFor ((s.view.inode i).file_size + n) - blocksFor (s.view.inode i).file_size ≤
        s.view.marks DATA_BLOCK_FREE) ∧
    (r = 0 → s.view.Accounts s'.view i n) := by
  have hv := (sound_of_reachable hs).view
  have hfits : s.view.Fits (s.view.inode i) n ↔ (s.view.inode i).file_size + n ≤ 256 ∧
      blocksFor ((s.view.inode i).file_size + n) - blocksFor (s.view.inode i).file_size ≤
        s.view.marks DATA_BLOCK_FREE := by
    unfold View.Fits View.room
    omega
  simp only [← hfits]
  refine (hg.wp_write (E := fun _ => False) (hv.owns i) buf hn hint (fun hbig => ?_)
    (fun _ hno s' inode' data _ _ => ?_) fun hf s₁ s' inode' hgr ho hv' => ?_).total
  · exact ⟨by simp, ⟨by simp, fun h => absurd h.1 (not_le.2 hbig)⟩, by simp⟩
  · exact ⟨by simp, ⟨by simp, fun h => absurd h hno⟩, by simp⟩
  · refine ⟨by simp, ⟨fun _ => hf, fun _ => rfl⟩, fun _ => ?_⟩
    rw [hv']
    convert hgr.accounts hv ho using 1
    simp [Int.toNat_of_nonneg hn]

end

/-- A sequence of calls is part of a run. -/
theorem wp_calls {s : Sys} (hs : simplefs.Reachable s) (ops : List Op) :
    wp (ops.mapM Op.exec) s (fun _ => True) fun _ s' => simplefs.Reachable s' := by
  induction ops generalizing s with
  | nil => exact hs
  | cons op ops ih =>
    rw [List.mapM_cons, wp_bind]
    refine wp_iff.2 ⟨fun r s₁ hr => ?_, fun _ _ => trivial⟩
    rw [wp_bind]
    exact (ih (hs.step (l := (op, r)) hr)).imp fun _ _ h => h

/-- A new file, opened. -/
theorem exists_opened : ∃ s, simplefs.Reachable s ∧ s.view.AtEnd 0 0 ∧
    s.view.handle 0 = ⟨0, 0⟩ ∧ s.view.marks DATA_BLOCK_FREE = 30 := by
  have h : ∃ s₀, Returns simplefs_formatDisk blankSys () s₀ ∧
      ∃ s₁, Returns (Op.create nameA).exec s₀ ⟨0, []⟩ s₁ ∧
      ∃ s₂, Returns (Op.open_ nameA).exec s₁ ⟨0, []⟩ s₂ ∧ s₂.view.OpenOn 0 0 ∧
        (s₂.view.handle 0).offset = 0 ∧ (s₂.view.inode 0).file_size = 0 ∧
        s₂.view.marks DATA_BLOCK_FREE = 30 := by decide +kernel
  obtain ⟨s₀, h₀, s₁, h₁, s₂, h₂, hopen, hoff, hsize, hfree⟩ := h
  have hr₀ : simplefs.Reachable s₀ := .init ⟨blankSys, h₀⟩
  have hr₁ : simplefs.Reachable s₁ := hr₀.step (l := (.create nameA, _)) h₁
  have hr : simplefs.Reachable s₂ := hr₁.step (l := (.open_ nameA, _)) h₂
  exact ⟨s₂, hr, ⟨hopen, hoff.trans hsize.symm⟩, filehandle_t.ext hoff hopen, hfree⟩

/-- A file of two blocks. -/
theorem append_succeeds_two_blocks : ∃ s s', simplefs.Reachable s ∧
    Returns (simplefs_write 0 (fun _ => 7) 100) s 0 s' ∧ s.view.Accounts s'.view 0 100 := by
  obtain ⟨s, hr, hend, hh, hfree⟩ := exists_opened
  have hsize : (s.view.inode 0).file_size = 0 := by rw [← hend.offset, hh]
  obtain ⟨r, s', hw, -, hiff, hacc⟩ := append_succeeds_iff hr hend (fun _ => 7) (n := 100)
    (by norm_num) (by rw [hh]; decide)
  have hr0 : r = 0 := by
    refine hiff.2 ?_
    rw [hsize, hfree]
    decide
  subst hr0
  exact ⟨s, s', hr, hw, hacc rfl⟩

/-! ## Appends that fail -/

/-- The free lists, the inodes and the files are the same. -/
structure View.Unchanged (v v' : View) : Prop where
  inode_freelist : v'.super.inode_freelist = v.super.inode_freelist
  datablock_freelist : v'.super.datablock_freelist = v.super.datablock_freelist
  inode : v'.inode = v.inode
  content : ∀ j, v'.content (v'.inode j) = v.content (v.inode j)

theorem View.Unchanged.refl (v : View) : v.Unchanged v := ⟨rfl, rfl, rfl, fun _ => rfl⟩

/-- A file that got bytes but no blocks: the bytes are past its end. -/
theorem View.Grown.unchanged {v v' : View} {i : Fin NUM_INODES} {inode' : inode_t}
    {data : List UInt8} (hg : v.Grown (v.inode i) v' inode' data) (hs : v.Sound)
    (hnone : (v.inode i).newBlocks inode' = ∅) : v.Unchanged v' where
  inode_freelist := hg.freelist
  datablock_freelist := by
    funext b
    rw [hg.used b]
    refine if_neg fun h => ?_
    rw [← inode_t.mem_newBlocks, hnone] at h
    exact absurd h (Finset.notMem_empty b)
  inode := hg.table
  content j := by
    rw [hg.table]
    by_cases hj : j = i
    · rw [hj]
      exact hg.content_before (hs.ok i)
    · exact hg.content_other hs hj

section
variable {s : Sys} (hs : simplefs.Reachable s) {g : Fin MAX_OPEN_FILES} {i : Fin NUM_INODES}
  (hg : s.view.AtEnd g i) (buf : ℕ → UInt8) {n : ℤ} (hn : 0 ≤ n)
  (hint : InInt ((s.view.handle g).offset + n))
include hs hg hn hint

/-- An append that fails changes nothing, unless some of the blocks it needs are free, but not
all of them: these it takes. -/
theorem failed_append_atomic_iff :
    (∀ s', Returns (simplefs_write (g : ℕ) buf n) s (-1) s' → s.view.Unchanged s'.view) ↔
    ¬ ((s.view.inode i).file_size + n ≤ 256 ∧ 0 < s.view.marks DATA_BLOCK_FREE ∧
      s.view.marks DATA_BLOCK_FREE <
        blocksFor ((s.view.inode i).file_size + n) - blocksFor (s.view.inode i).file_size) := by
  have hv := (sound_of_reachable hs).view
  set C : Prop := (s.view.inode i).file_size + n ≤ 256 ∧ 0 < s.view.marks DATA_BLOCK_FREE ∧
    s.view.marks DATA_BLOCK_FREE <
      blocksFor ((s.view.inode i).file_size + n) - blocksFor (s.view.inode i).file_size
  obtain ⟨r, s', hr, hun, hfail⟩ : ∃ r s', Returns (simplefs_write (g : ℕ) buf n) s r s' ∧
      (r = -1 → (s.view.Unchanged s'.view ↔ ¬ C)) ∧ (C → r = -1) := by
    refine (hg.wp_write (E := fun _ => False) (hv.owns i) buf hn hint (fun hbig => ?_)
      (fun hle hno s' inode' data hgr hfree => ?_) fun hf s₁ s' inode' _ _ _ => ?_).total
    · exact ⟨fun _ => ⟨fun _ h => absurd h.1 (not_le.2 hbig), fun _ => .refl _⟩, fun _ => rfl⟩
    · -- all blocks that were free are taken
      refine ⟨fun _ => ⟨fun hu h => ?_, fun hno' => hgr.unchanged hv ?_⟩, fun _ => rfl⟩
      · have heq : s'.view.marks DATA_BLOCK_FREE = s.view.marks DATA_BLOCK_FREE := by
          unfold View.marks
          rw [hu.datablock_freelist]
        have := h.2.1
        omega
      · have hmarks := hgr.marks_free
        rw [← Finset.card_eq_zero]
        unfold View.Fits View.room at hno
        omega
    · refine ⟨by simp, fun h => ?_⟩
      have := hf.2
      have := h.2.2
      unfold View.room at *
      omega
  constructor
  · intro hall hc
    obtain rfl := hfail hc
    exact (hun rfl).1 (hall s' hr) hc
  · intro hno t ht
    obtain ⟨rfl, rfl⟩ := hr.det ht
    exact (hun rfl).2 hno

end

/-- A new disk has blocks enough. -/
theorem failed_append_atomic_new_disk : ∃ s, simplefs.Reachable s ∧
    ∀ s', Returns (simplefs_write 0 (fun _ => 7) 300) s (-1) s' → s.view.Unchanged s'.view := by
  obtain ⟨s, hr, hend, hh, -⟩ := exists_opened
  have hsize : (s.view.inode 0).file_size = 0 := by rw [← hend.offset, hh]
  refine ⟨s, hr, (failed_append_atomic_iff hr hend _ (by norm_num) (by rw [hh]; decide)).2 ?_⟩
  rw [hsize]
  rintro ⟨h, -⟩
  exact absurd h (by norm_num)

/-- The names `a`, `b`, ... -/
def letter (k : Fin NUM_INODES) : CString where
  chars := [UInt8.ofNat (97 + k)]
  nonzero c hc h := by
    have hk : (k : ℕ) < 8 := k.2
    rw [List.mem_singleton.1 hc, ← UInt8.toNat_inj, UInt8.toNat_ofNat'] at h
    simp only [UInt8.toNat_zero] at h
    omega
  rest _ := 0

/-- A file is created, opened and filled. -/
def fullFile (k : Fin NUM_INODES) : List Op :=
  [.create (letter k), .open_ (letter k), .write (k : ℕ) (fun _ => 7) 256]

/-- After seven full files two blocks are free; a write of four blocks fails and takes both. -/
theorem failed_append_takes_blocks : ∃ s s', simplefs.Reachable s ∧ s.view.AtEnd 7 7 ∧
    Returns (simplefs_write 7 (fun _ => 7) 256) s (-1) s' ∧
    s.view.marks DATA_BLOCK_FREE = 2 ∧ s'.view.marks DATA_BLOCK_FREE = 0 ∧
    ¬ s.view.Unchanged s'.view := by
  have h : ∃ s₀, Returns simplefs_formatDisk blankSys () s₀ ∧
      ∃ s₁, Returns (((List.finRange NUM_INODES).flatMap fullFile).dropLast.mapM Op.exec) s₀
          ((List.finRange NUM_INODES).flatMap fun k =>
            [⟨(k : ℕ), []⟩, ⟨(k : ℕ), []⟩, ⟨0, []⟩]).dropLast s₁ ∧
        s₁.view.OpenOn 7 7 ∧ (s₁.view.handle 7).offset = (s₁.view.inode 7).file_size ∧
        s₁.view.marks DATA_BLOCK_FREE = 2 ∧
      ∃ s₂, Returns (simplefs_write 7 (fun _ => 7) 256) s₁ (-1) s₂ ∧
        s₂.view.marks DATA_BLOCK_FREE = 0 := by decide +kernel
  obtain ⟨s₀, h₀, s₁, h₁, hopen, hoff, hfree, s₂, h₂, hnone⟩ := h
  have hr₀ : simplefs.Reachable s₀ := .init ⟨blankSys, h₀⟩
  refine ⟨s₁, s₂, (wp_calls hr₀ _).returns h₁, ⟨hopen, hoff⟩, h₂, hfree, hnone, fun hu => ?_⟩
  have heq : s₂.view.marks DATA_BLOCK_FREE = s₁.view.marks DATA_BLOCK_FREE := by
    unfold View.marks
    rw [hu.datablock_freelist]
  omega

end Simplefs

/-
  Where the data blocks are, over whole runs: free, in a file, or lost.  A block is lost to a write
  that fails for want of blocks, and no call gives it back.
-/
import OSModules.Simplefs.Space

namespace Simplefs

open CInt Prog Runs

/-- The data blocks that are marked as used, and in no file. -/
def View.lost (v : View) : Finset (Fin NUM_DATA_BLOCKS) :=
  Finset.univ.filter fun b =>
    v.super.datablock_freelist b = DATA_BLOCK_USED ∧ ∀ i, ¬ (v.inode i).Refs b

@[simp] theorem View.mem_lost {v : View} {b : Fin NUM_DATA_BLOCKS} : b ∈ v.lost ↔
    v.super.datablock_freelist b = DATA_BLOCK_USED ∧ ∀ i, ¬ (v.inode i).Refs b := by
  simp [View.lost]

/-- A write through an open handle that gets into its loop, and fails there. -/
def View.RunsOut (v : View) : Op × Ret → Prop
  | (.write h _ n, r) => r.val = -1 ∧ ∃ (g : Fin MAX_OPEN_FILES) (i : Fin NUM_INODES),
      h = (g : ℕ) ∧ v.OpenOn g i ∧ int32 ((v.handle g).offset + n) ≤ 256
  | _ => False

instance (v : View) : DecidablePred v.RunsOut
  | (.write _ _ _, _) => inferInstanceAs (Decidable (_ ∧ _))
  | (.create _, _) | (.delete _, _) | (.open_ _, _) | (.close _, _) | (.read _ _, _)
  | (.seek _ _, _) => isFalse id

/-- What a call takes in vain: a write that runs out has taken the blocks that were free. -/
def View.wasted (v : View) (l : Op × Ret) : ℕ := if v.RunsOut l then v.marks DATA_BLOCK_FREE else 0

/-! ## Where the blocks are -/

/-- The blocks of a file. -/
def inode_t.blocks (inode : inode_t) : Finset (Fin NUM_DATA_BLOCKS) :=
  Finset.univ.filter fun b => inode.Refs b

@[simp] theorem inode_t.mem_blocks {inode : inode_t} {b : Fin NUM_DATA_BLOCKS} :
    b ∈ inode.blocks ↔ inode.Refs b := by simp [inode_t.blocks]

/-- Each slot in use holds a block of its own. -/
theorem View.InodeOk.card_blocks {v : View} {inode : inode_t} (h : v.InodeOk inode) :
    (inode.blocks.card : ℤ) = blocksFor inode.file_size := by
  have hinj : Function.Injective fun b : Fin NUM_DATA_BLOCKS => ((b : ℕ) : ℤ) := by
    intro b c hbc
    exact Fin.ext (by simpa using hbc)
  have hslots : Set.InjOn inode.direct_blocks inode.slots := by
    intro k hk l _ hkl
    exact h.inj k l (inode_t.mem_slots.1 hk) hkl
  rw [← h.card_slots, ← Finset.card_image_of_injective inode.blocks hinj,
    ← Finset.card_image_of_injOn hslots]
  congr 2
  ext x
  simp only [Finset.mem_image, inode_t.mem_blocks, inode_t.mem_slots]
  constructor
  · rintro ⟨b, ⟨k, hk⟩, rfl⟩
    exact ⟨k, by omega, hk⟩
  · rintro ⟨k, hk, rfl⟩
    obtain ⟨b, hb, -⟩ := h.block k hk
    exact ⟨b, ⟨k, hb⟩, hb.symm⟩

/-- A used block is in one file, or lost. -/
theorem View.Sound.marks_used {v : View} (hs : v.Sound) : (v.marks DATA_BLOCK_USED : ℤ) =
    (∑ i, blocksFor (v.inode i).file_size) + v.lost.card := by
  have hsplit : (Finset.univ.filter fun b => v.super.datablock_freelist b = DATA_BLOCK_USED) =
      (Finset.univ.biUnion fun i => (v.inode i).blocks) ∪ v.lost := by
    ext b
    simp only [Finset.mem_filter, Finset.mem_univ, true_and, Finset.mem_union, Finset.mem_biUnion,
      inode_t.mem_blocks, View.mem_lost]
    constructor
    · intro hb
      by_cases hr : ∃ i, (v.inode i).Refs b
      · exact Or.inl hr
      · exact Or.inr ⟨hb, not_exists.1 hr⟩
    · rintro (⟨i, hi⟩ | ⟨hb, -⟩)
      · exact (hs.ok i).used_of_refs hi
      · exact hb
  have hlost : Disjoint (Finset.univ.biUnion fun i => (v.inode i).blocks) v.lost := by
    refine Finset.disjoint_left.2 fun b hb hl => ?_
    obtain ⟨i, -, hi⟩ := Finset.mem_biUnion.1 hb
    exact (View.mem_lost.1 hl).2 i (inode_t.mem_blocks.1 hi)
  have hfiles : ((Finset.univ : Finset (Fin NUM_INODES)) : Set (Fin NUM_INODES)).PairwiseDisjoint
      fun i => (v.inode i).blocks := by
    intro i _ j _ hij
    refine Finset.disjoint_left.2 fun b hi hj => ?_
    exact hs.apart i j hij b (inode_t.mem_blocks.1 hi) (inode_t.mem_blocks.1 hj)
  rw [View.marks, hsplit, Finset.card_union_of_disjoint hlost, Finset.card_biUnion hfiles]
  push_cast
  rw [Finset.sum_congr rfl fun i _ => (hs.ok i).card_blocks]

/-- Each block has one of the two marks. -/
theorem View.BlocksMarked.marks_add {v : View} (hm : v.BlocksMarked) :
    v.marks DATA_BLOCK_FREE + v.marks DATA_BLOCK_USED = NUM_DATA_BLOCKS := by
  have hused : (Finset.univ.filter fun b => v.super.datablock_freelist b = DATA_BLOCK_USED) =
      Finset.univ.filter fun b => ¬ v.super.datablock_freelist b = DATA_BLOCK_FREE := by
    refine Finset.filter_congr fun b _ => ?_
    rcases hm b with h | h
    · rw [h]
      simp [free_ne_used]
    · rw [h]
      simp [free_ne_used.symm]
  rw [View.marks, View.marks, hused, Finset.card_filter_add_card_filter_not, Finset.card_univ,
    Fintype.card_fin]

/-! ## What a call does to them -/

section
variable {v v' : View} {op : Op} {r : Ret}

/-- The view keeps its marks and inodes. -/
theorem View.lost_congr (hmark : ∀ b, v'.super.datablock_freelist b = v.super.datablock_freelist b)
    (hrefs : ∀ i b, (v'.inode i).Refs b ↔ (v.inode i).Refs b) : v'.lost = v.lost := by
  ext b
  simp only [View.mem_lost, hmark, hrefs]

theorem View.lost_createInode (i : Fin NUM_INODES) (f : CString) :
    (v.createInode i f).lost = v.lost := by
  refine View.lost_congr (fun b => rfl) fun j b => ?_
  rw [View.createInode_inode, Function.update_apply]
  split
  · next hj =>
    subst hj
    rfl
  · rfl

/-- A file that is deleted gives its blocks back. -/
theorem View.lost_deleteInode (i : Fin NUM_INODES) : (v.deleteInode i).lost = v.lost := by
  ext b
  simp only [View.mem_lost, View.deleteInode_datablock_freelist, View.deleteInode_inode]
  constructor
  · rintro ⟨hused, hno⟩
    split_ifs at hused with hi
    · exact absurd hused free_ne_used
    · refine ⟨hused, fun j => ?_⟩
      by_cases hj : j = i
      · rwa [hj]
      · simpa [Function.update_of_ne hj] using hno j
  · rintro ⟨hused, hno⟩
    rw [if_neg (hno i)]
    refine ⟨hused, fun j => ?_⟩
    by_cases hj : j = i
    · rw [hj, Function.update_self]
      exact inode_t.not_refs_freed _ _
    · rw [Function.update_of_ne hj]
      exact hno j

/-- A write that succeeds: the new blocks are in the file. -/
theorem View.Grown.lost_setInode {v₁ : View} {i : Fin NUM_INODES} {inode' : inode_t}
    {data : List UInt8} (hg : v.Grown (v.inode i) v₁ inode' data) :
    (v₁.setInode i inode').lost = v.lost := by
  ext b
  have hmark : (v₁.setInode i inode').super.datablock_freelist b = v₁.super.datablock_freelist b :=
    rfl
  have hrefs (j) : ((v₁.setInode i inode').inode j).Refs b ↔
      if j = i then inode'.Refs b else (v.inode j).Refs b := by
    rw [View.setInode_inode, Function.update_apply, hg.table]
    split_ifs <;> rfl
  simp only [View.mem_lost, hmark, hrefs, hg.used b]
  by_cases hnew : inode'.Refs b ∧ ¬ (v.inode i).Refs b
  · refine iff_of_false (fun h => ?_) fun h => ?_
    · exact h.2 i (by rw [if_pos rfl]; exact hnew.1)
    · exact free_ne_used ((hg.free_of_new hnew.1 hnew.2).symm.trans h.1)
  · rw [if_neg hnew]
    refine and_congr_right fun hused => forall_congr' fun j => ?_
    split_ifs with hj
    · subst hj
      exact not_congr (exists_congr fun k => hg.used_slot_iff hused)
    · rfl

/-- A write that runs out of blocks: all that were free are lost. -/
theorem View.Grown.lost_full {i : Fin NUM_INODES} {inode' : inode_t} {data : List UInt8}
    (hg : v.Grown (v.inode i) v' inode' data) (hs : v.Sound)
    (hnone : ∀ b, v'.super.datablock_freelist b ≠ DATA_BLOCK_FREE) :
    v.lost ⊆ v'.lost ∧ v'.lost.card = v.lost.card + v.marks DATA_BLOCK_FREE := by
  have hfree := hg.marks_free
  rw [View.marks_eq_zero.2 hnone, zero_add] at hfree
  have hlost : v'.lost = v.lost ∪ (v.inode i).newBlocks inode' := by
    ext b
    simp only [View.mem_lost, Finset.mem_union, inode_t.mem_newBlocks, hg.used b, hg.table]
    by_cases hnew : inode'.Refs b ∧ ¬ (v.inode i).Refs b
    · have hb := hg.free_of_new hnew.1 hnew.2
      rw [if_pos hnew]
      refine iff_of_true ⟨rfl, fun j hr => ?_⟩ (Or.inr hnew)
      exact free_ne_used (hb.symm.trans ((hs.ok j).used_of_refs hr))
    · rw [if_neg hnew, or_iff_left hnew]
  have hdisj : Disjoint v.lost ((v.inode i).newBlocks inode') := by
    refine Finset.disjoint_left.2 fun b hb hnew => ?_
    rw [inode_t.mem_newBlocks] at hnew
    exact free_ne_used ((hg.free_of_new hnew.1 hnew.2).symm.trans (View.mem_lost.1 hb).1)
  rw [hlost]
  exact ⟨Finset.subset_union_left, by rw [Finset.card_union_of_disjoint hdisj, hfree]⟩

theorem View.wasted_of_not {l : Op × Ret} (h : ¬ v.RunsOut l) : v.wasted l = 0 := if_neg h

/-- A call loses what it wastes, and nothing that is lost comes back. -/
theorem View.Step.lost (h : v.Step op r v') (hs : v.Sound) :
    v.lost ⊆ v'.lost ∧ v'.lost.card = v.lost.card + v.wasted (op, r) := by
  have hsame : v'.lost = v.lost → ¬ v.RunsOut (op, r) →
      v.lost ⊆ v'.lost ∧ v'.lost.card = v.lost.card + v.wasted (op, r) := by
    intro hlost hno
    rw [hlost, View.wasted_of_not hno]
    exact ⟨Finset.Subset.refl _, rfl⟩
  cases h with
  | create_full | delete_none | open_none | open_full | open_ | close | read | seek_out | seek =>
    exact hsame rfl id
  | create i => exact hsame (View.lost_createInode i _) id
  | delete i => exact hsame (View.lost_deleteInode i) id
  | write_big g i hi hbig =>
    refine hsame rfl ?_
    rintro ⟨-, g', j, hg, hj, hle⟩
    obtain rfl := handle_inj hg
    exact absurd hle (not_le.2 hbig)
  | write_full g i inode' data hi hle hg hshort hnone =>
    rw [View.wasted, if_pos ⟨rfl, g, i, rfl, hi, hle⟩]
    exact hg.lost_full hs hnone
  | write g i v₁ inode' hi hle hg ho =>
    refine hsame hg.lost_setInode ?_
    rintro ⟨hr, -⟩
    exact absurd hr (by simp)

end

/-! ## Runs -/

section
variable {s s' : Sys} {op : Op} {r : Ret}

/-- A call through a handle that is not open moves no block. -/
theorem Sys.Sound.wp_closed (hs : s.Sound) (hop : op.Closed s.view) :
    wp op.exec s (fun _ => True) fun _ s' => s'.view.lost = s.view.lost := by
  cases op with
  | create | delete | open_ | close => exact hop.elim
  | read g n =>
    simp only [Op.exec, wp_bind]
    refine (reads_read s).imp fun r s' hs' => ?_
    subst hs'
    rfl
  | write g buf n =>
    obtain ⟨g, rfl, hc⟩ := hop
    simp only [Op.exec, wp_bind]
    refine (closed_write hs.view.ready hc hs.marked buf n).imp fun r s' hs' => ?_
    subst hs'
    rfl
  | seek g n =>
    obtain ⟨g, rfl, hc⟩ := hop
    simp only [Op.exec, wp_bind]
    refine (closed_seek hs.view.ready hc n).imp fun r s' hs' => ?_
    rw [wp_pure]
    rcases hs' with h | ⟨o, h⟩
    · rw [h]
    · rw [h]
      rfl

theorem Op.Closed.not_runsOut {v : View} (hop : op.Closed v) : ¬ v.RunsOut (op, r) := by
  cases op with
  | create | delete | open_ | close | read | seek => exact id
  | write h buf n =>
    rintro ⟨-, g, i, rfl, hi, -⟩
    obtain ⟨g', hg, hc⟩ := hop
    obtain rfl := handle_inj hg
    rw [View.OpenOn, hc] at hi
    omega

theorem Sys.Sound.lost (hs : s.Sound) (h : Returns op.exec s r s') :
    s.view.lost ⊆ s'.view.lost ∧
      s'.view.lost.card = s.view.lost.card + s.view.wasted (op, r) := by
  rcases hs.view.op_cases op with hop | hop | ⟨g, hop, hg⟩
  · exact ((wp_exec hs.view hop).returns h).lost hs.view
  · rw [(hs.wp_closed hop).returns h, View.wasted_of_not hop.not_runsOut]
    exact ⟨Finset.Subset.refl _, rfl⟩
  · exact ((wp_exec_out hop hg).returns h).elim

end

theorem View.Fresh.lost {v : View} (h : v.Fresh) : v.lost = ∅ := by
  refine Finset.eq_empty_of_forall_notMem fun b hb => ?_
  exact free_ne_used ((h.datablock_freelist b).symm.trans (View.mem_lost.1 hb).1)

/-- In every run, whatever the calls, a block is free, in one of the files, or lost; as many are
lost as the writes that ran out of blocks had found free; and what is lost stays lost. -/
theorem blocks_accounted {xs : List (Sys × Op × Ret)} {s : Sys} (h : simplefs.Exec xs s) :
    s.view.marks DATA_BLOCK_FREE + (∑ i, blocksFor (s.view.inode i).file_size) + s.view.lost.card =
        (NUM_DATA_BLOCKS : ℤ) ∧
      s.view.lost.card = (xs.map fun p => p.1.view.wasted p.2).sum ∧
      ∀ p ∈ xs, p.1.view.lost ⊆ s.view.lost := by
  have hs := sound_of_reachable h.reachable
  refine ⟨?_, ?_, ?_⟩
  · have hmarks := hs.marked.marks_add
    have hused := hs.view.marks_used
    omega
  · refine h.sum_eq (f := fun s => s.view.lost.card) (fun s hs => ?_) fun s l s' hr hstep => ?_
    · rw [(fresh_of_init hs).lost, Finset.card_empty]
    · exact ((sound_of_reachable hr).lost hstep).2
  · refine h.le_of_mem (f := fun s => s.view.lost) fun s l s' hr hstep => ?_
    exact ((sound_of_reachable hr).lost hstep).1

/-- A sequence of calls, one after the other. -/
theorem exec_calls {xs : List (Sys × Op × Ret)} {s s' : Sys} (h : simplefs.Exec xs s)
    {ops : List Op} {rs : List Ret} (hret : Returns (ops.mapM Op.exec) s rs s') :
    ∃ ys, simplefs.Exec (xs ++ ys) s' := by
  induction ops generalizing xs s rs with
  | nil =>
    obtain ⟨-, rfl⟩ := hret.det (show Returns _ s [] s from rfl)
    exact ⟨[], by rwa [List.append_nil]⟩
  | cons op ops ih =>
    rw [List.mapM_cons] at hret
    obtain ⟨r, s₁, hop, hret⟩ := hret.bind_inv
    obtain ⟨rs, s₂, hops, hret⟩ := hret.bind_inv
    obtain ⟨-, rfl⟩ := hret.det (show Returns _ s₂ (r :: rs) s₂ from rfl)
    obtain ⟨ys, hexec⟩ := ih (h.step (l := (op, r)) hop) hops
    rw [List.append_assoc] at hexec
    exact ⟨_, hexec⟩

/-- Seven full files and a write that takes the last two blocks: when all files are deleted, these
two are missing. -/
theorem blocks_accounted_two_lost : ∃ xs s, simplefs.Exec xs s ∧
    (xs.map fun p : Sys × Op × Ret => p.1.view.wasted p.2).sum = 2 ∧
    (∀ i, (s.view.inode i).file_size = 0) ∧ s.view.marks DATA_BLOCK_FREE = 28 := by
  let ops := (List.finRange NUM_INODES).flatMap fullFile ++
    (List.finRange NUM_INODES).map fun k => Op.delete (letter k)
  have h : ∃ s₀, Returns simplefs_formatDisk blankSys () s₀ ∧
      ∃ s, Returns (ops.mapM Op.exec) s₀
          (((List.finRange NUM_INODES).flatMap fun k =>
            [⟨(k : ℕ), []⟩, ⟨(k : ℕ), []⟩, ⟨if k = 7 then -1 else 0, []⟩]) ++
            List.replicate 8 ⟨0, []⟩) s ∧
        (∀ i, (s.view.inode i).file_size = 0) ∧ s.view.marks DATA_BLOCK_FREE = 28 := by
    decide +kernel
  obtain ⟨s₀, h₀, s, hret, hsize, hfree⟩ := h
  obtain ⟨xs, hexec⟩ := exec_calls (.init ⟨blankSys, h₀⟩) hret
  rw [List.nil_append] at hexec
  obtain ⟨hall, hlost, -⟩ := blocks_accounted hexec
  refine ⟨xs, s, hexec, ?_, hsize, hfree⟩
  simp only [hfree, hsize, blocksFor, NUM_DATA_BLOCKS] at hall
  rw [← hlost]
  norm_num at hall
  omega

end Simplefs

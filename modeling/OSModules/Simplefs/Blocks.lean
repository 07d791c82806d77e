/-
  No cross-linked blocks: in every run whose writes are issued at the end of the file, each
  inode has exactly the blocks its size needs, and no block has two places in the table.
-/
import OSModules.Simplefs.Step

namespace Simplefs

open CInt Prog Runs

/-- The calls of the runs below: any name, any open handle, whether or not its file was deleted
meanwhile; nothing overflows, and a write is issued at the end of the file. -/
def Op.AtEnd (v : View) : Op → Prop
  | .create _ | .delete _ | .open_ _ => True
  | .close h | .seek h _ => ∃ g : Fin MAX_OPEN_FILES, h = (g : ℕ) ∧ (v.handle g).inode_number ≠ -1
  | .read h n => ∃ g : Fin MAX_OPEN_FILES, h = (g : ℕ) ∧ (v.handle g).inode_number ≠ -1 ∧
      0 ≤ n ∧ InInt ((v.handle g).offset + n)
  | .write h _ n => ∃ (g : Fin MAX_OPEN_FILES) (i : Fin NUM_INODES), h = (g : ℕ) ∧ v.OpenOn g i ∧
      0 ≤ n ∧ InInt ((v.handle g).offset + n) ∧ (v.handle g).offset = (v.inode i).file_size

instance (v : View) : DecidablePred (Op.AtEnd v)
  | .create _ | .delete _ | .open_ _ => isTrue trivial
  | .close _ | .seek _ _ | .read _ _ | .write _ _ _ => inferInstanceAs (Decidable (∃ _, _))

theorem Op.AtEnd.handleOk {v : View} (hw : v.Wf) {op : Op} (h : op.AtEnd v) : op.HandleOk v := by
  have hopen (g : Fin MAX_OPEN_FILES) (hg : (v.handle g).inode_number ≠ -1) :
      ∃ i, v.OpenOn g i := (hw.handle g).resolve_left hg
  cases op with
  | create | delete | open_ => trivial
  | close h =>
    obtain ⟨g, rfl, -⟩ := h
    exact ⟨g, rfl⟩
  | read h n =>
    obtain ⟨g, rfl, hg, -⟩ := h
    obtain ⟨i, hi⟩ := hopen g hg
    exact ⟨g, i, rfl, hi⟩
  | write h buf n =>
    obtain ⟨g, i, rfl, hi, -⟩ := h
    exact ⟨g, i, rfl, hi⟩
  | seek h n =>
    obtain ⟨g, rfl, hg⟩ := h
    obtain ⟨i, hi⟩ := hopen g hg
    exact ⟨g, i, rfl, hi⟩

/-- The one assertion that such a call can fail is that of `simplefs_freeInode`. -/
theorem Op.AtEnd.mayFault {v : View} {op : Op} (h : op.AtEnd v) {e : Fault}
    (he : op.MayFault v e) : e = .inodeNotInUse := by
  cases op with
  | create | open_ | close | seek => exact he.elim
  | delete f => exact he.1
  | read h n =>
    obtain ⟨g, rfl, -, -, hn⟩ := h
    obtain ⟨g', hg', hn'⟩ := he
    obtain rfl := handle_inj hg'
    exact absurd hn hn'
  | write h buf n =>
    obtain ⟨g, i, rfl, hi, -, hn, ho⟩ := h
    obtain ⟨-, g', i', hg', hi', hle, hlt⟩ := he
    obtain rfl := handle_inj hg'
    obtain rfl := hi.inj hi'
    rw [int32_eq hn, ho] at hle
    exact absurd hlt (not_lt.2 hle)

/-- The runs of such calls. -/
def runsAtEnd : LTS Sys (Op × Ret) := simplefs.guard fun s l => l.1.AtEnd s.view

theorem wf_of_reachable {s : Sys} (h : runsAtEnd.Reachable s) :
    s.view.Wf := by
  refine LTS.Reachable.invariant (I := fun s => s.view.Wf) (fun s hs => ?_)
    (fun s l s' hw hs => ?_) h
  · exact (fresh_of_init hs).wf
  · exact (step_view hw (hs.1.handleOk hw) hs.2).2

/-- Each inode has a block, used and on the disk, for each part of its file and for nothing else,
and no block is referred to from two places. -/
structure View.NoCrossLinks (v : View) : Prop where
  size : ∀ i, 0 ≤ (v.inode i).file_size ∧ (v.inode i).file_size ≤ 256
  slot : ∀ i k, (v.inode i).direct_blocks k ≠ -1 ↔ (k : ℕ) < ((v.inode i).file_size + 63) / 64
  block : ∀ i k, (v.inode i).direct_blocks k ≠ -1 → ∃ b : Fin NUM_DATA_BLOCKS,
    (v.inode i).direct_blocks k = (b : ℕ) ∧ v.super.datablock_freelist b = DATA_BLOCK_USED ∧
    v.Stored b
  unshared : ∀ i k j l, (v.inode i).direct_blocks k ≠ -1 →
    (v.inode i).direct_blocks k = (v.inode j).direct_blocks l → i = j ∧ k = l

/-- No blocks are cross-linked, and no call can fail another assertion than that of
`simplefs_freeInode`, so neither that of `simplefs_freeDataBlock` nor that of
`simplefs_readDataBlock`. -/
theorem no_cross_links {s : Sys} (h : runsAtEnd.Reachable s) :
    s.view.NoCrossLinks ∧
    ∀ op : Op, op.AtEnd s.view → ∀ e, Faults op.exec s e → e = .inodeNotInUse := by
  have hw := wf_of_reachable h
  refine ⟨⟨fun i => ?_, fun i k => ?_, fun i => (hw.ok i).block, hw.sound.unshared⟩,
    fun op hop e he => ?_⟩
  · exact ⟨(hw.ok i).size_nonneg, (hw.ok i).size_le⟩
  · rw [(hw.ok i).slot k]
    omega
  · exact hop.mayFault ((wp_exec hw.sound (hop.handleOk hw)).faults he)

/-- A file of two blocks. -/
theorem no_cross_links_two_blocks : ∃ s, runsAtEnd.Reachable s ∧
    s.view.super.datablock_freelist 1 = DATA_BLOCK_USED ∧ s.view.NoCrossLinks := by
  have h : ∃ s₀, Returns simplefs_formatDisk blankSys () s₀ ∧
      ∃ s₁, Returns (Op.create nameA).exec s₀ ⟨0, []⟩ s₁ ∧
      ∃ s₂, Returns (Op.open_ nameA).exec s₁ ⟨0, []⟩ s₂ ∧
        (Op.write 0 (fun _ => 7) 100).AtEnd s₂.view ∧
      ∃ s₃, Returns (Op.write 0 (fun _ => 7) 100).exec s₂ ⟨0, []⟩ s₃ ∧
        s₃.view.super.datablock_freelist 1 = DATA_BLOCK_USED := by decide +kernel
  obtain ⟨s₀, h₀, s₁, h₁, s₂, h₂, hend, s₃, h₃, hused⟩ := h
  have hr₀ : runsAtEnd.Reachable s₀ := .init ⟨blankSys, h₀⟩
  have hr₁ : runsAtEnd.Reachable s₁ := hr₀.step (l := (.create nameA, _)) ⟨trivial, h₁⟩
  have hr₂ : runsAtEnd.Reachable s₂ := hr₁.step (l := (.open_ nameA, _)) ⟨trivial, h₂⟩
  have hr : runsAtEnd.Reachable s₃ := hr₂.step (l := (.write 0 _ 100, _)) ⟨hend, h₃⟩
  exact ⟨s₃, hr, hused, (no_cross_links hr).1⟩

end Simplefs

/-
  Deleting a file undoes its creation and everything that was written to it.
-/
import OSModules.Simplefs.Names
import Mathlib.Logic.Relation

namespace Simplefs

open CInt Prog

/-- The states in which the free lists, the inodes and the handles agree. -/
structure View.Settled (v : View) : Prop where
  ready : v.Ready
  used : ∀ i k, (v.inode i).direct_blocks k ≠ -1 → ∃ b : Fin NUM_DATA_BLOCKS,
    (v.inode i).direct_blocks k = (b : ℕ) ∧ v.super.datablock_freelist b = DATA_BLOCK_USED
  unshared : ∀ i k j l, (v.inode i).direct_blocks k ≠ -1 →
    (v.inode i).direct_blocks k = (v.inode j).direct_blocks l → i = j ∧ k = l
  marked : v.Marked
  free : ∀ i, v.super.inode_freelist i = INODE_FREE →
    (v.inode i).file_size = 0 ∧ ∀ k, (v.inode i).direct_blocks k = -1
  closed : ∀ h, (v.handle h).inode_number = -1 → (v.handle h).offset = 0

/-- A read or a seek through a handle, or a write through it at the end of the file. -/
def Op.Through (v : View) (h : Fin MAX_OPEN_FILES) : Op → Prop
  | .read h' _ | .seek h' _ => h' = (h : ℕ)
  | .write h' _ _ => h' = (h : ℕ) ∧ ∃ i, v.OpenOn h i ∧ (v.handle h).offset = (v.inode i).file_size
  | _ => False

def Op.NoOverflow (v : View) (h : Fin MAX_OPEN_FILES) : Op → Prop
  | .read _ n | .write _ _ n => InInt ((v.handle h).offset + n)
  | _ => True

/-- The call is a write that failed, but not because the file would be too large. -/
def Op.ShortOfBlocks (v : View) (h : Fin MAX_OPEN_FILES) : Op → Ret → Prop
  | .write _ _ n, r => r.val = -1 ∧ int32 ((v.handle h).offset + n) ≤ 256
  | _, _ => False

/-- One such call that does not fail for lack of data blocks. -/
def Transfer (h : Fin MAX_OPEN_FILES) (s s' : Sys) : Prop :=
  ∃ op r, Op.Through s.view h op ∧ Returns op.exec s r s' ∧ ¬ op.ShortOfBlocks s.view h r

/-- The view `v` while the file `f`, which was created as inode `i` in `v₀` and opened as `h`, is in
use: nothing but the file, its blocks and its handle differs from `v₀`. -/
structure View.Ongoing (v₀ : View) (f : CString) (i : Fin NUM_INODES) (h : Fin MAX_OPEN_FILES)
    (v : View) : Prop where
  owns : v.Owns i (v.inode i)
  name : ∀ k, (v.inode i).name k = f.byte k
  others : ∀ j ≠ i, v.inode j = v₀.inode j
  freelist : v.super.inode_freelist = Function.update v₀.super.inode_freelist i INODE_IN_USE
  handles : ∀ g ≠ h, v.handle g = v₀.handle g
  fresh : ∀ b : Fin NUM_DATA_BLOCKS, (v.inode i).Refs b →
    v₀.super.datablock_freelist b = DATA_BLOCK_FREE
  marks : ∀ b : Fin NUM_DATA_BLOCKS, v.super.datablock_freelist b =
    if (v.inode i).Refs b then DATA_BLOCK_USED else v₀.super.datablock_freelist b
  frame : ∀ b, ¬ (v.inode i).Refs b → v.block b = v₀.block b

section
variable {v₀ : View} {f : CString} {i : Fin NUM_INODES} {h : Fin MAX_OPEN_FILES}

/-- The lookup finds the new inode, whatever the free inodes after it are named. -/
theorem lookup_created (hm : v₀.Marked) (hf : f.Short)
    (hnew : ∀ j, v₀.InUse j → ¬ (v₀.inode j).carries f)
    (hlt : ∀ j < i, v₀.super.inode_freelist j ≠ INODE_FREE) {v : View}
    (hname : ∀ k, (v.inode i).name k = f.byte k) (hothers : ∀ j ≠ i, v.inode j = v₀.inode j) :
    v.lookup f = some i := by
  refine lookup_eq_some.2 ⟨?_, fun j hj => ?_⟩
  · have hterm : (v.inode i).Terminated := by
      obtain ⟨k, hk⟩ := (v.inode i).terminated_named hf
      exact ⟨k, by rw [hname]; exact hk⟩
    rw [hterm.carries_iff, ← (v.inode i).cname_named hf]
    exact inode_t.cname_congr (funext hname)
  · rw [hothers j (ne_of_lt hj)]
    exact hnew j ((hm.mark j).resolve_right (hlt j hj))

/-- The file after it is created, before it is opened. -/
theorem View.Settled.created (hs : v₀.Settled) (hi : v₀.super.inode_freelist i = INODE_FREE) :
    v₀.Ongoing f i h (v₀.createInode i f) := by
  obtain ⟨hsize, hblocks⟩ := hs.free i hi
  have hself : (v₀.createInode i f).inode i = (v₀.inode i).named f := by
    rw [View.createInode_inode, Function.update_self]
  have hother (j) (hj : j ≠ i) : (v₀.createInode i f).inode j = v₀.inode j := by
    rw [View.createInode_inode, Function.update_of_ne hj]
  have hblocks' (k) : ((v₀.createInode i f).inode i).direct_blocks k = -1 := by
    rw [hself]; exact hblocks k
  have hrefs (b : ℕ) : ¬ ((v₀.createInode i f).inode i).Refs b := by
    rintro ⟨k, hk⟩
    rw [hblocks'] at hk
    omega
  refine ⟨⟨hs.ready, ⟨?_, ?_, fun k => ?_, fun k hk => ?_, fun k l hk => ?_⟩, fun j hj b hr => ?_,
    fun j hj b hr => absurd hr (hrefs b)⟩, fun k => by rw [hself]; rfl, hother, rfl, fun _ _ => rfl,
    fun b hr => absurd hr (hrefs b), fun b => by rw [if_neg (hrefs b)]; rfl, fun _ _ => rfl⟩
  · rw [hself]; exact hsize.ge
  · rw [hself]; exact hsize.le.trans (by norm_num)
  · have : ((v₀.createInode i f).inode i).file_size = 0 := by rw [hself]; exact hsize
    rw [hblocks', this]
    simp
  · exact absurd (hblocks' k) hk
  · exact absurd (hblocks' k) hk
  · rw [hother j hj] at hr
    obtain ⟨k, hk⟩ := hr
    obtain ⟨c, hc, hu⟩ := hs.used j k (by omega)
    have : b = c := Fin.ext (by omega)
    rw [this]
    exact hu

namespace View.Ongoing
variable {v : View} (ho : v₀.Ongoing f i h v)
include ho

theorem setHandle (e : filehandle_t) : v₀.Ongoing f i h (v.setHandle h e) where
  owns := ho.owns.setHandle h e
  name := ho.name
  others := ho.others
  freelist := ho.freelist
  handles g hg := by
    rw [View.setHandle_handle, Function.update_of_ne hg]
    exact ho.handles g hg
  fresh := ho.fresh
  marks := ho.marks
  frame := ho.frame

theorem write {v₁ : View} {inode' : inode_t} {data : List UInt8}
    (hg : v.Grown (v.inode i) v₁ inode' data) (ho' : v₁.Owns i inode') :
    v₀.Ongoing f i h (v₁.setInode i inode') := by
  have hself : (v₁.setInode i inode').inode i = inode' := by
    rw [View.setInode_inode, Function.update_self]
  have hother (j) (hj : j ≠ i) : (v₁.setInode i inode').inode j = v.inode j := by
    rw [View.setInode_inode, Function.update_of_ne hj, hg.table]
  refine ⟨?_, fun k => ?_, fun j hj => ?_, ?_, fun g hg' => ?_, fun b hr => ?_, fun b => ?_,
    fun b hr => ?_⟩
  · rw [hself]
    exact ho'.setInode
  · rw [hself, hg.name.2, ho.name]
  · rw [hother j hj, ho.others j hj]
  · exact hg.freelist.trans ho.freelist
  · rw [View.setInode_handle, hg.handle, ho.handles g hg']
  · rw [hself] at hr
    by_cases hold : (v.inode i).Refs b
    · exact ho.fresh b hold
    · obtain ⟨k, hk⟩ := hr
      have hfree := hg.fresh k b hk (by
        by_contra hne
        exact hold ⟨k, by rw [← hg.slot k hne, hk]⟩)
      rwa [ho.marks, if_neg hold] at hfree
  · rw [hself, View.setInode_super, hg.used b, ho.marks b]
    by_cases hold : (v.inode i).Refs b
    · simp [hold, hg.refs hold]
    · by_cases hnew : inode'.Refs b <;> simp [hold, hnew]
  · rw [hself] at hr
    rw [View.setInode_block, hg.frame b hr]
    exact ho.frame b fun hold => hr (hg.refs hold)

end View.Ongoing

/-- The file is in use and its handle open. -/
structure FileOpen (v₀ : View) (f : CString) (i : Fin NUM_INODES) (h : Fin MAX_OPEN_FILES) (v : View) :
    Prop where
  ongoing : v₀.Ongoing f i h v
  open_ : v.OpenOn h i
  offset : 0 ≤ (v.handle h).offset

variable {s : Sys}

theorem FileOpen.wp_exec (hu : FileOpen v₀ f i h s.view) {op : Op} (hop : op.Through s.view h) :
    wp op.exec s (fun _ => ¬ op.NoOverflow s.view h) fun r s' =>
      ¬ op.ShortOfBlocks s.view h r → FileOpen v₀ f i h s'.view := by
  have ho := hu.ongoing
  cases op with
  | create | delete | open_ | close => exact hop.elim
  | read h' n =>
    obtain rfl : h' = (h : ℕ) := hop
    simp only [Op.exec, wp_bind, wp_pure]
    by_cases hn : InInt ((s.view.handle h).offset + n)
    · exact wp_read ho.owns.ready hu.open_ ho.owns.ok hu.offset hn (fun _ _ => hu) fun _ _ => hu
    · refine (reads_read s).mono (fun _ _ => hn) fun r s' hs' _ => ?_
      rw [hs']
      exact hu
  | write h' buf n =>
    obtain ⟨rfl, j, hj, hend⟩ := hop
    obtain rfl := hu.open_.inj hj
    simp only [Op.exec, wp_bind, wp_pure]
    refine wp_write hu.open_ ho.owns (fun _ _ => hu) (fun hle hlt hn => ?_)
      (fun hle s' _ _ _ _ _ _ _ hs => absurd ⟨rfl, hle⟩ hs) fun _ s₁ s' inode' hg ho' hs' _ => ?_
    · rw [int32_eq hn] at hle
      omega
    · rw [hs']
      refine ⟨ho.write hg ho', ?_, ?_⟩
      · rw [View.OpenOn, View.setInode_handle, hg.handle]
        exact hu.open_
      · rw [View.setInode_handle, hg.handle]
        exact hu.offset
  | seek h' n =>
    obtain rfl : h' = (h : ℕ) := hop
    simp only [Op.exec, wp_bind, wp_pure]
    refine wp_seek ho.owns.ready h i hu.open_ (fun _ _ => hu) fun h₀ _ s' hs' _ => ?_
    rw [hs']
    refine ⟨ho.setHandle _, ?_, ?_⟩
    · rw [View.OpenOn, View.setHandle_handle, Function.update_self]
    · rw [View.setHandle_handle, Function.update_self]
      exact h₀

/-- Deleting the file finds its inode and no assertion fails. -/
theorem View.Ongoing.wp_delete {E : Fault → Prop} (ho : v₀.Ongoing f i h s.view)
    (hl : s.view.lookup f = some i) {Q : Unit → Sys → Prop}
    (hQ : ∀ s', s'.view = s.view.deleteInode i → Q () s') : wp (simplefs_delete f) s E Q := by
  have hi {j} (hj : s.view.lookup f = some j) : j = i := Option.some.inj (hj.symm.trans hl)
  refine Simplefs.wp_delete ho.owns.ready (fun hn => absurd (hl.symm.trans hn) (by simp))
    (fun j hj k hk => ?_) (fun j hj => ?_) (fun j hj hne => ?_) fun j s' hj _ hv => hQ s' ?_
  · rw [hi hj] at hk ⊢
    obtain ⟨b, hb, hu, -⟩ := ho.owns.ok.block k hk
    exact ⟨b, hb, hu⟩
  · rw [hi hj]
    exact ho.owns.ok.inj
  · rw [hi hj, ho.freelist, Function.update_self] at hne
    exact absurd rfl hne
  · rw [hv, hi hj]

theorem FileOpen.transfers (hu : FileOpen v₀ f i h s.view) {s' : Sys}
    (hs : Relation.ReflTransGen (Transfer h) s s') : FileOpen v₀ f i h s'.view := by
  induction hs with
  | refl => exact hu
  | tail _ hstep ih =>
    obtain ⟨op, r, hop, hr, hshort⟩ := hstep
    exact ((ih.wp_exec hop).mono (fun _ _ => trivial) fun _ _ h => h).returns hr hshort

end

/-- `s'` is `s` again, but for what inode `i` and the blocks that no other inode refers to hold. -/
structure Restored (s s' : Sys) (i : Fin NUM_INODES) : Prop where
  inode_freelist : s'.view.super.inode_freelist = s.view.super.inode_freelist
  datablock_freelist : s'.view.super.datablock_freelist = s.view.super.datablock_freelist
  handles : s'.file_handle_array = s.file_handle_array
  inodes : ∀ j ≠ i, s'.view.inode j = s.view.inode j
  blocks : ∀ j ≠ i, ∀ b, (s.view.inode j).Refs b → s'.view.block b = s.view.block b

theorem create_returns {s : Sys} (hs : s.view.Ready) (f : CString)
    (hfree : ∃ i, s.view.super.inode_freelist i = INODE_FREE) :
    ∃ (i : Fin NUM_INODES) (s₁ : Sys), Returns (simplefs_create f) s (i : ℕ) s₁ ∧
      s.view.super.inode_freelist i = INODE_FREE ∧
      (∀ j < i, s.view.super.inode_freelist j ≠ INODE_FREE) ∧
      s₁.view = s.view.createInode i f := by
  have hwp := wp_create (E := fun _ => False) hs (f := f) (Q := fun r s₁ =>
    ∃ i : Fin NUM_INODES, r = (i : ℕ) ∧ s.view.super.inode_freelist i = INODE_FREE ∧
      (∀ j < i, s.view.super.inode_freelist j ≠ INODE_FREE) ∧ s₁.view = s.view.createInode i f)
    (fun hn => absurd hfree (by simpa using hn)) fun i s₁ hi hlt hv => ⟨i, rfl, hi, hlt, hv⟩
  obtain ⟨_, s₁, hr, i, rfl, hrest⟩ := hwp.total
  exact ⟨i, s₁, hr, hrest⟩

theorem open_returns {s : Sys} (hs : s.view.Ready) {f : CString} {i : Fin NUM_INODES}
    (hl : s.view.lookup f = some i) (hclosed : ∃ h, (s.view.handle h).inode_number = -1) :
    ∃ (h : Fin MAX_OPEN_FILES) (s₂ : Sys), Returns (simplefs_open f) s (h : ℕ) s₂ ∧
      (s.view.handle h).inode_number = -1 ∧ s₂.view = s.view.setHandle h ⟨0, (i : ℕ)⟩ := by
  obtain ⟨g, hg⟩ := hclosed
  have hwp := wp_open (E := fun _ => False) hs (f := f) (Q := fun r s₂ =>
    ∃ h : Fin MAX_OPEN_FILES, r = (h : ℕ) ∧ (s.view.handle h).inode_number = -1 ∧
      s₂.view = s.view.setHandle h ⟨0, (i : ℕ)⟩)
    (fun hn => absurd (hl.symm.trans hn) (by simp)) (fun hn => absurd hg (hn g))
    fun j h s₂ hj hh _ hv => by
      obtain rfl : i = j := Option.some.inj (hl.symm.trans hj)
      exact ⟨h, rfl, hh, hv⟩
  obtain ⟨_, s₂, hr, h, rfl, hrest⟩ := hwp.total
  exact ⟨h, s₂, hr, hrest⟩

/-- Deleting the file once its handle is closed. -/
theorem View.Ongoing.restored {s s' : Sys} {f : CString} {i : Fin NUM_INODES}
    {h : Fin MAX_OPEN_FILES} {v : View} (ho : s.view.Ongoing f i h v)
    (hi : s.view.super.inode_freelist i = INODE_FREE) (hh : s.view.handle h = v.handle h)
    (hv : s'.view = v.deleteInode i) : Restored s s' i := by
  refine ⟨?_, funext fun b => ?_, ?_, fun j hj => ?_, fun j hj b hr => ?_⟩
  · rw [hv, View.deleteInode_inode_freelist, ho.freelist, Function.update_idem, ← hi,
      Function.update_eq_self]
  · rw [hv, View.deleteInode_datablock_freelist, ho.marks b]
    by_cases hr : (v.inode i).Refs b
    · rw [if_pos hr, ho.fresh b hr]
    · rw [if_neg hr, if_neg hr]
  · rw [view_handle, view_handle, hv, View.deleteInode_handle]
    funext g
    by_cases hg : g = h
    · rw [hg, hh]
    · exact ho.handles g hg
  · rw [hv, View.deleteInode_inode, Function.update_of_ne hj, ho.others j hj]
  · rw [hv, View.deleteInode_block]
    refine ho.frame b fun hri => ho.owns.apart j hj b hri ?_
    rwa [ho.others j hj]

/-- A file that is created, opened, used and closed leaves no trace once it is deleted. -/
theorem delete_undoes_create {s : Sys} (hs : s.view.Settled) {f : CString} (hf : f.Short)
    (hnew : ∀ i, s.view.InUse i → ¬ (s.view.inode i).carries f)
    (hfree : ∃ i, s.view.super.inode_freelist i = INODE_FREE)
    (hclosed : ∃ h, (s.view.handle h).inode_number = -1) :
    ∃ (i : Fin NUM_INODES) (h : Fin MAX_OPEN_FILES) (s₁ s₂ : Sys),
      Returns (simplefs_create f) s (i : ℕ) s₁ ∧ Returns (simplefs_open f) s₁ (h : ℕ) s₂ ∧
      ∀ s₃, Relation.ReflTransGen (Transfer h) s₂ s₃ →
        (∀ op : Op, op.Through s₃.view h → op.NoOverflow s₃.view h →
          ∃ r s', Returns op.exec s₃ r s') ∧
        ∃ s₄ s₅, Returns (simplefs_close (h : ℕ)) s₃ () s₄ ∧ Returns (simplefs_delete f) s₄ () s₅ ∧
          Restored s s₅ i := by
  obtain ⟨i, s₁, hr₁, hi, hlt, hv₁⟩ := create_returns hs.ready f hfree
  have hlookup {v : View} {h} (ho : s.view.Ongoing f i h v) : v.lookup f = some i :=
    lookup_created hs.marked hf hnew hlt ho.name ho.others
  have ho₁ (h) : s.view.Ongoing f i h s₁.view := by rw [hv₁]; exact hs.created hi
  obtain ⟨h, s₂, hr₂, hh, hv₂⟩ := open_returns (ho₁ 0).owns.ready (hlookup (ho₁ 0))
    (by simpa [hv₁] using hclosed)
  have hu₂ : FileOpen s.view f i h s₂.view := by
    rw [hv₂]
    refine ⟨(ho₁ h).setHandle _, ?_, ?_⟩
    · rw [View.OpenOn, View.setHandle_handle, Function.update_self]
    · rw [View.setHandle_handle, Function.update_self]
  refine ⟨i, h, s₁, s₂, hr₁, hr₂, fun s₃ h₃ => ⟨fun op hop hno => ?_, ?_⟩⟩
  · have hu₃ := hu₂.transfers h₃
    obtain ⟨r, s', hr, -⟩ := ((hu₃.wp_exec hop).mono (fun _ hov => hov hno) fun _ _ h => h).total
    exact ⟨r, s', hr⟩
  have hu₃ := hu₂.transfers h₃
  have hclosed : s.view.handle h = ⟨0, -1⟩ := by
    have hh' : (s.view.handle h).inode_number = -1 := by simpa [hv₁] using hh
    exact filehandle_t.ext (hs.closed h hh') hh'
  have hclose := wp_close (s := s₃) (E := fun _ => False) h
    (Q := fun _ s₄ => s₄.view = s₃.view.setHandle h ⟨0, -1⟩) fun _ hv => hv
  obtain ⟨_, s₄, hr₄, hv₄⟩ := hclose.total
  have ho₄ : s.view.Ongoing f i h s₄.view := by rw [hv₄]; exact hu₃.ongoing.setHandle _
  have hdelete := ho₄.wp_delete (E := fun _ => False) (hlookup ho₄)
    (Q := fun _ s₅ => s₅.view = s₄.view.deleteInode i) fun _ hv => hv
  obtain ⟨_, s₅, hr₅, hv₅⟩ := hdelete.total
  refine ⟨s₄, s₅, hr₄, hr₅, ho₄.restored hi ?_ hv₅⟩
  rw [hclosed, hv₄, View.setHandle_handle, Function.update_self]

theorem View.Fresh.settled {v : View} (h : v.Fresh) : v.Settled where
  ready := h.wf.ready
  used i k hk := absurd (h.direct_blocks i k) hk
  unshared i k j l hk := absurd (h.direct_blocks i k) hk
  marked := h.marked
  free i _ := ⟨h.file_size i, h.direct_blocks i⟩
  closed g _ := by rw [h.handle]

/-- A file of two blocks on a new disk. -/
theorem delete_undoes_create_write : ∃ s s₁ s₂ s₃ s₄ s₅ : Sys, simplefs.init s ∧
    Returns (simplefs_create nameA) s 0 s₁ ∧ Returns (simplefs_open nameA) s₁ 0 s₂ ∧
    Returns (Op.write 0 (fun _ => 7) 100).exec s₂ ⟨0, []⟩ s₃ ∧
    Returns (simplefs_close 0) s₃ () s₄ ∧ Returns (simplefs_delete nameA) s₄ () s₅ ∧
    Restored s s₅ 0 := by
  have h : ∃ s₀, Returns simplefs_formatDisk blankSys () s₀ ∧
      ∃ s₁, Returns (simplefs_create nameA) s₀ 0 s₁ ∧
      ∃ s₂, Returns (simplefs_open nameA) s₁ 0 s₂ ∧ s₂.view.OpenOn 0 0 ∧
        (s₂.view.handle 0).offset = (s₂.view.inode 0).file_size ∧
      ∃ s₃, Returns (Op.write 0 (fun _ => 7) 100).exec s₂ ⟨0, []⟩ s₃ ∧ True := by decide +kernel
  obtain ⟨s, h₀, s₁, h₁, s₂, h₂, hopen, hend, s₃, h₃, -⟩ := h
  have hinit : simplefs.init s := ⟨blankSys, h₀⟩
  have hfresh := fresh_of_init hinit
  obtain ⟨i, h, s₁', s₂', hr₁, hr₂, hall⟩ := delete_undoes_create hfresh.settled
    (f := nameA) (by decide)
    (fun i hi => absurd hi (View.not_inUse_of_free (hfresh.inode_freelist i)))
    ⟨0, hfresh.inode_freelist 0⟩ ⟨0, by rw [hfresh.handle]⟩
  obtain ⟨hi, rfl⟩ := hr₁.det h₁
  obtain ⟨hh, rfl⟩ := hr₂.det h₂
  obtain rfl : i = 0 := Fin.ext (by simpa using hi)
  obtain rfl : h = 0 := Fin.ext (by simpa using hh)
  have htransfer : Transfer 0 s₂' s₃ :=
    ⟨.write 0 _ 100, ⟨0, []⟩, ⟨rfl, 0, hopen, hend⟩, h₃, fun hs => absurd hs.1 (by decide)⟩
  obtain ⟨-, s₄, s₅, hr₄, hr₅, hrest⟩ := hall s₃ (.single htransfer)
  exact ⟨s, s₁', s₂', s₃, s₄, s₅, hinit, h₁, h₂, h₃, hr₄, hr₅, hrest⟩

end Simplefs

/-
  The table of open files: which file each handle was opened on.  A file is the create that
  made it.  Nothing tells a handle that its file was deleted, so a handle stays with its file
  only until then.
-/
import OSModules.Simplefs.Names

namespace Simplefs

open CInt Prog Runs

/-! ## Files and the handles on them -/

/-- The files so far, numbered by their creates. -/
structure FileIds where
  count : ℕ
  /-- The file that an inode in use belongs to. -/
  owner : Fin NUM_INODES → Option ℕ
  /-- The file that a handle was opened on; none if it was opened on a free inode. -/
  openedOn : Fin MAX_OPEN_FILES → Option ℕ
  deleted : ℕ → Prop

namespace FileIds

def init : FileIds := ⟨0, fun _ => none, fun _ => none, fun _ => False⟩

/-- The files after a call. -/
def next (g : FileIds) (v : View) : Op × Ret → FileIds
  | (.create _, r) =>
    { g with
      count := if 0 ≤ r.val then g.count + 1 else g.count
      owner := fun i => if r.val = (i : ℕ) then some g.count else g.owner i }
  | (.delete f, _) =>
    { g with
      owner := fun i => if v.lookup f = some i then none else g.owner i
      deleted := fun n => g.deleted n ∨ ∃ i, v.lookup f = some i ∧ g.owner i = some n }
  | (.open_ f, r) =>
    { g with
      openedOn := fun h => if r.val = (h : ℕ) then (v.lookup f).bind g.owner else g.openedOn h }
  | (.close h', _) =>
    { g with openedOn := fun h => if h' = (h : ℕ) then none else g.openedOn h }
  | _ => g

end FileIds

/-- Close, read, write and seek are given open handles; their other arguments are arbitrary. -/
def Op.OnOpen (v : View) : Op → Prop
  | .close h | .read h _ | .write h _ _ | .seek h _ =>
    ∃ g : Fin MAX_OPEN_FILES, h = (g : ℕ) ∧ (v.handle g).inode_number ≠ -1
  | _ => True

theorem Op.OnOpen.handleOk {v : View} (hw : v.Wf) {op : Op} (h : op.OnOpen v) : op.HandleOk v := by
  cases op with
  | create | delete | open_ => trivial
  | close h =>
    obtain ⟨g, rfl, -⟩ := h
    exact ⟨g, rfl⟩
  | read h | write h | seek h =>
    obtain ⟨g, rfl, hg⟩ := h
    obtain ⟨i, hi⟩ := (hw.handle g).resolve_left hg
    exact ⟨g, i, rfl, hi⟩

/-- The runs of such calls, with the files. -/
def handleRuns : LTS (Sys × FileIds) (Op × Ret) :=
  (simplefs.guard fun s l => l.1.OnOpen s.view).history .init fun g s l => g.next s.view l

/-! ## The invariant -/

/-- Each inode in use belongs to one file, and a handle on a file that is not deleted is open on
its inode. -/
structure View.Tracked (v : View) (g : FileIds) : Prop where
  owner : ∀ i, v.InUse i ↔ g.owner i ≠ none
  alive : ∀ i n, g.owner i = some n → n < g.count ∧ ¬ g.deleted n
  inj : ∀ i j n, g.owner i = some n → g.owner j = some n → i = j
  deleted : ∀ n, g.deleted n → n < g.count
  opened : ∀ h n, g.openedOn h = some n → n < g.count ∧ (¬ g.deleted n →
    ∃ i, v.OpenOn h i ∧ g.owner i = some n ∧ (v.handle h).offset ≤ (v.inode i).file_size)

theorem View.Fresh.tracked {v : View} (h : v.Fresh) : v.Tracked .init where
  owner i := iff_of_false (View.not_inUse_of_free (h.inode_freelist i)) (fun hn => hn rfl)
  alive i n hn := by simp [FileIds.init] at hn
  inj i j n hn := by simp [FileIds.init] at hn
  deleted n hn := hn.elim
  opened h n hn := by simp [FileIds.init] at hn

namespace View.Tracked
variable {v v' : View} {g : FileIds} (h : v.Tracked g)
include h

/-- Calls that leave the files and the handles alone, and shrink no file. -/
theorem of_same (hfree : v'.super.inode_freelist = v.super.inode_freelist)
    (hhandle : v'.handle = v.handle)
    (hsize : ∀ i, (v.inode i).file_size ≤ (v'.inode i).file_size) : v'.Tracked g where
  owner i := by
    rw [View.InUse, hfree]
    exact h.owner i
  alive := h.alive
  inj := h.inj
  deleted := h.deleted
  opened x n hn := by
    refine ⟨(h.opened x n hn).1, fun hd => ?_⟩
    obtain ⟨i, hi, ho, hle⟩ := (h.opened x n hn).2 hd
    refine ⟨i, by rw [View.OpenOn, hhandle]; exact hi, ho, ?_⟩
    rw [hhandle]
    exact hle.trans (hsize i)

theorem create {f : CString} {i : Fin NUM_INODES} (hi : v.super.inode_freelist i = INODE_FREE) :
    (v.createInode i f).Tracked (g.next v (.create f, ⟨(i : ℕ), []⟩)) := by
  have hnone : g.owner i = none := not_not.1 fun hn => View.not_inUse_of_free hi ((h.owner i).2 hn)
  have hid (j : Fin NUM_INODES) : ((i : ℕ) : ℤ) = (j : ℕ) ↔ j = i := by
    rw [Fin.ext_iff]; omega
  have hcount : (g.next v (.create f, ⟨(i : ℕ), []⟩)).count = g.count + 1 := by simp [FileIds.next]
  have howner (j) : (g.next v (.create f, ⟨(i : ℕ), []⟩)).owner j =
      if j = i then some g.count else g.owner j := by simp only [FileIds.next, hid]
  refine ⟨fun j => ?_, fun j n hn => ?_, fun j k n hj hk => ?_, fun n hn => ?_, fun x n hn => ?_⟩
  · rw [View.inUse_createInode, howner]
    by_cases hji : j = i
    · simp [hji]
    · simpa [hji] using h.owner j
  · rw [howner] at hn
    rw [hcount]
    by_cases hji : j = i
    · rw [if_pos hji, Option.some.injEq] at hn
      refine ⟨by omega, fun hd => ?_⟩
      have := h.deleted n hd
      omega
    · rw [if_neg hji] at hn
      have := h.alive j n hn
      exact ⟨by omega, this.2⟩
  · rw [howner] at hj hk
    by_cases hji : j = i <;> by_cases hki : k = i
    · rw [hji, hki]
    · rw [if_pos hji, Option.some.injEq] at hj
      rw [if_neg hki] at hk
      have := (h.alive k n hk).1
      omega
    · rw [if_neg hji] at hj
      rw [if_pos hki, Option.some.injEq] at hk
      have := (h.alive j n hj).1
      omega
    · rw [if_neg hji] at hj
      rw [if_neg hki] at hk
      exact h.inj j k n hj hk
  · have := h.deleted n hn
    rw [hcount]
    omega
  · obtain ⟨hlt, hopen⟩ := h.opened x n hn
    refine ⟨by rw [hcount]; omega, fun hd => ?_⟩
    obtain ⟨j, hj, ho, hle⟩ := hopen hd
    have hji : j ≠ i := by
      rintro rfl
      rw [hnone] at ho
      exact absurd ho (by simp)
    refine ⟨j, hj, by rw [howner, if_neg hji, ho], ?_⟩
    rw [View.createInode_inode, Function.update_of_ne hji]
    exact hle

theorem delete {f : CString} {i : Fin NUM_INODES} (hl : v.lookup f = some i) {r : Ret} :
    (v.deleteInode i).Tracked (g.next v (.delete f, r)) := by
  have howner (j) : (g.next v (.delete f, r)).owner j = if j = i then none else g.owner j := by
    simp only [FileIds.next, hl, Option.some.injEq, eq_comm]
  have hdel (n) : (g.next v (.delete f, r)).deleted n ↔ g.deleted n ∨ g.owner i = some n := by
    simp [FileIds.next, hl]
  have hsome {j n} (hn : (g.next v (.delete f, r)).owner j = some n) :
      j ≠ i ∧ g.owner j = some n := by
    rw [howner] at hn
    by_cases hji : j = i
    · simp [hji] at hn
    · exact ⟨hji, by rwa [if_neg hji] at hn⟩
  refine ⟨fun j => ?_, fun j n hn => ?_, fun j k n hj hk => ?_, fun n hn => ?_, fun x n hn => ?_⟩
  · rw [View.inUse_deleteInode, howner, h.owner j]
    by_cases hji : j = i <;> simp [hji]
  · obtain ⟨hji, hn⟩ := hsome hn
    obtain ⟨hlt, hd⟩ := h.alive j n hn
    refine ⟨hlt, fun hd' => ?_⟩
    rcases (hdel n).1 hd' with hd' | hi
    · exact hd hd'
    · exact hji (h.inj j i n hn hi)
  · exact h.inj j k n (hsome hj).2 (hsome hk).2
  · rcases (hdel n).1 hn with hd | hi
    · exact h.deleted n hd
    · exact (h.alive i n hi).1
  · obtain ⟨hlt, hopen⟩ := h.opened x n hn
    refine ⟨hlt, fun hd => ?_⟩
    rw [hdel, not_or] at hd
    obtain ⟨j, hj, ho, hle⟩ := hopen hd.1
    have hji : j ≠ i := by
      rintro rfl
      exact hd.2 ho
    refine ⟨j, hj, by rw [howner, if_neg hji, ho], ?_⟩
    rw [View.deleteInode_inode, Function.update_of_ne hji]
    exact hle

/-- A handle is set, to an inode of the file that it is on from now on. -/
theorem setHandle {x : Fin MAX_OPEN_FILES} {e : filehandle_t} {g' : FileIds}
    (hcount : g'.count = g.count) (howner : g'.owner = g.owner) (hdel : g'.deleted = g.deleted)
    (hother : ∀ y ≠ x, g'.openedOn y = g.openedOn y)
    (hx : ∀ n, g'.openedOn x = some n → n < g.count ∧ (¬ g.deleted n → ∃ i : Fin NUM_INODES,
      e.inode_number = (i : ℕ) ∧ g.owner i = some n ∧ e.offset ≤ (v.inode i).file_size)) :
    (v.setHandle x e).Tracked g' := by
  refine ⟨fun i => ?_, fun i n hn => ?_, fun i j n hi hj => ?_, fun n hn => ?_, fun y n hn => ?_⟩
  · rw [howner]
    exact h.owner i
  · rw [howner] at hn
    rw [hcount, hdel]
    exact h.alive i n hn
  · rw [howner] at hi hj
    exact h.inj i j n hi hj
  · rw [hdel] at hn
    rw [hcount]
    exact h.deleted n hn
  · rw [hcount, hdel, howner]
    by_cases hy : y = x
    · subst hy
      simp only [View.OpenOn, View.setHandle_handle, Function.update_self, View.setHandle_inode]
      exact hx n hn
    · rw [hother y hy] at hn
      simp only [View.OpenOn, View.setHandle_handle, Function.update_of_ne hy,
        View.setHandle_inode]
      exact h.opened y n hn

theorem step {op : Op} {r : Ret} (hw : v.Wf) (hst : v.Step op r v') :
    v'.Tracked (g.next v (op, r)) := by
  cases hst with
  | create_full hn =>
    have : ∀ i : Fin NUM_INODES, (-1 : ℤ) ≠ (i : ℕ) := fun i => by omega
    simpa [FileIds.next, this] using h
  | create i hi => exact h.create hi
  | delete_none hl => simpa [FileIds.next, hl] using h
  | delete i hl => exact h.delete hl
  | open_none hl | open_full hl =>
    have : ∀ x : Fin MAX_OPEN_FILES, (-1 : ℤ) ≠ (x : ℕ) := fun x => by omega
    simpa [FileIds.next, this] using h
  | @open_ f i x hl hx =>
    refine h.setHandle rfl rfl rfl (fun y hy => ?_) fun n hn => ?_
    · exact if_neg fun he => hy (handle_inj he).symm
    · have hn : g.owner i = some n := by simpa [FileIds.next, hl] using hn
      exact ⟨(h.alive i n hn).1, fun _ => ⟨i, rfl, hn, (hw.ok i).size_nonneg⟩⟩
  | close x =>
    refine h.setHandle rfl rfl rfl (fun y hy => ?_) fun n hn => ?_
    · exact if_neg fun he => hy (handle_inj he).symm
    · simp [FileIds.next] at hn
  | read | write_big | seek_out => exact h
  | write_full x i inode' data hi hle hg =>
    exact h.of_same hg.freelist hg.handle fun j => by rw [hg.table]
  | @write buf n x i v₁ inode' hi hle hg ho =>
    refine h.of_same hg.freelist hg.handle fun j => ?_
    rw [View.setInode_inode, hg.table]
    by_cases hj : j = i
    · rw [hj, Function.update_self, hg.size]
      omega
    · rw [Function.update_of_ne hj]
  | @seek n x i hi h₀ hle =>
    refine h.setHandle rfl rfl rfl (fun _ _ => rfl) fun n hn => ?_
    obtain ⟨hlt, hopen⟩ := h.opened x n hn
    refine ⟨hlt, fun hd => ?_⟩
    obtain ⟨j, hj, ho, -⟩ := hopen hd
    obtain rfl := hi.inj hj
    exact ⟨i, rfl, ho, hle⟩

end View.Tracked

/-! ## Runs -/

theorem tracked_of_reachable {p : Sys × FileIds} (h : handleRuns.Reachable p) :
    p.1.view.Wf ∧ p.1.view.Tracked p.2 := by
  refine LTS.Reachable.invariant (I := fun p => p.1.view.Wf ∧ p.1.view.Tracked p.2)
    (fun p hp => ?_) (fun p l p' ⟨hw, ht⟩ hs => ?_) h
  · obtain ⟨s, g⟩ := p
    obtain ⟨hs, rfl⟩ : simplefs.init s ∧ g = .init := hp
    exact ⟨(fresh_of_init hs).wf, (fresh_of_init hs).tracked⟩
  · obtain ⟨⟨hop, hr⟩, hg⟩ := hs
    obtain ⟨hst, hw'⟩ := step_view hw (hop.handleOk hw) hr
    rw [hg]
    exact ⟨hw', ht.step hw hst⟩

/-- A write changes no other inode and no block of another inode. -/
theorem View.Step.write_frame {v v' : View} {op : Op} {r : Ret} (hst : v.Step op r v') (hw : v.Wf)
    {h : Fin MAX_OPEN_FILES} {buf : ℕ → UInt8} {n : ℤ} (hop : op = .write (h : ℕ) buf n)
    {i : Fin NUM_INODES} (hi : v.OpenOn h i) {j : Fin NUM_INODES} (hj : j ≠ i) :
    v'.inode j = v.inode j ∧ ∀ b, (v.inode j).Refs b → v'.block b = v.block b := by
  cases hst with
  | write_big => exact ⟨rfl, fun _ _ => rfl⟩
  | write_full g k inode' data hk hle hg =>
    rw [Op.write.injEq] at hop
    obtain rfl := handle_inj hop.1
    obtain rfl := hi.inj hk
    exact ⟨by rw [hg.table], fun _ hb => hg.block_other hw.sound hj hb⟩
  | write g k v₁ inode' hk hle hg =>
    rw [Op.write.injEq] at hop
    obtain rfl := handle_inj hop.1
    obtain rfl := hi.inj hk
    refine ⟨?_, fun _ hb => ?_⟩
    · rw [View.setInode_inode, Function.update_of_ne hj, hg.table]
    · rw [View.setInode_block]
      exact hg.block_other hw.sound hj hb
  | _ => simp at hop

/-- What goes through a handle on inode `i` stays with its file: a write touches no other inode
and no block of another, a read delivers nothing but a part of the file. -/
structure Confined (s : Sys) (h : Fin MAX_OPEN_FILES) (i : Fin NUM_INODES) : Prop where
  write : ∀ buf n r s', Returns (Op.write (h : ℕ) buf n).exec s r s' → ∀ j ≠ i,
    s'.view.inode j = s.view.inode j ∧
      ∀ b, (s.view.inode j).Refs b → s'.view.block b = s.view.block b
  read : ∀ n r s', Returns (Op.read (h : ℕ) n).exec s r s' → s' = s ∧ (r.data = [] ∨
    (s.view.handle h).offset + n ≤ (s.view.inode i).file_size ∧
    r.data = ((s.view.content (s.view.inode i)).drop (s.view.handle h).offset.toNat).take n.toNat)

theorem View.Wf.confined {s : Sys} (hw : s.view.Wf) {h : Fin MAX_OPEN_FILES} {i : Fin NUM_INODES}
    (hi : s.view.OpenOn h i) : Confined s h i where
  write buf n r s' hr j hj := by
    have hop : (Op.write (h : ℕ) buf n).HandleOk s.view := ⟨h, i, rfl, hi⟩
    exact (step_view hw hop hr).1.write_frame hw rfl hi hj
  read n r s' hr := by
    have hpart := wp_read_part hw.ready hi (hw.ok i) (hw.offset h) (n := n)
    have : wp (Op.read (h : ℕ) n).exec s (fun _ => True) fun r s' => s' = s ∧ (r.data = [] ∨
        (s.view.handle h).offset + n ≤ (s.view.inode i).file_size ∧ r.data =
          ((s.view.content (s.view.inode i)).drop (s.view.handle h).offset.toNat).take n.toNat) := by
      simp only [Op.exec, wp_bind]
      exact ((reads_read s).and hpart).imp fun r s' h => h
    exact this.returns hr

/-- Every handle that was opened on a file, and whose file was not deleted since, is open on the
inode of that file, at an offset inside of it, and what goes through it stays with the file. -/
theorem handle_on_file {p : Sys × FileIds} (hp : handleRuns.Reachable p) :
    (∀ i, p.1.view.InUse i ↔ p.2.owner i ≠ none) ∧
    ∀ h n, p.2.openedOn h = some n → ¬ p.2.deleted n → ∃ i, p.1.view.OpenOn h i ∧
      p.1.view.InUse i ∧ p.2.owner i = some n ∧ 0 ≤ (p.1.view.handle h).offset ∧
      (p.1.view.handle h).offset ≤ (p.1.view.inode i).file_size ∧ Confined p.1 h i := by
  obtain ⟨hw, ht⟩ := tracked_of_reachable hp
  refine ⟨ht.owner, fun h n hn hd => ?_⟩
  obtain ⟨i, hi, ho, hle⟩ := (ht.opened h n hn).2 hd
  have hu : p.1.view.InUse i := (ht.owner i).2 (by rw [ho]; exact Option.some_ne_none n)
  exact ⟨i, hi, hu, ho, (hw.offset h).1, hle, hw.confined hi⟩

/-- The first file, opened. -/
theorem handle_on_first_file : ∃ p, handleRuns.Reachable p ∧ ∃ i, p.1.view.OpenOn 0 i ∧
    p.1.view.InUse i ∧ p.2.owner i = some 0 ∧ Confined p.1 0 i := by
  have h : ∃ s₀, Returns simplefs_formatDisk blankSys () s₀ ∧
      ∃ s₁, Returns (Op.create nameA).exec s₀ ⟨0, []⟩ s₁ ∧ s₁.view.lookup nameA = some 0 ∧
      ∃ s₂, Returns (Op.open_ nameA).exec s₁ ⟨0, []⟩ s₂ ∧ True := by decide +kernel
  obtain ⟨s₀, h₀, s₁, h₁, hl, s₂, h₂, -⟩ := h
  let g₁ := FileIds.init.next s₀.view (Op.create nameA, ⟨0, []⟩)
  let g₂ := g₁.next s₁.view (Op.open_ nameA, ⟨0, []⟩)
  have r₀ : handleRuns.Reachable (s₀, .init) := .init ⟨⟨blankSys, h₀⟩, rfl⟩
  have r₁ : handleRuns.Reachable (s₁, g₁) :=
    r₀.step (l := (Op.create nameA, Ret.mk 0 [])) ⟨⟨trivial, h₁⟩, rfl⟩
  have r₂ : handleRuns.Reachable (s₂, g₂) :=
    r₁.step (l := (Op.open_ nameA, Ret.mk 0 [])) ⟨⟨trivial, h₂⟩, rfl⟩
  have hopened : g₂.openedOn 0 = some 0 := by simp [g₂, g₁, FileIds.next, FileIds.init, hl]
  have halive : ¬ g₂.deleted 0 := id
  obtain ⟨-, hopen⟩ := handle_on_file r₂
  obtain ⟨i, hi, hu, ho, -, -, hc⟩ := hopen 0 0 hopened halive
  exact ⟨_, r₂, i, hi, hu, ho, hc⟩

/-- Deleting a file leaves its handle open on an inode that is free. -/
theorem handle_on_deleted_file : ∃ p, handleRuns.Run
    [(.create nameA, ⟨0, []⟩), (.open_ nameA, ⟨0, []⟩), (.delete nameA, ⟨0, []⟩)] p ∧
    ¬ ∀ h, (p.1.view.handle h).inode_number ≠ -1 → ∃ i n, p.1.view.OpenOn h i ∧
      p.1.view.InUse i ∧ p.2.openedOn h = some n ∧ p.2.owner i = some n ∧
      0 ≤ (p.1.view.handle h).offset ∧ (p.1.view.handle h).offset ≤ (p.1.view.inode i).file_size := by
  have h : ∃ s₀, Returns simplefs_formatDisk blankSys () s₀ ∧
      ∃ s₁, Returns (Op.create nameA).exec s₀ ⟨0, []⟩ s₁ ∧
      ∃ s₂, Returns (Op.open_ nameA).exec s₁ ⟨0, []⟩ s₂ ∧
      ∃ s₃, Returns (Op.delete nameA).exec s₂ ⟨0, []⟩ s₃ ∧ s₃.view.OpenOn 0 0 ∧
        ¬ s₃.view.InUse 0 := by decide +kernel
  obtain ⟨s₀, h₀, s₁, h₁, s₂, h₂, s₃, h₃, hopen, hfree⟩ := h
  let g₁ := FileIds.init.next s₀.view (Op.create nameA, ⟨0, []⟩)
  let g₂ := g₁.next s₁.view (Op.open_ nameA, ⟨0, []⟩)
  let g₃ := g₂.next s₂.view (Op.delete nameA, ⟨0, []⟩)
  have r₀ : handleRuns.Run [] (s₀, .init) := .init ⟨⟨blankSys, h₀⟩, rfl⟩
  have r₁ : handleRuns.Run _ (s₁, g₁) :=
    r₀.step (l := (Op.create nameA, Ret.mk 0 [])) ⟨⟨trivial, h₁⟩, rfl⟩
  have r₂ : handleRuns.Run _ (s₂, g₂) :=
    r₁.step (l := (Op.open_ nameA, Ret.mk 0 [])) ⟨⟨trivial, h₂⟩, rfl⟩
  have r₃ : handleRuns.Run _ (s₃, g₃) :=
    r₂.step (l := (Op.delete nameA, Ret.mk 0 [])) ⟨⟨trivial, h₃⟩, rfl⟩
  refine ⟨_, r₃, fun hall => ?_⟩
  obtain ⟨i, n, hi, hu, -⟩ := hall 0 (by rw [hopen]; decide)
  obtain rfl := hopen.inj hi
  exact hfree hu

end Simplefs

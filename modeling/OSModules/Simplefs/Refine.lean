/-
  simplefs refines the abstract file system, for clients that keep to its preconditions.
-/
import OSModules.Simplefs.Abstract

namespace Simplefs

open CInt Prog Runs

/-! ## The abstraction -/

/-- The entry of the abstract table that a handle stands for. -/
def View.Handles (v : View) (e : filehandle_t) : Entry → Prop
  | .closed => e.inode_number = -1
  | .on name off => ∃ i : Fin NUM_INODES, e.inode_number = (i : ℕ) ∧ v.InUse i ∧
      (v.inode i).cname = name ∧ e.offset = off
  | .orphan => e.inode_number ≠ -1

/-- The view stands for the abstract state: the inodes in use hold the files under their names. -/
structure Abs (v : View) (a : AbsFs) : Prop where
  wf : v.Wf
  marked : v.Marked
  terminated : v.Terminated
  empty : ∀ i, ¬ v.InUse i → (v.inode i).file_size = 0
  files : ∀ i, v.InUse i → ∃ c, a.files (v.inode i).cname = some c ∧ c.1 = v.content (v.inode i)
  named : ∀ n, a.files n ≠ none → ∃ i, v.InUse i ∧ (v.inode i).cname = n
  /-- No inode before one in use has its name, not even one that is free. -/
  first : ∀ i j, v.InUse i → j < i → (v.inode j).cname ≠ (v.inode i).cname
  handles : ∀ h, v.Handles (v.handle h) (a.handles h)

theorem abs_of_fresh {v : View} (h : v.Fresh) : Abs v .empty where
  wf := h.wf
  marked := h.marked
  terminated := h.terminated
  empty i _ := h.file_size i
  files i hi := absurd hi (View.not_inUse_of_free (h.inode_freelist i))
  named n hn := absurd rfl hn
  first i _ hi := absurd hi (View.not_inUse_of_free (h.inode_freelist i))
  handles g := by
    rw [h.handle]
    rfl

namespace Abs
variable {v : View} {a : AbsFs} (h : Abs v a)
include h

theorem unique {i j : Fin NUM_INODES} (hi : v.InUse i) (hj : v.InUse j)
    (hij : (v.inode i).cname = (v.inode j).cname) : i = j := by
  rcases lt_trichotomy i j with hlt | he | hlt
  · exact absurd hij (h.first j i hj hlt)
  · exact he
  · exact absurd hij.symm (h.first i j hi hlt)

/-- A lookup of a live name finds its inode. -/
theorem lookup {f : CString} (hf : a.files f.chars ≠ none) :
    ∃ i, v.lookup f = some i ∧ v.InUse i ∧ (v.inode i).cname = f.chars := by
  obtain ⟨i, hi, hn⟩ := h.named _ hf
  refine ⟨i, h.terminated.lookup_eq_some.2 ⟨hn, fun j hj => ?_⟩, hi, hn⟩
  rw [← hn]
  exact h.first i j hi hj

theorem lookup_ne_none {f : CString} (hf : a.files f.chars ≠ none) : v.lookup f ≠ none := by
  obtain ⟨i, hi, -⟩ := h.lookup hf
  simp [hi]

/-- The live names are those of the inodes in use. -/
theorem live_eq : a.live = (fun i => (v.inode i).cname) '' {i | v.InUse i} := by
  ext n
  constructor
  · intro hn
    obtain ⟨i, hi, hin⟩ := h.named n hn
    exact ⟨i, hi, hin⟩
  · rintro ⟨i, hi, rfl⟩
    obtain ⟨c, hc, -⟩ := h.files i hi
    simp [AbsFs.live, hc]

theorem ncard_live : a.live.ncard = {i | v.InUse i}.ncard := by
  rw [h.live_eq]
  exact Set.InjOn.ncard_image fun i hi j hj hij => h.unique hi hj hij

/-- Steps that change no names: the files may change, and the handles. -/
theorem of_sameNames {v' : View} {a' : AbsFs} (hs : v.SameNames v') (hw : v'.Wf) (hm : v'.Marked)
    (ht : v'.Terminated) (hempty : ∀ i, ¬ v.InUse i → (v'.inode i).file_size = 0)
    (hfiles : ∀ i, v.InUse i →
      ∃ c, a'.files (v.inode i).cname = some c ∧ c.1 = v'.content (v'.inode i))
    (hdom : ∀ n, a'.files n ≠ none → a.files n ≠ none)
    (hhandles : ∀ g, v.Handles (v'.handle g) (a'.handles g)) : Abs v' a' := by
  have huse (i) : v'.InUse i ↔ v.InUse i := by rw [View.InUse, hs.mark]; rfl
  have hname (i) : (v'.inode i).cname = (v.inode i).cname := inode_t.cname_congr (hs.name i)
  refine ⟨hw, hm, ht, fun i hi => ?_, fun i hi => ?_, fun n hn => ?_, fun i j hi hj => ?_,
    fun g => ?_⟩
  · exact hempty i (fun hu => hi ((huse i).2 hu))
  · rw [hname]
    exact hfiles i ((huse i).1 hi)
  · obtain ⟨i, hi, hin⟩ := h.named n (hdom n hn)
    exact ⟨i, (huse i).2 hi, (hname i).trans hin⟩
  · rw [hname, hname]
    exact h.first i j ((huse i).1 hi) hj
  · have hg := hhandles g
    generalize a'.handles g = e at hg ⊢
    cases e with
    | closed | orphan => exact hg
    | on name off =>
      obtain ⟨i, hi, hu, hn, ho⟩ := hg
      exact ⟨i, hi, (huse i).2 hu, (hname i).trans hn, ho⟩

theorem setHandle {g : Fin MAX_OPEN_FILES} {e : filehandle_t} {x : Entry}
    (hw : (v.setHandle g e).Wf) (he : v.Handles e x) : Abs (v.setHandle g e) (a.setHandle g x) := by
  refine h.of_sameNames (.of_eq rfl rfl) hw ⟨h.marked.mark, h.marked.status⟩ h.terminated h.empty
    h.files (fun _ => id) fun g' => ?_
  rw [View.setHandle_handle, AbsFs.setHandle_handles]
  by_cases hg : g' = g
  · rw [hg, Function.update_self, Function.update_self]
    exact he
  · rw [Function.update_of_ne hg, Function.update_of_ne hg]
    exact h.handles g'

theorem create {f : CString} {i : Fin NUM_INODES} (hf : f.Short) (hnew : a.files f.chars = none)
    (hi : v.super.inode_freelist i = INODE_FREE)
    (hlt : ∀ j < i, v.super.inode_freelist j ≠ INODE_FREE)
    (hw : (v.createInode i f).Wf) (hm : (v.createInode i f).Marked)
    (ht : (v.createInode i f).Terminated) :
    Abs (v.createInode i f) (a.setFile f.chars ⟨[], by decide⟩) := by
  have hfree : ¬ v.InUse i := View.not_inUse_of_free hi
  have hne {j} (hj : v.InUse j) : j ≠ i := fun he => hfree (by rwa [← he])
  -- no inode in use has the new name
  have hother {j} (hj : v.InUse j) : (v.inode j).cname ≠ f.chars := by
    intro he
    obtain ⟨c, hc, -⟩ := h.files j hj
    rw [he, hnew] at hc
    exact absurd hc (by simp)
  refine ⟨hw, hm, ht, fun j hj => ?_, fun j hj => ?_, fun n hn => ?_, fun j k hj hk => ?_,
    fun g => ?_⟩
  · rw [View.inUse_createInode, not_or] at hj
    rw [View.createInode_inode, Function.update_of_ne hj.1]
    exact h.empty j hj.2
  · rw [View.cname_createInode hf, AbsFs.setFile_files]
    rcases View.inUse_createInode.1 hj with rfl | hj
    · rw [if_pos rfl, Function.update_self]
      refine ⟨_, rfl, (List.length_eq_zero_iff.1 ?_).symm⟩
      rw [View.length_content, View.createInode_inode, Function.update_self]
      simp [inode_t.named, h.empty j hfree]
    · rw [if_neg (hne hj), Function.update_of_ne (hother hj), View.createInode_inode,
        Function.update_of_ne (hne hj)]
      exact h.files j hj
  · by_cases hnf : n = f.chars
    · exact ⟨i, View.inUse_createInode.2 (Or.inl rfl), by
        rw [View.cname_createInode hf, if_pos rfl, hnf]⟩
    · rw [AbsFs.setFile_files, Function.update_of_ne hnf] at hn
      obtain ⟨j, hj, hjn⟩ := h.named n hn
      exact ⟨j, View.inUse_createInode.2 (Or.inr hj), by
        rw [View.cname_createInode hf, if_neg (hne hj), hjn]⟩
  · rw [View.cname_createInode hf, View.cname_createInode hf]
    rcases View.inUse_createInode.1 hj with rfl | hj
    · -- all inodes before the new one are in use
      rw [if_neg (ne_of_lt hk), if_pos rfl]
      exact hother ((h.marked.mark k).resolve_right (hlt k hk))
    · rw [if_neg (hne hj)]
      by_cases hki : k = i
      · rw [if_pos hki]
        exact (hother hj).symm
      · rw [if_neg hki]
        exact h.first j k hj hk
  · have hg := h.handles g
    rw [View.createInode_handle, AbsFs.setFile_handles]
    generalize a.handles g = e at hg ⊢
    cases e with
    | closed | orphan => exact hg
    | on name off =>
      obtain ⟨j, hgj, hj, hjn, ho⟩ := hg
      refine ⟨j, hgj, View.inUse_createInode.2 (Or.inr hj), ?_, ho⟩
      rw [View.cname_createInode hf, if_neg (hne hj), hjn]

theorem delete {f : CString} {i : Fin NUM_INODES} (hi : v.InUse i)
    (hn : (v.inode i).cname = f.chars) (hw : (v.deleteInode i).Wf) (hm : (v.deleteInode i).Marked)
    (ht : (v.deleteInode i).Terminated) : Abs (v.deleteInode i) (a.remove f.chars) := by
  have hother {j} (hj : v.InUse j) (hji : j ≠ i) : (v.inode j).cname ≠ f.chars :=
    fun he => hji (h.unique hj hi (he.trans hn.symm))
  refine ⟨hw, hm, ht, fun j hj => ?_, fun j hj => ?_, fun n hn' => ?_, fun j k hj hk => ?_,
    fun g => ?_⟩
  · rw [View.deleteInode_inode]
    by_cases hji : j = i
    · rw [hji, Function.update_self]; rfl
    · rw [Function.update_of_ne hji]
      exact h.empty j fun hu => hj (View.inUse_deleteInode.2 ⟨hji, hu⟩)
  · obtain ⟨hji, hj⟩ := View.inUse_deleteInode.1 hj
    rw [View.cname_deleteInode, AbsFs.remove_files, Function.update_of_ne (hother hj hji),
      View.deleteInode_inode, Function.update_of_ne hji]
    exact h.files j hj
  · by_cases hnf : n = f.chars
    · rw [AbsFs.remove_files, hnf, Function.update_self] at hn'
      exact absurd rfl hn'
    · rw [AbsFs.remove_files, Function.update_of_ne hnf] at hn'
      obtain ⟨j, hj, hjn⟩ := h.named n hn'
      have hji : j ≠ i := fun he => hnf (by rw [← hjn, he, hn])
      exact ⟨j, View.inUse_deleteInode.2 ⟨hji, hj⟩, by rw [View.cname_deleteInode, hjn]⟩
  · rw [View.cname_deleteInode, View.cname_deleteInode]
    exact h.first j k (View.inUse_deleteInode.1 hj).2 hk
  · have hg := h.handles g
    rw [View.deleteInode_handle, AbsFs.remove_handles]
    generalize a.handles g = e at hg ⊢
    cases e with
    | closed | orphan => exact hg
    | on name off =>
      obtain ⟨j, hgj, hj, hjn, ho⟩ := hg
      simp only [AbsFs.orphan]
      by_cases hnf : name = f.chars
      · rw [if_pos hnf]
        simp only [View.Handles, hgj]
        omega
      · rw [if_neg hnf]
        have hji : j ≠ i := fun he => hnf (by rw [← hjn, he, hn])
        exact ⟨j, hgj, View.inUse_deleteInode.2 ⟨hji, hj⟩, by rw [View.cname_deleteInode, hjn], ho⟩

/-- A handle on a file. -/
theorem on {g : Fin MAX_OPEN_FILES} {name : Name} {off : ℕ} (hg : a.handles g = .on name off) :
    ∃ i c, v.OpenOn g i ∧ v.InUse i ∧ (v.inode i).cname = name ∧ (v.handle g).offset = off ∧
      a.files name = some c ∧ c.1 = v.content (v.inode i) ∧
      (v.inode i).file_size = c.1.length := by
  have hh := h.handles g
  rw [hg] at hh
  obtain ⟨i, hi, hu, hn, ho⟩ := hh
  obtain ⟨c, hc, he⟩ := h.files i hu
  have hsize := (h.wf.ok i).size_nonneg
  refine ⟨i, c, hi, hu, hn, ho, by rw [← hn, hc], he, ?_⟩
  rw [he, View.length_content]
  omega

theorem handleOk {op : Op} (hop : op.Pre a) : op.HandleOk v := by
  cases op with
  | create | delete | open_ => trivial
  | close n =>
    obtain ⟨g, -, -, rfl, -⟩ := hop
    exact ⟨g, rfl⟩
  | read n | seek n =>
    obtain ⟨g, name, off, rfl, hg, -⟩ := hop
    obtain ⟨i, -, hi, -⟩ := h.on hg
    exact ⟨g, i, rfl, hi⟩
  | write n =>
    obtain ⟨g, name, off, c, rfl, hg, -⟩ := hop
    obtain ⟨i, -, hi, -⟩ := h.on hg
    exact ⟨g, i, rfl, hi⟩

/-- No fault can stop a legal call. -/
theorem not_mayFault {op : Op} (hop : op.Pre a) {e : Fault} : ¬ op.MayFault v e := by
  cases op with
  | create | open_ | close | seek => exact id
  | delete f =>
    rintro ⟨-, i, hl, hu⟩
    obtain ⟨j, hlj, hj, -⟩ := h.lookup hop.2
    obtain rfl : i = j := Option.some.inj (hl.symm.trans hlj)
    exact hu hj
  | read n k =>
    rintro ⟨g', hg', hn⟩
    obtain ⟨g, name, off, rfl, hg, -, hint⟩ := hop
    obtain ⟨i, c, hi, -, -, ho, -⟩ := h.on hg
    obtain rfl := handle_inj hg'
    rw [ho] at hn
    exact hn hint
  | write n buf k =>
    rintro ⟨-, g', i', hg', hi', hle, hlt⟩
    obtain ⟨g, name, off, c, rfl, hg, hc, hoff, hn, hint⟩ := hop
    obtain ⟨i, c', hi, -, -, ho, hc', -, hsize⟩ := h.on hg
    obtain rfl := handle_inj hg'
    obtain rfl := hi.inj hi'
    obtain rfl : c = c' := Option.some.inj (hc.symm.trans hc')
    rw [ho, int32_eq hint] at hle
    omega

omit h in
/-- A sum that overflows is negative, so it is rejected as one past the end would be. -/
theorem int32_add_offset {o n : ℤ} (ho : 0 ≤ o ∧ o ≤ 256) (hn : InInt n) :
    int32 (o + n) = o + n ∨ (int32 (o + n) < 0 ∧ 256 < o + n) := by
  unfold InInt at hn
  unfold int32
  omega

/-! ## Steps through a handle -/

/-- A write that runs out of blocks leaves the files as they were. -/
theorem write_full {i : Fin NUM_INODES} {v' : View} {inode' : inode_t} {data : List UInt8}
    (hg : v.Grown (v.inode i) v' inode' data) (hw : v'.Wf) (hm : v'.Marked) (ht : v'.Terminated) :
    Abs v' a := by
  refine h.of_sameNames (.of_eq hg.freelist hg.table) hw hm ht (fun j hj => ?_) (fun j hj => ?_)
    (fun _ => id) fun g => ?_
  · rw [hg.table]
    exact h.empty j hj
  · obtain ⟨c, hc, he⟩ := h.files j hj
    refine ⟨c, hc, he.trans ?_⟩
    rw [hg.table]
    by_cases hji : j = i
    · rw [hji, hg.content_before (h.wf.ok i)]
    · rw [hg.content_other h.wf.sound hji]
  · rw [hg.handle]
    exact h.handles g

/-- A write appends to its file. -/
theorem write {i : Fin NUM_INODES} (hu : v.InUse i) {c : Content}
    (hc : a.files (v.inode i).cname = some c) (he : c.1 = v.content (v.inode i)) {v₁ : View}
    {inode' : inode_t} {data : List UInt8} (hg : v.Grown (v.inode i) v₁ inode' data)
    (hlen : (c.1 ++ data).length ≤ 256) (hw : (v₁.setInode i inode').Wf)
    (hm : (v₁.setInode i inode').Marked) (ht : (v₁.setInode i inode').Terminated) :
    Abs (v₁.setInode i inode') (a.setFile (v.inode i).cname ⟨c.1 ++ data, hlen⟩) := by
  refine h.of_sameNames hg.sameNames hw hm ht (fun j hj => ?_) (fun j hj => ?_) (fun m hm => ?_)
    fun g => ?_
  · have hji : j ≠ i := fun he => hj (by rwa [he])
    rw [View.setInode_inode, Function.update_of_ne hji, hg.table]
    exact h.empty j hj
  · rw [AbsFs.setFile_files, View.setInode_content, View.setInode_inode]
    by_cases hji : j = i
    · rw [hji, Function.update_self, Function.update_self]
      refine ⟨_, rfl, ?_⟩
      rw [hg.content_after (h.wf.ok i).size_nonneg, ← he]
    · have hne : (v.inode j).cname ≠ (v.inode i).cname := fun hn => hji (h.unique hj hu hn)
      rw [Function.update_of_ne hne, Function.update_of_ne hji, hg.table, hg.content_other h.wf.sound hji]
      exact h.files j hj
  · by_cases hmn : m = (v.inode i).cname
    · rw [hmn, hc]
      exact Option.some_ne_none _
    · rwa [AbsFs.setFile_files, Function.update_of_ne hmn] at hm
  · rw [View.setInode_handle, hg.handle]
    exact h.handles g

/-- A read delivers the part of the file that it asks for, or nothing. -/
theorem read {g : Fin MAX_OPEN_FILES} {name : Name} {off : ℕ} (hg : a.handles g = .on name off)
    {n : ℤ} (hn : 0 ≤ n) (hint : InInt (off + n)) {i : Fin NUM_INODES} (hi : v.OpenOn g i) {r : Ret}
    (hr : InInt ((v.handle g).offset + n) →
      ((v.inode i).file_size < (v.handle g).offset + n → r = ⟨-1, []⟩) ∧
      ((v.handle g).offset + n ≤ (v.inode i).file_size → r = ⟨0, (List.range n.toNat).map
        fun k => v.byteAt (v.inode i) ((v.handle g).offset.toNat + k)⟩)) :
    AbsFs.Step a (.read (g : ℕ) n) r a := by
  obtain ⟨j, c, hj, -, -, ho, hc, he, hsize⟩ := h.on hg
  obtain rfl := hi.inj hj
  rw [ho, hsize, Int.toNat_natCast] at hr
  obtain ⟨hr₁, hr₂⟩ := hr hint
  by_cases hle : off + n ≤ c.1.length
  · have hlen : ((off + n.toNat : ℕ) : ℤ) ≤ (v.inode i).file_size := by
      rw [hsize]; push_cast; omega
    have hslice := v.content_slice (v.inode i) hlen
    rw [hr₂ hle, ← hslice, ← he]
    exact .read g hg hc hle
  · rw [hr₁ (not_le.1 hle)]
    exact .read_past g hg hc (not_le.1 hle)

/-- A new handle is closed in the abstract table. -/
theorem handles_closed {g : Fin MAX_OPEN_FILES} (hh : (v.handle g).inode_number = -1) :
    a.handles g = .closed := by
  have hg := h.handles g
  generalize a.handles g = e at hg ⊢
  cases e with
  | closed => rfl
  | on name off =>
    obtain ⟨k, hk, -⟩ := hg
    omega
  | orphan => exact absurd hh hg

/-- Each call of a legal client is a call of the abstract file system. -/
theorem step {op : Op} {r : Ret} {v' : View} (hop : op.Pre a) (hst : v.Step op r v') :
    ∃ a', AbsFs.Step a op r a' ∧ Abs v' a' := by
  have hw' := hst.wf h.wf
  have hm' := hst.marked h.marked
  have ht' : v'.Terminated := by
    refine hst.terminated ?_ h.terminated
    cases op with
    | create | delete | open_ => exact hop.1
    | close | read | write | seek => trivial
  cases hst with
  | create_full hn =>
    refine ⟨a, .create_full ?_, h⟩
    have : {i | v.InUse i} = Set.univ :=
      Set.eq_univ_of_forall fun i => (h.marked.mark i).resolve_right (hn i)
    rw [h.ncard_live, this, Set.ncard_univ, Nat.card_fin]
  | create i hi hlt =>
    refine ⟨_, .create (Int.natCast_nonneg _) ?_, h.create hop.1 hop.2 hi hlt hw' hm' ht'⟩
    have : {i | v.InUse i} ⊂ Set.univ :=
      (Set.ssubset_univ_iff).2 fun he =>
        View.not_inUse_of_free hi (Set.eq_univ_iff_forall.1 he i)
    have hlt := Set.ncard_lt_ncard this
    rwa [← h.ncard_live, Set.ncard_univ, Nat.card_fin] at hlt
  | delete_none hl => exact absurd hl (h.lookup_ne_none hop.2)
  | delete i hl hu =>
    have hn := (h.terminated.lookup_eq_some.1 hl).1
    exact ⟨_, .delete, h.delete hu hn hw' hm' ht'⟩
  | open_none hl => exact absurd hl (h.lookup_ne_none hop.2)
  | open_full hn =>
    refine ⟨a, .open_full fun g hg => ?_, h⟩
    have hh := h.handles g
    rw [hg] at hh
    exact hn g hh
  | open_ i g hl hh =>
    obtain ⟨j, hj, hu, hn⟩ := h.lookup hop.2
    obtain rfl : i = j := Option.some.inj (hl.symm.trans hj)
    exact ⟨_, .open_ g (h.handles_closed hh), h.setHandle hw' ⟨i, rfl, hu, hn, rfl⟩⟩
  | close g => exact ⟨_, .close g, h.setHandle hw' rfl⟩
  | @read n r g i hi hr =>
    obtain ⟨g', name, off, hg', hg, hn, hint⟩ := hop
    obtain rfl := handle_inj hg'
    exact ⟨a, h.read hg hn hint hi hr, h⟩
  | @write_big buf n g i hi hb =>
    obtain ⟨g', name, off, c, hg', hg, hc, hoff, hn, hint⟩ := hop
    obtain rfl := handle_inj hg'
    obtain ⟨j, -, -, -, -, ho, -⟩ := h.on hg
    have hlen := c.2
    rw [ho, int32_eq hint] at hb
    exact ⟨a, .write_fail g (by omega), h⟩
  | @write_full buf n _ g i inode' data hi hle hg hd =>
    exact ⟨a, .write_fail g (by omega), h.write_full hg hw' hm' ht'⟩
  | @write buf n g i v₁ inode' hi hle hg ho =>
    obtain ⟨g', name, off, c, hg', hgo, hc, hoff, hn, hint⟩ := hop
    obtain rfl := handle_inj hg'
    obtain ⟨j, c', hj, hu, rfl, hoff', hc', he, hsize⟩ := h.on hgo
    obtain rfl := hi.inj hj
    obtain rfl : c = c' := Option.some.inj (hc.symm.trans hc')
    rw [hoff', int32_eq hint] at hle
    have hlen : (c.1 ++ (List.range n.toNat).map buf).length ≤ 256 := by
      rw [List.length_append, List.length_map, List.length_range]
      omega
    exact ⟨_, .write g hgo hc hlen, h.write hu hc he hg hlen hw' hm' ht'⟩
  | @seek_out n g i hi hout =>
    obtain ⟨g', name, off, hg', hg, hn⟩ := hop
    obtain rfl := handle_inj hg'
    obtain ⟨j, c, hj, -, -, ho, hc, he, hsize⟩ := h.on hg
    obtain rfl := hi.inj hj
    refine ⟨a, .seek_out g hg hc ?_, h⟩
    have := int32_add_offset (h.wf.offset g) hn
    have hlen := c.2
    rw [ho] at this hout
    omega
  | @seek n g i hi h₀ hle =>
    obtain ⟨g', name, off, hg', hg, hn⟩ := hop
    obtain rfl := handle_inj hg'
    obtain ⟨j, c, hj, hu, hname, ho, hc, he, hsize⟩ := h.on hg
    obtain rfl := hi.inj hj
    have := int32_add_offset (h.wf.offset g) hn
    rw [ho] at this h₀ hle
    have hoff : off + n = ((off + n).toNat : ℕ) := by omega
    refine ⟨_, .seek g hg hc hoff (by omega), h.setHandle hw' ⟨i, rfl, hu, hname, ?_⟩⟩
    rw [ho]
    simp only
    omega

end Abs

/-- Every run of a legal client is a run of the abstract file system, ends in a state that stands
for the abstract one, and the next legal call returns. -/
theorem simplefs_refines {tr : List (Op × Ret)} {s : Sys} (h : simplefs.Run tr s)
    (hlegal : absFs.Legal (fun a l => l.1.Pre a) tr) :
    ∃ a, absFs.Run tr a ∧ Abs s.view a ∧ ∀ op : Op, op.Pre a → ∃ r s', Returns op.exec s r s' := by
  have hstep : ∀ (s : Sys) a (l : Op × Ret) s', Abs s.view a → l.1.Pre a → simplefs.step s l s' →
      ∃ a', absFs.step a l a' ∧ Abs s'.view a' := by
    rintro s a ⟨op, r⟩ s' ha hop hs
    exact ha.step hop (step_view ha.wf (ha.handleOk hop) hs).1
  obtain ⟨a, hrun, ha⟩ := h.simulate (fun s hs => ⟨.empty, rfl, abs_of_fresh (fresh_of_init hs)⟩)
    hstep hlegal
  refine ⟨a, hrun, ha, fun op hop => ?_⟩
  obtain ⟨r, s', hr, -⟩ := ((wp_exec ha.wf.sound (ha.handleOk hop)).mono
    (fun e he => ha.not_mayFault hop he) fun _ _ h => h).total
  exact ⟨r, s', hr⟩

theorem AbsFs.Step.of_create {a a' : AbsFs} {f : CString} {r : Ret} (h : Step a (.create f) r a')
    (hr : 0 ≤ r.val) : a' = a.setFile f.chars ⟨[], by decide⟩ := by
  generalize he : Op.create f = op at h
  cases h <;> simp_all

theorem AbsFs.Step.of_open {a a' : AbsFs} {f : CString} {r : Ret} {h : Fin MAX_OPEN_FILES}
    (hs : Step a (.open_ f) r a') (hr : r.val = (h : ℕ)) : a' = a.setHandle h (.on f.chars 0) := by
  generalize he : Op.open_ f = op at hs
  cases hs with
  | open_ g =>
    obtain rfl := handle_inj hr
    simp_all
  | open_full => simp only at hr; omega
  | _ => simp at he

theorem AbsFs.Step.of_write {a a' : AbsFs} {h : Fin MAX_OPEN_FILES} {buf : ℕ → UInt8} {n : ℤ}
    {r : Ret} (hs : Step a (.write (h : ℕ) buf n) r a') (hr : 0 ≤ r.val) {name : Name} {off : ℕ}
    {c : Content} (hh : a.handles h = .on name off) (hc : a.files name = some c) :
    ∃ hlen, a' = a.setFile name ⟨c.1 ++ (List.range n.toNat).map buf, hlen⟩ := by
  generalize he : Op.write (h : ℕ) buf n = op at hs
  cases hs with
  | write g hg hc' hlen =>
    simp only [Op.write.injEq] at he
    obtain ⟨hg', rfl, rfl⟩ := he
    obtain rfl := handle_inj hg'
    rw [hh] at hg
    obtain ⟨rfl, rfl⟩ := Entry.on.inj hg
    rw [hc] at hc'
    obtain rfl := Option.some.inj hc'
    exact ⟨hlen, rfl⟩
  | write_fail => simp only at hr; omega
  | _ => simp at he

/-! ## The first file -/

section
variable {f : CString} {a : AbsFs}

theorem run_create (h : absFs.Run [(.create f, ⟨0, []⟩)] a) :
    a = AbsFs.empty.setFile f.chars ⟨[], by decide⟩ := by
  have h : absFs.Run ([] ++ [(Op.create f, Ret.mk 0 [])]) a := h
  obtain ⟨b, hb, hs⟩ := h.snoc_inv
  obtain rfl : b = .empty := hb.nil_inv
  exact AbsFs.Step.of_create hs le_rfl

theorem run_open (h : absFs.Run [(.create f, ⟨0, []⟩), (.open_ f, ⟨0, []⟩)] a) :
    a = (AbsFs.empty.setFile f.chars ⟨[], by decide⟩).setHandle 0 (.on f.chars 0) := by
  have h : absFs.Run ([(Op.create f, Ret.mk 0 [])] ++ [(Op.open_ f, Ret.mk 0 [])]) a := h
  obtain ⟨b, hb, hs⟩ := h.snoc_inv
  obtain rfl := run_create hb
  exact AbsFs.Step.of_open (h := 0) hs rfl

theorem run_write {buf : ℕ → UInt8} {n : ℤ} (h : absFs.Run [(.create f, ⟨0, []⟩),
      (.open_ f, ⟨0, []⟩), (.write 0 buf n, ⟨0, []⟩)] a) :
    ∃ c, a.files f.chars = some c ∧ c.1 = (List.range n.toNat).map buf := by
  have h : absFs.Run ([(Op.create f, Ret.mk 0 []), (Op.open_ f, Ret.mk 0 [])] ++
    [(Op.write 0 buf n, Ret.mk 0 [])]) a := h
  obtain ⟨b, hb, hs⟩ := h.snoc_inv
  obtain rfl := run_open hb
  generalize hb :
    (AbsFs.empty.setFile f.chars ⟨[], by decide⟩).setHandle 0 (.on f.chars 0) = b at hs
  have hh : b.handles 0 = .on f.chars 0 := by
    rw [← hb, AbsFs.setHandle_handles, Function.update_self]
  have hc : b.files f.chars = some ⟨[], by decide⟩ := by
    rw [← hb, AbsFs.setHandle_files, AbsFs.setFile_files, Function.update_self]
  obtain ⟨hlen, rfl⟩ := AbsFs.Step.of_write (h := 0) hs le_rfl hh hc
  exact ⟨_, by rw [AbsFs.setFile_files, Function.update_self], by simp⟩

/-- To create, open and write the first file is legal. -/
theorem legal_write (hf : f.Short) (buf : ℕ → UInt8) {n : ℤ} (h0 : 0 ≤ n) (hn : InInt n) :
    absFs.Legal (fun a l => l.1.Pre a) [(.create f, ⟨0, []⟩), (.open_ f, ⟨0, []⟩),
      (.write 0 buf n, ⟨0, []⟩)] := by
  have l₁ : absFs.Legal (fun a l => l.1.Pre a) [(.create f, ⟨0, []⟩)] := by
    refine LTS.Legal.nil.snoc fun b hb => ?_
    obtain rfl : b = .empty := hb.nil_inv
    exact ⟨hf, rfl⟩
  have l₂ := l₁.snoc (l := (Op.open_ f, Ret.mk 0 [])) fun b hb => by
    obtain rfl := run_create hb
    exact ⟨hf, by simp [AbsFs.setFile]⟩
  refine l₂.snoc (l := (Op.write 0 buf n, Ret.mk 0 [])) fun b hb => ?_
  obtain rfl := run_open hb
  refine ⟨0, f.chars, 0, ⟨[], by decide⟩, rfl, ?_, ?_, rfl, h0, by simpa using hn⟩
  · simp [AbsFs.setHandle]
  · simp [AbsFs.setHandle, AbsFs.setFile]

end

/-- A file is created, opened and written, and the abstract file holds what was written. -/
theorem simplefs_refines_write : ∃ s a, simplefs.Run [(.create nameA, ⟨0, []⟩),
      (.open_ nameA, ⟨0, []⟩), (.write 0 (fun _ => 7) 100, ⟨0, []⟩)] s ∧
    absFs.Run [(.create nameA, ⟨0, []⟩), (.open_ nameA, ⟨0, []⟩),
      (.write 0 (fun _ => 7) 100, ⟨0, []⟩)] a ∧ Abs s.view a := by
  have h : ∃ s₀, Returns simplefs_formatDisk blankSys () s₀ ∧
      ∃ s₁, Returns (Op.create nameA).exec s₀ ⟨0, []⟩ s₁ ∧
      ∃ s₂, Returns (Op.open_ nameA).exec s₁ ⟨0, []⟩ s₂ ∧
      ∃ s₃, Returns (Op.write 0 (fun _ => 7) 100).exec s₂ ⟨0, []⟩ s₃ ∧ True := by decide +kernel
  obtain ⟨s₀, h₀, s₁, h₁, s₂, h₂, s₃, h₃, -⟩ := h
  have r₀ : simplefs.Run [] s₀ := .init ⟨blankSys, h₀⟩
  have r₁ : simplefs.Run _ s₁ := r₀.step (l := (Op.create nameA, Ret.mk 0 [])) h₁
  have r₂ : simplefs.Run _ s₂ := r₁.step (l := (Op.open_ nameA, Ret.mk 0 [])) h₂
  have r₃ : simplefs.Run _ s₃ := r₂.step (l := (Op.write 0 (fun _ => 7) 100, Ret.mk 0 [])) h₃
  obtain ⟨a, ha, hab, -⟩ := simplefs_refines r₃ (legal_write (by decide) _ (by decide) (by decide))
  exact ⟨s₃, a, r₃, ha, hab⟩

end Simplefs

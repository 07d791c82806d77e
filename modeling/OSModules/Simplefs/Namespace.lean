/-
  The namespace: which names a client may think live, and when lookups agree.  A lookup scans
  the names of all inodes, and a deleted inode keeps its name, so they agree exactly as long as
  no live name is deleted or created again.
-/
import OSModules.Simplefs.Names

namespace Simplefs

open CInt Prog Runs

/-! ## Live names -/

/-- The live names after a call: a create that returns a file adds its name, a delete removes
its name. -/
def liveNext (live : Set (List UInt8)) (_ : Sys) : Op × Ret → Set (List UInt8)
  | (.create f, r) => if 0 ≤ r.val then insert f.chars live else live
  | (.delete f, _) => live \ {f.chars}
  | _ => live

/-- The calls that create, open, close and delete files with short names. -/
def Op.OnNames : Op → Prop
  | .create f | .delete f | .open_ f => f.Short
  | .close _ => True
  | _ => False

/-- The runs of such calls, with the live names. -/
def nameRuns : LTS (Sys × Set (List UInt8)) (Op × Ret) :=
  (simplefs.guard fun _ l => l.1.OnNames).history ∅ liveNext

/-- Lookups agree with the live names. -/
structure Namespace (s : Sys) (live : Set (List UInt8)) : Prop where
  /-- With a handle left, `simplefs_open` finds exactly the live names. -/
  opens : (∃ h, (s.view.handle h).inode_number = -1) → ∀ f : CString, f.Short →
    ∃ r s', Returns (simplefs_open f) s r s' ∧ (0 ≤ r ↔ f.chars ∈ live)
  /-- Deleting any other name does nothing. -/
  dead : ∀ f : CString, f.Short → f.chars ∉ live → Returns (simplefs_delete f) s () s
  unique : ∀ i j (f : CString), f.Short → s.view.InUse i → s.view.InUse j →
    (s.view.inode i).carries f → (s.view.inode j).carries f → i = j
  /-- Deleting a name leaves no inode in use under it. -/
  gone : ∀ f : CString, f.Short → ∀ s', Returns (simplefs_delete f) s () s' →
    ∀ i, s'.view.InUse i → ¬ (s'.view.inode i).carries f

/-- The condition on a call: it neither deletes a live name nor creates one again while an inode
is free. -/
def Op.KeepsNames (p : Sys × Set (List UInt8)) : Op → Prop
  | .create f => f.chars ∈ p.2 → ∀ i, p.1.view.super.inode_freelist i ≠ INODE_FREE
  | .delete f => f.chars ∉ p.2
  | _ => True

/-- What holds as long as the calls meet the condition: no inode was ever freed, and the inodes
in use carry the live names, each once. -/
structure Tidy (p : Sys × Set (List UInt8)) : Prop where
  wf : p.1.view.Wf
  marked : p.1.view.Marked
  terminated : p.1.view.Terminated
  unnamed : ∀ i, p.1.view.super.inode_freelist i = INODE_FREE → (p.1.view.inode i).cname = []
  live : ∀ i, p.1.view.InUse i → (p.1.view.inode i).cname ∈ p.2
  named : ∀ n ∈ p.2, ∃ i, p.1.view.InUse i ∧ (p.1.view.inode i).cname = n
  unique : ∀ i j, p.1.view.InUse i → p.1.view.InUse j →
    (p.1.view.inode i).cname = (p.1.view.inode j).cname → i = j

section
variable {p : Sys × Set (List UInt8)}

theorem tidy_of_init (h : nameRuns.init p) : Tidy p := by
  obtain ⟨s, live⟩ := p
  obtain ⟨hs, rfl⟩ : simplefs.init s ∧ live = ∅ := h
  have hf := fresh_of_init hs
  have hfree (i) : ¬ s.view.InUse i := View.not_inUse_of_free (hf.inode_freelist i)
  refine ⟨hf.wf, hf.marked, hf.terminated, fun i _ => ?_, fun i hi => absurd hi (hfree i),
    fun n hn => absurd hn (Set.notMem_empty n), fun i _ hi => absurd hi (hfree i)⟩
  simp [inode_t.cname, List.ofFn_succ, hf.name i]

/-- A name that is not live is found nowhere, a live one is found. -/
theorem Tidy.lookup_eq_none (h : Tidy p) {f : CString} (hf : f.Short) :
    p.1.view.lookup f = none ↔ f.chars ∉ p.2 := by
  rw [h.terminated.lookup_eq_none]
  refine ⟨fun hn hl => ?_, fun hn i hi => ?_⟩
  · obtain ⟨i, -, hi⟩ := h.named _ hl
    exact hn i hi
  · rcases h.marked.mark i with hu | hfree
    · exact hn (by rw [← hi]; exact h.live i hu)
    · exact hf.ne_nil (by rw [← hi]; exact h.unnamed i hfree)

theorem Tidy.namespace (h : Tidy p) : Namespace p.1 p.2 := by
  have hw := h.wf
  refine ⟨fun ⟨g, hg⟩ f hf => ?_, fun f hf hl => ?_, fun i j f hf hi hj hci hcj => ?_,
    fun f hf s' hs' i hi hc => ?_⟩
  · have := wp_open (s := p.1) (E := fun _ => False) hw.ready (f := f)
      (Q := fun r _ => 0 ≤ r ↔ f.chars ∈ p.2) (fun hn => ?_) (fun hfull => absurd hg (hfull g))
      fun i g s' hl _ _ _ => ?_
    · obtain ⟨r, s', hr, hiff⟩ := this.total
      exact ⟨r, s', hr, hiff⟩
    · simpa using (h.lookup_eq_none hf).1 hn
    · have : f.chars ∈ p.2 := by
        by_contra hl'
        rw [(h.lookup_eq_none hf).2 hl'] at hl
        exact absurd hl (by simp)
      simpa using this
  · have := hw.sound.wp_delete (E := fun _ => False) (f := f) (Q := fun _ s' => s' = p.1) (fun _ => rfl)
      (fun i hi => ?_) fun i _ hi => ?_
    · obtain ⟨_, s', hr, rfl⟩ := this.total
      exact hr
    all_goals
      rw [(h.lookup_eq_none hf).2 hl] at hi
      exact absurd hi (by simp)
  · rw [(h.terminated i).carries_iff] at hci
    rw [(h.terminated j).carries_iff] at hcj
    exact h.unique i j hi hj (hci.trans hcj.symm)
  · have := hw.sound.wp_delete (E := fun _ => True) (f := f)
      (Q := fun _ s' => ∀ i, s'.view.InUse i → ¬ (s'.view.inode i).carries f)
      (fun hn i _ => Simplefs.lookup_eq_none.1 hn i) (fun _ _ _ => trivial)
      fun j s' hl hj hs' i hi hc => ?_
    · exact this.returns hs' i hi hc
    rw [hs'] at hi hc
    obtain ⟨hij, hi⟩ := View.inUse_deleteInode.1 hi
    rw [View.deleteInode_inode, Function.update_of_ne hij, (h.terminated i).carries_iff] at hc
    exact hij (h.unique i j hi hj (hc.trans (h.terminated.lookup_eq_some.1 hl).1.symm))

/-- A call of these runs, as a step of the view. -/
theorem Tidy.step (h : Tidy p) {l : Op × Ret} {p' : Sys × Set (List UInt8)}
    (hs : nameRuns.step p l p') : l.1.OnNames ∧ p.1.view.Step l.1 l.2 p'.1.view ∧ p'.1.view.Wf ∧
      p'.2 = liveNext p.2 p.1 l := by
  obtain ⟨⟨hop, hr⟩, hlive⟩ := hs
  obtain ⟨op, r⟩ := l
  refine ⟨hop, ?_⟩
  rw [← and_assoc]
  refine ⟨step_view h.wf ?_ hr, hlive⟩
  cases op with
  | create | delete | open_ => trivial
  | close g => exact handleOk_of_close hr
  | read | write | seek => exact hop.elim

theorem View.SameNames.tidy {p' : Sys × Set (List UInt8)} (hs : p.1.view.SameNames p'.1.view)
    (hlive : p'.2 = p.2) (hw : p'.1.view.Wf) (hm : p'.1.view.Marked) (ht : p'.1.view.Terminated)
    (h : Tidy p) : Tidy p' := by
  have huse (i) : p'.1.view.InUse i ↔ p.1.view.InUse i := by rw [View.InUse, hs.mark]; rfl
  have hname (i) : (p'.1.view.inode i).cname = (p.1.view.inode i).cname :=
    inode_t.cname_congr (hs.name i)
  refine ⟨hw, hm, ht, fun i hi => ?_, fun i hi => ?_, fun n hn => ?_, fun i j hi hj hij => ?_⟩
  · rw [hs.mark] at hi
    rw [hname]
    exact h.unnamed i hi
  · rw [hname, hlive]
    exact h.live i ((huse i).1 hi)
  · rw [hlive] at hn
    obtain ⟨i, hi, hin⟩ := h.named n hn
    exact ⟨i, (huse i).2 hi, (hname i).trans hin⟩
  · rw [hname, hname] at hij
    exact h.unique i j ((huse i).1 hi) ((huse j).1 hj) hij

theorem Tidy.terminated_next (h : Tidy p) {l : Op × Ret} {v : View} (hop : l.1.OnNames)
    (hst : p.1.view.Step l.1 l.2 v) : v.Terminated := by
  refine hst.terminated ?_ h.terminated
  obtain ⟨op, r⟩ := l
  cases op with
  | create | delete | open_ => exact hop
  | close | read | write | seek => trivial

/-- A new name in a free inode. -/
theorem Tidy.create (h : Tidy p) {p' : Sys × Set (List UInt8)} {f : CString} {i : Fin NUM_INODES}
    (hf : f.Short) (hi : p.1.view.super.inode_freelist i = INODE_FREE) (hnew : f.chars ∉ p.2)
    (hv : p'.1.view = p.1.view.createInode i f) (hlive : p'.2 = insert f.chars p.2)
    (hw : p'.1.view.Wf) (hm : p'.1.view.Marked) (ht : p'.1.view.Terminated) : Tidy p' := by
  have hi' : ¬ p.1.view.InUse i := View.not_inUse_of_free hi
  have huse (j) : p'.1.view.InUse j ↔ j = i ∨ p.1.view.InUse j := by
    rw [hv]; exact View.inUse_createInode
  have hself : (p'.1.view.inode i).cname = f.chars := by
    rw [hv, View.cname_createInode hf, if_pos rfl]
  have hother {j} (hj : j ≠ i) : (p'.1.view.inode j).cname = (p.1.view.inode j).cname := by
    rw [hv, View.cname_createInode hf, if_neg hj]
  -- an inode in use before carries a live name, so it does not carry the new one
  have hne {j} (hj : p.1.view.InUse j) : j ≠ i ∧ (p.1.view.inode j).cname ≠ f.chars :=
    ⟨fun he => hi' (by rwa [← he]), fun he => hnew (by rw [← he]; exact h.live j hj)⟩
  refine ⟨hw, hm, ht, fun j hj => ?_, fun j hj => ?_, fun n hn => ?_, fun j k hj hu hjk => ?_⟩
  · have hj' := (not_congr (huse j)).1 (hm.free_iff.1 hj)
    rw [not_or] at hj'
    rw [hother hj'.1]
    exact h.unnamed j (h.marked.free_iff.2 hj'.2)
  · rw [hlive]
    rcases (huse j).1 hj with rfl | hj
    · rw [hself]
      exact Set.mem_insert _ _
    · rw [hother (hne hj).1]
      exact Set.mem_insert_of_mem _ (h.live j hj)
  · rw [hlive] at hn
    rcases Set.mem_insert_iff.1 hn with rfl | hn
    · exact ⟨i, (huse i).2 (Or.inl rfl), hself⟩
    · obtain ⟨j, hj, hjn⟩ := h.named n hn
      exact ⟨j, (huse j).2 (Or.inr hj), by rw [hother (hne hj).1, hjn]⟩
  · rcases (huse j).1 hj with rfl | hj <;> rcases (huse k).1 hu with rfl | hu
    · rfl
    · rw [hself, hother (hne hu).1] at hjk
      exact absurd hjk.symm (hne hu).2
    · rw [hself, hother (hne hj).1] at hjk
      exact absurd hjk (hne hj).2
    · rw [hother (hne hj).1, hother (hne hu).1] at hjk
      exact h.unique j k hj hu hjk

/-- A call within the condition keeps the names tidy. -/
theorem Tidy.next (h : Tidy p) {l : Op × Ret} {p' : Sys × Set (List UInt8)}
    (hk : l.1.KeepsNames p) (hs : nameRuns.step p l p') : Tidy p' := by
  obtain ⟨hop, hst, hw, hlive⟩ := h.step hs
  obtain ⟨op, r⟩ := l
  have hm := hst.marked h.marked
  have ht := h.terminated_next hop hst
  rcases hst.names with ⟨hsame, hcreate, hdelete⟩ | ⟨f, i, rfl, rfl, hi, hlt, hv⟩ |
    ⟨f, i, rfl, hl, hu, hv⟩
  · refine hsame.tidy ?_ hw hm ht h
    rw [hlive]
    cases op with
    | create f =>
      have hr : r = ⟨-1, []⟩ := (hcreate f rfl).1
      rw [hr]
      rfl
    | delete f => exact Set.sdiff_singleton_eq_self hk
    | open_ | close | read | write | seek => rfl
  · refine h.create hop hi (fun hl => hk hl i hi) hv ?_ hw hm ht
    rw [hlive]
    simp [liveNext]
  · -- the name deleted is not live, so it was not found
    rw [(h.lookup_eq_none hop).2 hk] at hl
    exact absurd hl (by simp)

/-- A call outside of the condition breaks the agreement at once. -/
theorem Tidy.break (h : Tidy p) {l : Op × Ret} {p' : Sys × Set (List UInt8)}
    (hk : ¬ l.1.KeepsNames p) (hs : nameRuns.step p l p') : ¬ Namespace p'.1 p'.2 := by
  obtain ⟨hop, hst, hw, hlive⟩ := h.step hs
  have ht := h.terminated_next hop hst
  obtain ⟨op, r⟩ := l
  cases op with
  | create f =>
    obtain ⟨hl, i, hi⟩ : f.chars ∈ p.2 ∧ ∃ i, p.1.view.super.inode_freelist i = INODE_FREE := by
      simpa [Op.KeepsNames] using hk
    obtain ⟨j, hj, hjf⟩ := h.named _ hl
    rcases hst.names with ⟨-, hcreate, -⟩ | ⟨f', k, hff, -, hk, -, hv⟩ | ⟨f', k, hff, -⟩
    · exact absurd hi ((hcreate f rfl).2 i)
    · obtain rfl : f = f' := by simpa using hff
      intro hns
      -- both the old inode and the new one carry the name
      have hjk : j ≠ k := fun he => View.not_inUse_of_free hk (by rwa [← he])
      have huse (l) : p'.1.view.InUse l ↔ l = k ∨ p.1.view.InUse l := by
        rw [hv]; exact View.inUse_createInode
      refine hjk (hns.unique j k f hop ((huse j).2 (Or.inr hj)) ((huse k).2 (Or.inl rfl)) ?_ ?_)
      · rw [(ht j).carries_iff, hv, View.cname_createInode hop, if_neg hjk, hjf]
      · rw [(ht k).carries_iff, hv, View.cname_createInode hop, if_pos rfl]
    · exact absurd hff (by simp)
  | delete f =>
    have hl : f.chars ∈ p.2 := not_not.1 hk
    have hfound : p.1.view.lookup f ≠ none := fun hn => (h.lookup_eq_none hop).1 hn hl
    rcases hst.names with ⟨-, -, hdelete⟩ | ⟨f', k, hff, -⟩ | ⟨f', k, hff, hk, -, hv⟩
    · exact absurd (hdelete f rfl) hfound
    · exact absurd hff (by simp)
    · obtain rfl : f = f' := by simpa using hff
      intro hns
      -- the inode is free but keeps the name, so deleting once more trips the assertion
      have hk' : p'.1.view.lookup f = some k := by
        obtain ⟨hf, hlt⟩ := h.terminated.lookup_eq_some.1 hk
        refine ht.lookup_eq_some.2 ⟨?_, fun j hj => ?_⟩
        · rw [hv, View.cname_deleteInode, hf]
        · rw [hv, View.cname_deleteInode]
          exact hlt j hj
      have hfail : wp (simplefs_delete f) p'.1 (fun _ => True) fun _ _ => False := by
        refine hw.sound.wp_delete (fun hn => ?_) (fun _ _ _ => trivial) fun k' s' hl' hu _ => ?_
        · rw [hk'] at hn
          exact absurd hn (by simp)
        · obtain rfl : k = k' := Option.some.inj (hk'.symm.trans hl')
          rw [hv] at hu
          exact (View.inUse_deleteInode.1 hu).1 rfl
      refine hfail.returns (hns.dead f hop ?_)
      rw [hlive]
      exact fun hm => hm.2 rfl
  | open_ | close | read | write | seek => exact absurd trivial hk

end

/-- Lookups agree with the live names in every state that an execution passes through, if and
only if none of its calls deletes a live name or creates one again while an inode is free. -/
theorem namespace_iff {xs : List ((Sys × Set (List UInt8)) × (Op × Ret))}
    {p : Sys × Set (List UInt8)} (h : nameRuns.Exec xs p) :
    (∀ q ∈ LTS.states xs p, Namespace q.1 q.2) ↔ ∀ x ∈ xs, x.2.1.KeepsNames x.1 :=
  (LTS.Exec.all_iff (G := Tidy) (P := fun q => Namespace q.1 q.2)
    (C := fun q l => l.1.KeepsNames q) (fun _ => tidy_of_init) (fun _ h => h.namespace)
    (fun _ _ _ h hk hs => h.next hk hs) (fun _ _ _ h hk hs => h.break hk hs) h).1

/-- Creating a file and opening it. -/
theorem namespace_create_open : ∃ xs p, nameRuns.Exec xs p ∧
    xs.map Prod.snd = [(.create nameA, ⟨0, []⟩), (.open_ nameA, ⟨0, []⟩)] ∧
    ∀ q ∈ LTS.states xs p, Namespace q.1 q.2 := by
  have h : ∃ s₀, Returns simplefs_formatDisk blankSys () s₀ ∧
      ∃ s₁, Returns (Op.create nameA).exec s₀ ⟨0, []⟩ s₁ ∧
      ∃ s₂, Returns (Op.open_ nameA).exec s₁ ⟨0, []⟩ s₂ ∧ True := by decide +kernel
  obtain ⟨s₀, h₀, s₁, h₁, s₂, h₂, -⟩ := h
  have hcreate : (Op.create nameA).OnNames := (by decide : nameA.Short)
  have hopen : (Op.open_ nameA).OnNames := (by decide : nameA.Short)
  have e₀ : nameRuns.Exec [] (s₀, ∅) := .init ⟨⟨blankSys, h₀⟩, rfl⟩
  have e₁ : nameRuns.Exec _ (s₁, insert nameA.chars ∅) :=
    e₀.step (l := (Op.create nameA, Ret.mk 0 [])) ⟨⟨hcreate, h₁⟩, rfl⟩
  have e₂ : nameRuns.Exec _ (s₂, insert nameA.chars ∅) :=
    e₁.step (l := (Op.open_ nameA, Ret.mk 0 [])) ⟨⟨hopen, h₂⟩, rfl⟩
  exact ⟨_, _, e₂, rfl, (namespace_iff e₂).2 (by simp [Op.KeepsNames])⟩

/-- After a file is created and deleted, its name still trips the assertion of
`simplefs_freeInode`. -/
theorem namespace_fails : ∃ p, nameRuns.Run
    [(.create nameA, ⟨0, []⟩), (.delete nameA, ⟨0, []⟩)] p ∧ ¬ Namespace p.1 p.2 := by
  have h : ∃ s₀, Returns simplefs_formatDisk blankSys () s₀ ∧
      ∃ s₁, Returns (Op.create nameA).exec s₀ ⟨0, []⟩ s₁ ∧
      ∃ s₂, Returns (Op.delete nameA).exec s₁ ⟨0, []⟩ s₂ ∧
        Faults (simplefs_delete nameA) s₂ .inodeNotInUse := by decide +kernel
  obtain ⟨s₀, h₀, s₁, h₁, s₂, h₂, h₃⟩ := h
  have hshort : nameA.Short := by decide
  have hcreate : (Op.create nameA).OnNames := hshort
  have hdelete : (Op.delete nameA).OnNames := hshort
  have e₀ : nameRuns.Run [] (s₀, ∅) := .init ⟨⟨blankSys, h₀⟩, rfl⟩
  have e₁ : nameRuns.Run _ (s₁, insert nameA.chars ∅) :=
    e₀.step (l := (Op.create nameA, Ret.mk 0 [])) ⟨⟨hcreate, h₁⟩, rfl⟩
  have e₂ : nameRuns.Run _ (s₂, insert nameA.chars ∅ \ {nameA.chars}) :=
    e₁.step (l := (Op.delete nameA, Ret.mk 0 [])) ⟨⟨hdelete, h₂⟩, rfl⟩
  refine ⟨_, e₂, fun hns => ?_⟩
  have hr := hns.dead nameA hshort fun hm => hm.2 rfl
  exact absurd (hr.symm.trans h₃) (by simp)

end Simplefs

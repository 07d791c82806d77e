/-
  Names that fill their field: they have no NUL there, and `strcmp` runs on into the size of the
  file, which follows the name in the record.
-/
import OSModules.Simplefs.Closed
import OSModules.Simplefs.Names
import Mathlib.Logic.Relation

namespace Simplefs

open CInt Prog Runs

/-! ## strcmp past the end of the name -/

theorem strcmpEq_append {a r r' : List UInt8} (ha : ∀ c ∈ a, c ≠ 0) :
    strcmpEq (a ++ r) (a ++ r') = strcmpEq r r' := by
  induction a with
  | nil => rfl
  | cons x a ih =>
    have hx : x ≠ 0 := ha x (by simp)
    have := ih fun c hc => ha c (List.mem_cons_of_mem _ hc)
    simp [strcmpEq, hx, this]

/-- After a name of eight characters comes the lowest byte of the size. -/
theorem inode_t.carries_full {inode : inode_t} {f : CString} (hf : f.chars.length = 8)
    (hname : ∀ k, inode.name k = f.byte k) :
    inode.carries f = true ↔ leByte inode.file_size 0 = 0 := by
  have hchars : List.ofFn inode.name = f.chars := by
    refine List.ext_getElem (by simp [hf]) fun k h₁ h₂ => ?_
    rw [List.getElem_ofFn, hname]
    simp only [CString.byte, if_pos h₂]
    exact List.getD_eq_getElem _ _ h₂
  obtain ⟨rest, hrest⟩ : ∃ rest, inode.bytes.drop 4 =
      f.chars ++ leByte inode.file_size 0 :: rest := by
    unfold inode_t.bytes
    rw [List.append_assoc, List.append_assoc, hchars,
      List.drop_append_of_le_length (by simp [intBytes]),
      List.drop_of_length_le (by simp [intBytes]), List.nil_append]
    exact ⟨_, rfl⟩
  rw [inode_t.carries, hrest, strcmpEq_append f.nonzero]
  simp [strcmpEq]

/-- An inode carries the name it was created with, unless the name fills its field and the lowest
byte of the size is not `0`. -/
theorem inode_t.carries_created {inode : inode_t} {f : CString}
    (hf : 1 ≤ f.chars.length ∧ f.chars.length ≤ 8) (hname : ∀ k, inode.name k = f.byte k)
    (hsize : 0 ≤ inode.file_size ∧ inode.file_size ≤ 256) : inode.carries f = true ↔
      f.chars.length ≤ 7 ∨ inode.file_size = 0 ∨ inode.file_size = 256 := by
  by_cases h7 : f.chars.length ≤ 7
  · have hshort : f.Short := ⟨hf.1, h7⟩
    have hterm : inode.Terminated := by
      obtain ⟨k, hk⟩ := inode.terminated_named hshort
      exact ⟨k, by rw [hname]; exact hk⟩
    have hcname : inode.cname = f.chars := by
      rw [← inode.cname_named hshort]
      exact inode_t.cname_congr (funext hname)
    exact iff_of_true ((hterm.carries_iff f).2 hcname) (Or.inl h7)
  · rw [inode_t.carries_full (by omega) hname, or_iff_right h7]
    simp only [leByte, pow_zero, Nat.div_one, ← UInt8.toNat_inj, UInt8.toNat_ofNat']
    simp only [UInt8.toNat_zero]
    omega

/-! ## Writes and seeks on one file -/

/-- A call that opens or closes a file, or goes through a handle on inode `i`. -/
def Op.OnFile (v : View) (i : Fin NUM_INODES) : Op → Prop
  | .create _ | .delete _ => False
  | .open_ _ | .close _ => True
  | .read h _ | .write h _ _ | .seek h _ => ∃ g : Fin MAX_OPEN_FILES, h = (g : ℕ) ∧ v.OpenOn g i

/-- One such call. -/
def UsesFile (i : Fin NUM_INODES) (s s' : Sys) : Prop :=
  ∃ (op : Op) (r : Ret), op.OnFile s.view i ∧ Returns op.exec s r s'

/-- The record of inode `i` has the name `f`, and no other one is found under it. -/
structure View.Named (v : View) (f : CString) (i : Fin NUM_INODES) : Prop where
  name : ∀ k, (v.inode i).name k = f.byte k
  others : ∀ j ≠ i, ¬ (v.inode j).carries f

theorem View.Named.of_eq {v v' : View} {f : CString} {i : Fin NUM_INODES} (h : v.Named f i)
    (he : v'.inode = v.inode) : v'.Named f i :=
  ⟨fun k => by rw [he]; exact h.name k, fun j hj => by rw [he]; exact h.others j hj⟩

/-- Such a call changes the record of inode `i` at most, and not its name. -/
theorem View.Named.step {v v' : View} {f : CString} {i : Fin NUM_INODES} (h : v.Named f i)
    {op : Op} {r : Ret} (hop : op.OnFile v i) (hst : v.Step op r v') : v'.Named f i := by
  cases hst with
  | create_full | delete_none | create | delete => exact hop.elim
  | open_none | open_full | read | write_big | seek_out | open_ | close | seek => exact h.of_eq rfl
  | write_full g j inode' data hj hle hg => exact h.of_eq hg.table
  | write g j v₁ inode' hj hle hg ho =>
    obtain ⟨g', hg', hi⟩ := hop
    obtain rfl := handle_inj hg'
    obtain rfl := hi.inj hj
    refine ⟨fun k => ?_, fun l hl => ?_⟩
    · rw [View.setInode_inode, Function.update_self, hg.name.2]
      exact h.name k
    · rw [View.setInode_inode, Function.update_of_ne hl, hg.table]
      exact h.others l hl

theorem View.Named.lookup_iff {v : View} {f : CString} {i : Fin NUM_INODES} (h : v.Named f i) :
    v.lookup f = some i ↔ (v.inode i).carries f = true := by
  rw [Simplefs.lookup_eq_some]
  exact and_iff_left fun j hj => h.others j (ne_of_lt hj)

section
variable {s : Sys} {f : CString} {i : Fin NUM_INODES}

theorem UsesFile.step {s' : Sys} (hs : simplefs.Reachable s) (hn : s.view.Named f i)
    (h : UsesFile i s s') : simplefs.Reachable s' ∧ s'.view.Named f i := by
  obtain ⟨op, r, hop, hr⟩ := h
  refine ⟨hs.step (l := (op, r)) hr, ?_⟩
  have hok : op.HandleOk s.view := by
    cases op with
    | create | delete => exact hop.elim
    | open_ => trivial
    | close h => exact handleOk_of_close hr
    | read | write | seek =>
      obtain ⟨g, hg, hi⟩ := hop
      exact ⟨g, i, hg, hi⟩
  exact hn.step hop ((wp_exec (sound_of_reachable hs).view hok).returns hr)

theorem UsesFile.run {s' : Sys} (hs : simplefs.Reachable s) (hn : s.view.Named f i)
    (h : Relation.ReflTransGen (UsesFile i) s s') :
    simplefs.Reachable s' ∧ s'.view.Named f i := by
  induction h with
  | refl => exact ⟨hs, hn⟩
  | tail _ hstep ih => exact UsesFile.step ih.1 ih.2 hstep

theorem get_inode_num_iff (hs : s.view.Ready) :
    (∃ s', Returns (get_inode_num f) s (i : ℕ) s') ↔ s.view.lookup f = some i := by
  have hwp : wp (get_inode_num f) s (fun _ => False)
      fun r _ => r = (i : ℕ) ↔ s.view.lookup f = some i := by
    refine wp_get_inode_num hs (fun h => ?_) fun j h => ?_
    · rw [h]
      exact iff_of_false (by omega) (by simp)
    · rw [h, Option.some.injEq, Fin.ext_iff]
      exact Nat.cast_inj
  obtain ⟨r, s', hr, hiff⟩ := hwp.total
  constructor
  · rintro ⟨t, ht⟩
    exact hiff.1 (hr.det ht).1
  · intro h
    exact ⟨s', by rw [← hiff.2 h]; exact hr⟩

theorem named_of_create (hs : s.view.Ready) (hno : ∀ j, ¬ (s.view.inode j).carries f) {s₁ : Sys}
    (hc : Returns (simplefs_create f) s (i : ℕ) s₁) : s₁.view.Named f i := by
  have hwp := wp_create (E := fun _ => True) hs (f := f)
    (Q := fun r s' => r = (i : ℕ) → s'.view.Named f i) (fun _ h => absurd h (by omega))
    fun j s' _ _ hs' h => ?_
  · exact hwp.returns hc rfl
  · obtain rfl : j = i := Fin.ext (by omega)
    rw [hs']
    refine ⟨fun k => ?_, fun l hl => ?_⟩
    · rw [View.createInode_inode, Function.update_self]
      rfl
    · rw [View.createInode_inode, Function.update_of_ne hl]
      exact hno l

/-- After any writes to the file and seeks in it, its name still leads to it if and only if the
name has at most seven characters or the size of the file is `0` or `256`. -/
theorem name_survives_iff (hs : simplefs.Reachable s)
    (hf : 1 ≤ f.chars.length ∧ f.chars.length ≤ 8) (hno : ∀ j, ¬ (s.view.inode j).carries f)
    {s₁ s₂ : Sys} (hc : Returns (simplefs_create f) s (i : ℕ) s₁)
    (hrun : Relation.ReflTransGen (UsesFile i) s₁ s₂) :
    (∃ s', Returns (get_inode_num f) s₂ (i : ℕ) s') ↔
      f.chars.length ≤ 7 ∨ (s₂.view.inode i).file_size = 0 ∨ (s₂.view.inode i).file_size = 256 := by
  have hn₁ := named_of_create (sound_of_reachable hs).view.ready hno hc
  have hexec : Returns (Op.create f).exec s ⟨(i : ℕ), []⟩ s₁ := hc.bind rfl
  have hr₁ : simplefs.Reachable s₁ := hs.step (l := (.create f, _)) hexec
  obtain ⟨hr₂, hn₂⟩ := UsesFile.run hr₁ hn₁ hrun
  have hv₂ := (sound_of_reachable hr₂).view
  have hok := hv₂.ok i
  rw [get_inode_num_iff hv₂.ready, hn₂.lookup_iff,
    inode_t.carries_created hf hn₂.name ⟨hok.size_nonneg, hok.size_le⟩]

end

/-- A file of 100 bytes with a name of one character. -/
theorem name_survives_write : ∃ s s₁ s₂ s₃, simplefs.Reachable s ∧
    Returns (simplefs_create nameA) s 0 s₁ ∧ Relation.ReflTransGen (UsesFile 0) s₁ s₂ ∧
    (s₂.view.inode 0).file_size = 100 ∧ Returns (get_inode_num nameA) s₂ 0 s₃ := by
  have h : ∃ s, Returns simplefs_formatDisk blankSys () s ∧
      (∀ j, ¬ (s.view.inode j).carries nameA) ∧
      ∃ s₁, Returns (simplefs_create nameA) s 0 s₁ ∧
      ∃ s₂, Returns (Op.open_ nameA).exec s₁ ⟨0, []⟩ s₂ ∧ s₂.view.OpenOn 0 0 ∧
      ∃ s₃, Returns (Op.write 0 (fun _ => 7) 100).exec s₂ ⟨0, []⟩ s₃ ∧
        (s₃.view.inode 0).file_size = 100 := by decide +kernel
  obtain ⟨s, h₀, hno, s₁, h₁, s₂, h₂, hopen, s₃, h₃, hsize⟩ := h
  have hr : simplefs.Reachable s := .init ⟨blankSys, h₀⟩
  have hrun : Relation.ReflTransGen (UsesFile 0) s₁ s₃ :=
    .tail (.single ⟨.open_ nameA, _, trivial, h₂⟩) ⟨.write 0 _ 100, _, ⟨0, rfl, hopen⟩, h₃⟩
  obtain ⟨s', hs'⟩ := (name_survives_iff (i := 0) hr (by simp [nameA]) hno h₁ hrun).2
    (Or.inl (by simp [nameA]))
  exact ⟨s, s₁, s₃, s', hr, h₁, hrun, hsize, hs'⟩

/-- The string `aaaaaaaa`. -/
def nameA8 : CString := ⟨List.replicate 8 97, by simp, fun _ => 0⟩

/-- After a byte is written to a file with a name of eight characters, its name is not found. -/
theorem full_name_lost : ∃ s s₁ s₂ s₃, simplefs.Reachable s ∧
    (∀ j, ¬ (s.view.inode j).carries nameA8) ∧ Returns (simplefs_create nameA8) s 0 s₁ ∧
    Relation.ReflTransGen (UsesFile 0) s₁ s₂ ∧ Returns (get_inode_num nameA8) s₂ (-1) s₃ := by
  have h : ∃ s, Returns simplefs_formatDisk blankSys () s ∧
      (∀ j, ¬ (s.view.inode j).carries nameA8) ∧
      ∃ s₁, Returns (simplefs_create nameA8) s 0 s₁ ∧
      ∃ s₂, Returns (Op.open_ nameA8).exec s₁ ⟨0, []⟩ s₂ ∧ s₂.view.OpenOn 0 0 ∧
      ∃ s₃, Returns (Op.write 0 (fun _ => 7) 1).exec s₂ ⟨0, []⟩ s₃ ∧
      ∃ s₄, Returns (get_inode_num nameA8) s₃ (-1) s₄ ∧ True := by decide +kernel
  obtain ⟨s, h₀, hno, s₁, h₁, s₂, h₂, hopen, s₃, h₃, s₄, h₄, -⟩ := h
  refine ⟨s, s₁, s₃, s₄, .init ⟨blankSys, h₀⟩, hno, h₁, ?_, h₄⟩
  exact .tail (.single ⟨.open_ nameA8, _, trivial, h₂⟩) ⟨.write 0 _ 1, _, ⟨0, rfl, hopen⟩, h₃⟩

end Simplefs

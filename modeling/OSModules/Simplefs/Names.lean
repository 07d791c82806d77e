/-
  Names: what `strcmp` compares when names are short enough to be terminated inside their
  field, and how the calls change the marks and the names of the inodes.
-/
import OSModules.Simplefs.Step
import Mathlib.Data.List.TakeWhile

namespace Simplefs

open CInt Prog

/-! ## strcmp -/

theorem strcmpEq_terminated {a b rest : List UInt8} (ha : ∀ c ∈ a, c ≠ 0) (hb : ∀ c ∈ b, c ≠ 0) :
    strcmpEq (a ++ 0 :: rest) (b ++ [0]) = true ↔ a = b := by
  induction a generalizing b with
  | nil =>
    cases b with
    | nil => simp [strcmpEq]
    | cons y b =>
      have hy : (0 : UInt8) ≠ y := (hb y (by simp)).symm
      simp [strcmpEq, hy]
  | cons x a ih =>
    have hx : x ≠ 0 := ha x (by simp)
    cases b with
    | nil => simp [strcmpEq, hx]
    | cons y b =>
      have := ih (b := b) (fun c hc => ha c (List.mem_cons_of_mem _ hc))
        fun c hc => hb c (List.mem_cons_of_mem _ hc)
      simp [strcmpEq, hx, this]

theorem takeWhile_terminated {a rest : List UInt8} (ha : ∀ c ∈ a, c ≠ 0) :
    (a ++ 0 :: rest).takeWhile (· ≠ 0) = a := by
  rw [List.takeWhile_append_of_pos (by simpa using ha)]
  simp

theorem exists_terminated {l : List UInt8} (h : 0 ∈ l) :
    ∃ rest, l = l.takeWhile (· ≠ 0) ++ 0 :: rest := by
  induction l with
  | nil => exact absurd h List.not_mem_nil
  | cons x l ih =>
    by_cases hx : x = 0
    · exact ⟨l, by simp [hx]⟩
    · obtain ⟨rest, hr⟩ := ih ((List.mem_cons.1 h).resolve_left (Ne.symm hx))
      refine ⟨rest, ?_⟩
      rw [List.takeWhile_cons_of_pos (by simpa using hx), List.cons_append, ← hr]

/-- A name of 1 to 7 characters. -/
def CString.Short (f : CString) : Prop := 1 ≤ f.chars.length ∧ f.chars.length ≤ 7

instance (f : CString) : Decidable f.Short := inferInstanceAs (Decidable (_ ∧ _))

theorem CString.Short.ne_nil {f : CString} (h : f.Short) : f.chars ≠ [] := by
  intro he
  have := h.1
  simp [he] at this

/-- The name of an inode, up to its NUL. -/
def inode_t.cname (inode : inode_t) : List UInt8 := (List.ofFn inode.name).takeWhile (· ≠ 0)

/-- The name of the inode ends inside its field. -/
def inode_t.Terminated (inode : inode_t) : Prop := ∃ k, inode.name k = 0

/-- Over a terminated name, `strcmp` compares names. -/
theorem inode_t.Terminated.carries_iff {inode : inode_t} (h : inode.Terminated) (f : CString) :
    inode.carries f = true ↔ inode.cname = f.chars := by
  obtain ⟨rest, hrest⟩ : ∃ rest, List.ofFn inode.name = inode.cname ++ 0 :: rest := by
    obtain ⟨k, hk⟩ := h
    exact exists_terminated (List.mem_ofFn.2 ⟨k, hk⟩)
  have hdrop : inode.bytes.drop 4 = inode.cname ++ 0 :: (rest ++ (intBytes inode.file_size ++
      List.ofFn fun k : Fin 16 =>
        leByte (inode.direct_blocks ⟨k / 4, Nat.div_lt_of_lt_mul k.2⟩) (k % 4))) := by
    unfold inode_t.bytes
    rw [List.append_assoc, List.append_assoc, hrest,
      List.drop_append_of_le_length (by simp [intBytes]), List.drop_of_length_le (by simp [intBytes])]
    simp
  rw [inode_t.carries, hdrop]
  refine strcmpEq_terminated (fun c hc => ?_) f.nonzero
  simpa using List.mem_takeWhile_imp hc

theorem inode_t.terminated_named (inode : inode_t) {f : CString} (h : f.Short) :
    (inode.named f).Terminated := by
  have h7 := h.2
  refine ⟨⟨f.chars.length, by simp only [MAX_NAME_STRLEN]; omega⟩, ?_⟩
  simp [inode_t.named, CString.byte]

theorem inode_t.cname_named (inode : inode_t) {f : CString} (h : f.Short) :
    (inode.named f).cname = f.chars := by
  have h7 := h.2
  have hsplit : List.ofFn (inode.named f).name =
      f.chars ++ 0 :: List.ofFn fun k : Fin (7 - f.chars.length) => f.rest k := by
    refine List.ext_getElem (by simp only [List.length_ofFn, List.length_append,
      List.length_cons, MAX_NAME_STRLEN]; omega) fun k h₁ h₂ => ?_
    simp only [List.getElem_ofFn, inode_t.named, CString.byte, List.getElem_append,
      List.getElem_cons]
    by_cases hk : k < f.chars.length
    · simp [hk]
    · rw [if_neg hk, dif_neg hk]
      by_cases hk' : k = f.chars.length
      · simp [hk']
      · rw [if_neg hk', dif_neg (by omega)]
  rw [inode_t.cname, hsplit, takeWhile_terminated f.nonzero]

/-! ## The table of inodes -/

/-- The free list holds a mark for each inode, and the status of the inode is that mark. -/
structure View.Marked (v : View) : Prop where
  mark : ∀ i, v.InUse i ∨ v.super.inode_freelist i = INODE_FREE
  status : ∀ i, (v.inode i).status = charInt (v.super.inode_freelist i)

theorem View.not_inUse_of_free {v : View} {i : Fin NUM_INODES}
    (h : v.super.inode_freelist i = INODE_FREE) : ¬ v.InUse i := by
  rw [View.InUse, h]
  decide

theorem View.Marked.free_iff {v : View} (hm : v.Marked) {i : Fin NUM_INODES} :
    v.super.inode_freelist i = INODE_FREE ↔ ¬ v.InUse i :=
  ⟨View.not_inUse_of_free, (hm.mark i).resolve_left⟩

theorem View.inUse_createInode {v : View} {i j : Fin NUM_INODES} {f : CString} :
    (v.createInode i f).InUse j ↔ j = i ∨ v.InUse j := by
  rw [InUse, InUse, createInode_inode_freelist]
  by_cases hj : j = i
  · rw [hj, Function.update_self]
    simp
  · rw [Function.update_of_ne hj]
    simp [hj]

theorem View.inUse_deleteInode {v : View} {i j : Fin NUM_INODES} :
    (v.deleteInode i).InUse j ↔ j ≠ i ∧ v.InUse j := by
  by_cases hj : j = i
  · have : ¬ (v.deleteInode i).InUse j := View.not_inUse_of_free (by
      rw [deleteInode_inode_freelist, hj, Function.update_self])
    simp [hj] at this ⊢
    exact this
  · rw [InUse, InUse, deleteInode_inode_freelist, Function.update_of_ne hj]
    simp [hj]

/-- The same inodes are in use under the same names. -/
structure View.SameNames (v v' : View) : Prop where
  mark : v'.super.inode_freelist = v.super.inode_freelist
  status : ∀ i, (v'.inode i).status = (v.inode i).status
  name : ∀ i, (v'.inode i).name = (v.inode i).name

theorem View.SameNames.of_eq {v v' : View} (hm : v'.super.inode_freelist = v.super.inode_freelist)
    (hi : v'.inode = v.inode) : v.SameNames v' :=
  ⟨hm, fun i => by rw [hi], fun i => by rw [hi]⟩

theorem View.Grown.sameNames {v v₁ : View} {i : Fin NUM_INODES} {inode' : inode_t}
    {data : List UInt8} (hg : v.Grown (v.inode i) v₁ inode' data) :
    v.SameNames (v₁.setInode i inode') := by
  refine ⟨hg.freelist, fun j => ?_, fun j => ?_⟩ <;> rw [setInode_inode, hg.table] <;>
    by_cases hj : j = i
  · subst hj; rw [Function.update_self, hg.name.1]
  · rw [Function.update_of_ne hj]
  · subst hj; rw [Function.update_self, hg.name.2]
  · rw [Function.update_of_ne hj]

/-- Only a create and a delete that succeed change marks or names. -/
theorem View.Step.names {v v' : View} {op : Op} {r : Ret} (h : v.Step op r v') :
    (v.SameNames v' ∧
      (∀ f, op = .create f → r = ⟨-1, []⟩ ∧ ∀ i, v.super.inode_freelist i ≠ INODE_FREE) ∧
      ∀ f, op = .delete f → v.lookup f = none) ∨
    (∃ (f : CString) (i : Fin NUM_INODES), op = .create f ∧ r = ⟨(i : ℕ), []⟩ ∧
      v.super.inode_freelist i = INODE_FREE ∧
      (∀ j < i, v.super.inode_freelist j ≠ INODE_FREE) ∧ v' = v.createInode i f) ∨
    ∃ (f : CString) (i : Fin NUM_INODES), op = .delete f ∧ v.lookup f = some i ∧ v.InUse i ∧
      v' = v.deleteInode i := by
  cases h with
  | create_full hn =>
    refine Or.inl ⟨.of_eq rfl rfl, fun f _ => ⟨rfl, hn⟩, fun f hf => ?_⟩
    exact absurd hf (by simp)
  | create i hi hlt => exact Or.inr (Or.inl ⟨_, i, rfl, rfl, hi, hlt, rfl⟩)
  | @delete_none f hl =>
    refine Or.inl ⟨.of_eq rfl rfl, fun f hf => absurd hf (by simp), fun f' hf => ?_⟩
    obtain rfl : f = f' := by simpa using hf
    exact hl
  | delete i hl hu => exact Or.inr (Or.inr ⟨_, i, rfl, hl, hu, rfl⟩)
  | open_none | open_full | read | write_big | seek_out | open_ | close | seek =>
    exact Or.inl ⟨.of_eq rfl rfl, fun f hf => absurd hf (by simp), fun f hf => absurd hf (by simp)⟩
  | write_full h i inode' data hi hle hg =>
    exact Or.inl ⟨.of_eq hg.freelist hg.table, fun f hf => absurd hf (by simp),
      fun f hf => absurd hf (by simp)⟩
  | write h i v₁ inode' hi hle hg ho =>
    exact Or.inl ⟨hg.sameNames, fun f hf => absurd hf (by simp), fun f hf => absurd hf (by simp)⟩

theorem View.Fresh.marked {v : View} (h : v.Fresh) : v.Marked where
  mark i := Or.inr (h.inode_freelist i)
  status i := by rw [h.status, h.inode_freelist]

theorem View.Step.marked {v v' : View} {op : Op} {r : Ret} (h : v.Step op r v') (hm : v.Marked) :
    v'.Marked := by
  rcases h.names with ⟨hs, -⟩ | ⟨f, i, rfl, -, -, -, rfl⟩ | ⟨f, i, rfl, -, -, rfl⟩
  · refine ⟨fun i => ?_, fun i => ?_⟩
    · rw [View.InUse, hs.mark]; exact hm.mark i
    · rw [hs.status, hs.mark]; exact hm.status i
  · refine ⟨fun j => ?_, fun j => ?_⟩ <;> by_cases hj : j = i
    · subst hj; simp [View.InUse]
    · simpa [View.InUse, hj] using hm.mark j
    · subst hj; simp [inode_t.named]
    · simpa [hj] using hm.status j
  · refine ⟨fun j => ?_, fun j => ?_⟩ <;> by_cases hj : j = i
    · subst hj; simp [View.InUse]
    · simpa [View.InUse, hj] using hm.mark j
    · subst hj; simp [inode_t.freed]
    · simpa [hj] using hm.status j

/-- The names that a call gives are short. -/
def Op.ShortName : Op → Prop
  | .create f | .delete f | .open_ f => f.Short
  | _ => True

/-- Every name in the table is terminated. -/
def View.Terminated (v : View) : Prop := ∀ i, (v.inode i).Terminated

theorem View.Fresh.terminated {v : View} (h : v.Fresh) : v.Terminated := fun i => ⟨0, h.name i⟩

theorem View.Step.terminated {v v' : View} {op : Op} {r : Ret} (h : v.Step op r v')
    (hop : op.ShortName) (ht : v.Terminated) : v'.Terminated := by
  rcases h.names with ⟨hs, -⟩ | ⟨f, i, rfl, -, -, -, rfl⟩ | ⟨f, i, rfl, -, -, rfl⟩ <;> intro j
  · obtain ⟨k, hk⟩ := ht j
    exact ⟨k, by rw [hs.name, hk]⟩
  · by_cases hj : j = i
    · subst hj
      simpa using inode_t.terminated_named _ hop
    · simpa [hj] using ht j
  · by_cases hj : j = i
    · subst hj
      obtain ⟨k, hk⟩ := ht j
      exact ⟨k, by simpa [inode_t.freed] using hk⟩
    · simpa [hj] using ht j

theorem inode_t.cname_congr {inode inode' : inode_t} (h : inode'.name = inode.name) :
    inode'.cname = inode.cname := by rw [cname, h, cname]

@[simp] theorem inode_t.cname_freed (inode : inode_t) : inode.freed.cname = inode.cname := rfl

theorem View.cname_createInode {v : View} {i : Fin NUM_INODES} {f : CString} (hf : f.Short)
    (j : Fin NUM_INODES) : ((v.createInode i f).inode j).cname =
      if j = i then f.chars else (v.inode j).cname := by
  rw [createInode_inode]
  by_cases hj : j = i
  · rw [hj, Function.update_self, if_pos rfl]
    exact inode_t.cname_named _ hf
  · rw [Function.update_of_ne hj, if_neg hj]

theorem View.cname_deleteInode {v : View} {i : Fin NUM_INODES} (j : Fin NUM_INODES) :
    ((v.deleteInode i).inode j).cname = (v.inode j).cname := by
  rw [deleteInode_inode]
  by_cases hj : j = i
  · rw [hj, Function.update_self, inode_t.cname_freed]
  · rw [Function.update_of_ne hj]

/-- Where names are terminated, a lookup finds the first inode with the name. -/
theorem View.Terminated.lookup_eq_some {v : View} (h : v.Terminated) {f : CString}
    {i : Fin NUM_INODES} : v.lookup f = some i ↔
      (v.inode i).cname = f.chars ∧ ∀ j < i, (v.inode j).cname ≠ f.chars := by
  rw [Simplefs.lookup_eq_some, (h i).carries_iff]
  exact and_congr_right fun _ => forall₂_congr fun j _ => not_congr ((h j).carries_iff f)

theorem View.Terminated.lookup_eq_none {v : View} (h : v.Terminated) {f : CString} :
    v.lookup f = none ↔ ∀ i, (v.inode i).cname ≠ f.chars := by
  rw [Simplefs.lookup_eq_none]
  exact forall_congr' fun j => not_congr ((h j).carries_iff f)

end Simplefs

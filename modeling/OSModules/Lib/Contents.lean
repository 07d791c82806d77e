/-
  Objects: regions of a memory as their clients see them, each with contents of its own.
-/
import OSModules.Lib.Regions

namespace Regions

variable {β : Type}

/-- An object, and what was written at each of its offsets. -/
structure Object (β : Type) where
  ptr : ℤ
  size : ℤ
  contents : ℤ → Option β

namespace Object

/-- The bytes of an object. -/
def bytes (o : Object β) : ℤ × ℤ := (o.ptr, o.size)

/-- An object of which nothing is known. -/
def fresh (ptr size : ℤ) : Object β := ⟨ptr, size, fun _ => none⟩

def write (o : Object β) (off : ℤ) (v : β) : Object β :=
  { o with contents := Function.update o.contents off (some v) }

/-- The offset is one of the object that `ptr` points to. -/
def At (o : Object β) (ptr off : ℤ) : Prop := o.ptr = ptr ∧ 0 ≤ off ∧ off < o.size

theorem At.owns {o : Object β} {ptr off : ℤ} (h : o.At ptr off) : Owns o.bytes (ptr + off) := by
  obtain ⟨rfl, hlo, hhi⟩ := h
  constructor
  · simp only [bytes]
    omega
  · simp only [bytes]
    omega

end Object

/-- A write through a pointer. -/
def writeTo (os : List (Object β)) (ptr off : ℤ) (v : β) : List (Object β) :=
  os.map fun o => if o.ptr = ptr then o.write off v else o

theorem bytes_writeTo (os : List (Object β)) (ptr off : ℤ) (v : β) :
    (writeTo os ptr off v).map Object.bytes = os.map Object.bytes := by
  rw [writeTo, List.map_map]
  refine List.map_congr_left ?_
  intro o _
  rw [Function.comp]
  split <;> rfl

/-- The memory holds what was written to the objects. -/
def Agrees (mem : ℤ → β) (os : List (Object β)) : Prop :=
  ∀ o ∈ os, ∀ off v, o.At o.ptr off → o.contents off = some v → mem (o.ptr + off) = v

variable {mem mem' : ℤ → β} {os : List (Object β)}

theorem Agrees.nil : Agrees mem [] := fun _ ho => absurd ho List.not_mem_nil

/-- The memory agrees as long as it is kept where objects are. -/
theorem Agrees.kept (h : Agrees mem os) (hkeep : ∀ o ∈ os, ∀ a, Owns o.bytes a → mem' a = mem a) :
    Agrees mem' os := by
  intro o ho off v hoff hv
  rw [hkeep o ho _ hoff.owns]
  exact h o ho off v hoff hv

theorem Agrees.of_subset {os' : List (Object β)} (h : Agrees mem os) (hsub : ∀ o ∈ os', o ∈ os) :
    Agrees mem os' := fun o ho => h o (hsub o ho)

theorem Agrees.fresh (h : Agrees mem os) (ptr size : ℤ) :
    Agrees mem (os ++ [Object.fresh ptr size]) := by
  intro o ho off v hoff hv
  rcases List.mem_append.1 ho with ho | ho
  · exact h o ho off v hoff hv
  · rw [List.mem_singleton.1 ho] at hv
    cases hv

/-- A write to an object is seen by this object and by no other one. -/
theorem Agrees.writeTo (h : Agrees mem os) (hapart : (os.map Object.bytes).Pairwise Disjoint)
    {t : Object β} (ht : t ∈ os) {ptr off : ℤ} (hat : t.At ptr off) (v : β) :
    Agrees (Function.update mem (ptr + off) v) (writeTo os ptr off v) := by
  intro o' ho' off' v' hoff' hv'
  obtain ⟨o, ho, rfl⟩ := List.mem_map.1 ho'
  by_cases hptr : o.ptr = ptr
  · rw [if_pos hptr] at hoff' hv' ⊢
    simp only [Object.write, hptr, Object.At] at hoff' hv' ⊢
    by_cases hoff : off' = off
    · subst hoff
      rw [Function.update_self] at hv' ⊢
      exact Option.some.inj hv'
    · rw [Function.update_of_ne hoff] at hv'
      rw [Function.update_of_ne (by omega), ← hptr]
      exact h o ho off' v' ⟨rfl, hoff'.2⟩ hv'
  · rw [if_neg hptr] at hoff' hv' ⊢
    -- the other object does not have the byte
    have hne : o.ptr + off' ≠ ptr + off := by
      intro heq
      have hto : o ≠ t := by
        rintro rfl
        exact hptr hat.1
      have hpair := List.pairwise_map.1 hapart
      have hsymm : Std.Symm fun o t : Object β => Disjoint o.bytes t.bytes :=
        ⟨fun _ _ h a ha hb => h a hb ha⟩
      refine hpair.forall ho ht hto (o.ptr + off') hoff'.owns ?_
      rw [heq]
      exact hat.owns
    rw [Function.update_of_ne hne]
    exact h o ho off' v' hoff' hv'

end Regions

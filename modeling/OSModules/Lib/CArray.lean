/-
  Arrays of a fixed length, which loops fill from the front and end with a `NULL`. A write past
  the end of an array stops the program; what was not written is whatever was there before.
-/
import OSModules.Lib.Prog
import Mathlib.Data.List.OfFn

namespace CArray

open Prog

variable {ε σ α β : Type} {n : ℕ}

/-! ## Operations -/

/-- `a[i] = x` -/
def store (a : Fin n → α) (i : ℕ) (x : α) (e : ε) : Program ε σ (Fin n → α) :=
  if h : i < n then pure (Function.update a ⟨i, h⟩ x) else throw e

/-- The loop `for (i = 0; a[i] != NULL; i++)`. -/
def foldToNull (f : β → α → Program ε σ β) (e : ε) : β → List (Option α) → Program ε σ β
  | _, [] => throw e
  | b, none :: _ => return b
  | b, some x :: a => do foldToNull f e (← f b x) a

/-- The elements before the `NULL`. -/
def upToNull : List (Option α) → List α
  | some x :: a => x :: upToNull a
  | _ => []

/-- The array starts with the elements of the list. -/
def Starts (a : Fin n → α) (l : List α) : Prop := l <+: List.ofFn a

/-- The array starts with the elements of the list and a `NULL`. -/
def Holds (a : Fin n → Option α) (l : List α) : Prop := Starts a (l.map some ++ [none])

/-! ## What arrays hold -/

section
variable {a : Fin n → α} {l : List α}

theorem Starts.nil : Starts a [] := List.nil_prefix

theorem Starts.length_le (h : Starts a l) : l.length ≤ n := by
  simpa using List.IsPrefix.length_le h

theorem Starts.store (h : Starts a l) (hi : l.length < n) (x : α) :
    Starts (Function.update a ⟨l.length, hi⟩ x) (l ++ [x]) := by
  unfold Starts at h ⊢
  rw [List.prefix_iff_getElem] at h ⊢
  obtain ⟨hle, h⟩ := h
  refine ⟨by simpa using hi, fun k hk => ?_⟩
  rw [List.length_append, List.length_singleton] at hk
  rw [List.getElem_ofFn]
  rcases Nat.lt_or_ge k l.length with hlt | hge
  · have hne : (⟨k, by omega⟩ : Fin n) ≠ ⟨l.length, hi⟩ := fun he => by
      have := congrArg Fin.val he
      simp only at this
      omega
    rw [List.getElem_append_left hlt, Function.update_of_ne hne, h k hlt, List.getElem_ofFn]
  · obtain rfl : k = l.length := by omega
    rw [Function.update_self, List.getElem_append_right le_rfl]
    simp

end

section
variable {a : Fin n → Option α} {l l' : List α}

theorem Starts.push (h : Starts a (l.map some)) (hi : l.length < n) (x : α) :
    Starts (Function.update a ⟨l.length, hi⟩ (some x)) ((l ++ [x]).map some) := by
  have hstore := h.store (by simpa using hi) (some x)
  simpa only [List.length_map, List.map_append, List.map_singleton] using hstore

theorem Starts.holds (h : Starts a (l.map some)) (hi : l.length < n) :
    Holds (Function.update a ⟨l.length, hi⟩ none) l := by
  have hstore := h.store (by simpa using hi) none
  simpa only [Holds, List.length_map] using hstore

theorem Holds.length_lt (h : Holds a l) : l.length < n := by
  simpa using List.IsPrefix.length_le h

theorem Holds.upToNull_eq (h : Holds a l) : upToNull (List.ofFn a) = l := by
  obtain ⟨rest, hrest⟩ := h
  rw [← hrest]
  clear hrest
  induction l with
  | nil => rfl
  | cons x l ih => exact congrArg (x :: ·) ih

theorem Holds.head {a : Fin (n + 1) → Option α} (h : Holds a l) : a 0 = l.head? := by
  have hcons : (l.map some ++ [none]).head? = some (a 0) := by
    obtain ⟨rest, hrest⟩ := h
    have hne : l.map some ++ [none] ≠ [] := by simp
    rw [← List.head?_append_of_ne_nil _ hne, hrest, List.ofFn_succ]
    rfl
  cases l with
  | nil => exact (Option.some.inj hcons).symm
  | cons x l => exact (Option.some.inj hcons).symm

/-- What is read up to the `NULL`. -/
theorem Holds.get (h : Holds a l) {i : Fin n} (hi : (i : ℕ) ≤ l.length) : a i = l[(i : ℕ)]? := by
  have hlt : (i : ℕ) < (l.map some ++ [none]).length := by simpa using Nat.lt_succ_of_le hi
  have hget := h.getElem hlt
  rw [List.getElem_ofFn] at hget
  rw [← hget]
  rcases Nat.lt_or_ge i l.length with hlt | hge
  · rw [List.getElem_append_left (by simpa using hlt), List.getElem_map,
      List.getElem?_eq_getElem hlt]
  · rw [List.getElem_append_right (by simpa using hge), List.getElem?_eq_none hge]
    simp

theorem Holds.unique (h : Holds a l) (h' : Holds a l') : l = l' :=
  h.upToNull_eq.symm.trans h'.upToNull_eq

theorem foldToNull_eq (h : Holds a l) (f : β → α → Program ε σ β) (e : ε) (b : β) :
    foldToNull f e b (List.ofFn a) = l.foldlM f b := by
  obtain ⟨rest, hrest⟩ := h
  rw [← hrest]
  clear hrest
  induction l generalizing b with
  | nil => rfl
  | cons x l ih =>
    rw [List.map_cons, List.cons_append, List.cons_append, foldToNull, List.foldlM_cons]
    exact bind_congr fun b' => ih b'

end

theorem wp_store {a : Fin n → α} {i : ℕ} {x : α} {e : ε} {s : σ} {E : ε → Prop}
    {Q : (Fin n → α) → σ → Prop} (hin : ∀ h : i < n, Q (Function.update a ⟨i, h⟩ x) s)
    (hout : n ≤ i → E e) : wp (store a i x e) s E Q := by
  unfold store
  split
  · next h => exact hin h
  · next h => exact hout (Nat.le_of_not_lt h)

end CArray

/-
  Stretches of indices with a property: the maximal ones, and the last among the shortest of
  those that are long enough.
-/
import Mathlib.Tactic

namespace Stretches

variable {P : ℕ → Prop}

/-- The `len` indices from `i` on have the property. -/
def Stretch (P : ℕ → Prop) (i len : ℕ) : Prop := ∀ j, i ≤ j → j < i + len → P j

/-- A stretch that ends on both sides. -/
structure Maximal (P : ℕ → Prop) (i len : ℕ) : Prop where
  pos : 0 < len
  holds : Stretch P i len
  left : ∀ j, j + 1 = i → ¬ P j
  right : ¬ P (i + len)

/-- A maximal stretch of length at least `b` such that no other is shorter, and none of those
that are as short comes after it. -/
structure Best (P : ℕ → Prop) (b i len : ℕ) : Prop where
  maximal : Maximal P i len
  fits : b ≤ len
  shortest : ∀ i' len', Maximal P i' len' → b ≤ len' → len ≤ len'
  last : ∀ i', Maximal P i' len → i' ≤ i

theorem Stretch.mono {i len i' len' : ℕ} (h : Stretch P i len) (hi : i ≤ i')
    (hlen : i' + len' ≤ i + len) : Stretch P i' len' := by
  intro j hij hj
  exact h j (by omega) (by omega)

/-- No stretch goes past the right end of a maximal one. -/
theorem Maximal.right_le {i len i' len' : ℕ} (h : Maximal P i len) (h' : Stretch P i' len')
    (hlo : i' ≤ i + len) : i' + len' ≤ i + len := by
  by_contra hlt
  exact h.right (h' (i + len) hlo (by omega))

/-- Maximal stretches that start at the same index are the same. -/
theorem Maximal.length_unique {i len len' : ℕ} (h : Maximal P i len) (h' : Maximal P i len') :
    len = len' := by
  have h₁ := h.right_le h'.holds (Nat.le_add_right i len)
  have h₂ := h'.right_le h.holds (Nat.le_add_right i len')
  omega

/-- No maximal stretch starts inside of another one. -/
theorem Maximal.not_inside {i len i' len' : ℕ} (h : Maximal P i len) (h' : Maximal P i' len')
    (hlo : i < i') (hhi : i' < i + len) : False :=
  h'.left (i' - 1) (by omega) (h.holds (i' - 1) (by omega) (by omega))

/-- A stretch can be made longer on the right until it ends. -/
theorem exists_right {N i len : ℕ} (hN : ∀ j, P j → j < N) (h : Stretch P i len) (hpos : 0 < len) :
    ∃ len', len ≤ len' ∧ Stretch P i len' ∧ ¬ P (i + len') := by
  have hend : i + len ≤ N := by
    have := hN (i + len - 1) (h _ (by omega) (by omega))
    omega
  obtain ⟨d, hd⟩ := Nat.exists_eq_add_of_le hend
  induction d generalizing len with
  | zero =>
    refine ⟨len, le_rfl, h, fun hP => ?_⟩
    have := hN _ hP
    omega
  | succ d ih =>
    by_cases hP : P (i + len)
    · have h' : Stretch P i (len + 1) := by
        intro j hij hj
        rcases Nat.lt_succ_iff_lt_or_eq.1 (show j < i + len + 1 from hj) with hj | rfl
        · exact h j hij hj
        · exact hP
      obtain ⟨len', hlen, h', hno⟩ := ih h' (by omega) (by omega) (by omega)
      exact ⟨len', by omega, h', hno⟩
    · exact ⟨len, le_rfl, h, hP⟩

/-- Every stretch lies in a maximal one. -/
theorem exists_maximal {N i len : ℕ} (hN : ∀ j, P j → j < N) (h : Stretch P i len)
    (hpos : 0 < len) : ∃ i' len', Maximal P i' len' ∧ i' ≤ i ∧ i + len ≤ i' + len' := by
  induction i generalizing len with
  | zero =>
    obtain ⟨len', hle, h', hno⟩ := exists_right hN h hpos
    exact ⟨0, len', ⟨by omega, h', fun j hj => by omega, hno⟩, le_rfl, by omega⟩
  | succ i ih =>
    by_cases hP : P i
    · have h' : Stretch P i (len + 1) := by
        intro j hij hj
        rcases hij.eq_or_lt with rfl | hij
        · exact hP
        · exact h j hij (by omega)
      obtain ⟨i', len', hmax, hi, hlen⟩ := ih h' (by omega)
      exact ⟨i', len', hmax, by omega, by omega⟩
    · obtain ⟨len', hle, h', hno⟩ := exists_right hN h hpos
      refine ⟨i + 1, len', ⟨by omega, h', ?_, hno⟩, le_rfl, by omega⟩
      intro j hj
      obtain rfl : j = i := by omega
      exact hP

end Stretches

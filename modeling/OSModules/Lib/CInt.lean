/-
  The C type `int`: 32-bit two's complement, and its little-endian bytes.
-/
import Mathlib.Tactic

namespace CInt

/-- The value an `int` holds after an operation with the mathematical result `x`. -/
def int32 (x : ℤ) : ℤ := (x + 2147483648) % 4294967296 - 2147483648

/-- The values an `int` can hold. -/
def InInt (x : ℤ) : Prop := -2147483648 ≤ x ∧ x ≤ 2147483647

instance (x : ℤ) : Decidable (InInt x) := inferInstanceAs (Decidable (_ ∧ _))

theorem inInt_int32 (x : ℤ) : InInt (int32 x) := by
  unfold InInt int32; omega

theorem int32_eq {x : ℤ} (h : InInt x) : int32 x = x := by
  unfold InInt at h; unfold int32; omega

/-- Byte `k` of `x`, the lowest first. -/
def leByte (x : ℤ) (k : ℕ) : UInt8 := UInt8.ofNat ((x % 4294967296).toNat / 256 ^ k)

/-- The `int` whose bytes, the lowest first, are `b`. -/
def ofBytes (b : ℕ → UInt8) : ℤ :=
  int32 ((b 0).toNat + 256 * (b 1).toNat + 65536 * (b 2).toNat + 16777216 * (b 3).toNat)

theorem inInt_ofBytes (b : ℕ → UInt8) : InInt (ofBytes b) := inInt_int32 _

theorem ofBytes_congr {b c : ℕ → UInt8} (h : ∀ k < 4, b k = c k) : ofBytes b = ofBytes c := by
  simp only [ofBytes, h 0 (by omega), h 1 (by omega), h 2 (by omega), h 3 (by omega)]

/-- The bytes of an `int` determine it. -/
theorem ofBytes_eq {x : ℤ} (h : InInt x) {b : ℕ → UInt8} (hb : ∀ k < 4, b k = leByte x k) :
    ofBytes b = x := by
  rw [ofBytes_congr hb]
  unfold InInt at h
  simp only [ofBytes, leByte, int32, UInt8.toNat_ofNat', Nat.reducePow]
  omega

/-- The bytes are those of the `int`. -/
theorem leByte_ofBytes (b : ℕ → UInt8) {k : ℕ} (hk : k < 4) : leByte (ofBytes b) k = b k := by
  have h₀ := (b 0).toNat_lt
  have h₁ := (b 1).toNat_lt
  have h₂ := (b 2).toNat_lt
  have h₃ := (b 3).toNat_lt
  rw [← UInt8.toNat_inj]
  simp only [leByte, ofBytes, int32, UInt8.toNat_ofNat']
  obtain rfl | rfl | rfl | rfl : k = 0 ∨ k = 1 ∨ k = 2 ∨ k = 3 := by omega
  all_goals simp only [Nat.reducePow]; omega

/-- The two lowest bytes. -/
theorem ofBytes_mod (b : ℕ → UInt8) : ofBytes b % 65536 = (b 0).toNat + 256 * (b 1).toNat := by
  have h₀ := (b 0).toNat_lt
  have h₁ := (b 1).toNat_lt
  simp only [ofBytes, int32]
  omega

/-! ## Division, which truncates towards zero -/

theorem tdiv_tmod_of_nonneg {x : ℤ} (h : 0 ≤ x) (m : ℤ) : x.tdiv m = x / m ∧ x.tmod m = x % m :=
  ⟨Int.tdiv_eq_ediv_of_nonneg h, Int.tmod_eq_emod_of_nonneg h⟩

end CInt

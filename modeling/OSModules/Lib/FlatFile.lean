/-
  A flat file: bytes at offsets, read and written at a position.  A write past the end
  extends the file, and what was never written in between reads as zero.
-/
import Mathlib.Data.List.GetD
import Mathlib.Data.List.OfFn
import Mathlib.Tactic

namespace FlatFile

/-- A file; no byte from `size` on was written. -/
structure File where
  byte : ℕ → UInt8
  size : ℕ
  hole : ∀ k, size ≤ k → byte k = 0

namespace File

/-- A file as `fopen` with mode `w` leaves it. -/
def empty : File := ⟨fun _ => 0, 0, fun _ _ => rfl⟩

/-- The bytes `[off, off + n)`. -/
def slice (f : File) (off n : ℕ) : List UInt8 := List.ofFn fun k : Fin n => f.byte (off + k)

/-- The bytes that `read` delivers: fewer than `n` at the end of the file. -/
def pread (f : File) (off n : ℕ) : List UInt8 := f.slice off (min n (f.size - off))

/-- The file after `write` of `data` at `off`. -/
def pwrite (f : File) (off : ℕ) (data : List UInt8) : File where
  byte k := if off ≤ k ∧ k < off + data.length then data.getD (k - off) 0 else f.byte k
  size := max f.size (off + data.length)
  hole k h := by
    rw [if_neg (by omega)]
    exact f.hole k (by omega)

variable (f : File) (off n k : ℕ) (data : List UInt8)

@[simp] theorem length_slice : (f.slice off n).length = n := by simp [slice]

@[simp] theorem size_pwrite : (f.pwrite off data).size = max f.size (off + data.length) := rfl

theorem getD_slice (f : File) (off : ℕ) {n k : ℕ} (h : k < n) :
    (f.slice off n).getD k 0 = f.byte (off + k) := by
  rw [List.getD_eq_getElem _ _ (by simpa using h)]
  simp [slice]

/-- Where `read` meets the end of the file or not. -/
theorem pread_eq_slice {f : File} {off n : ℕ} (h : off + n ≤ f.size) :
    f.pread off n = f.slice off n := by
  rw [pread, min_eq_left (by omega)]

theorem byte_pwrite_of_mem {f : File} {off k : ℕ} {data : List UInt8} (h₁ : off ≤ k)
    (h₂ : k < off + data.length) : (f.pwrite off data).byte k = data.getD (k - off) 0 :=
  if_pos ⟨h₁, h₂⟩

theorem byte_pwrite_of_not_mem {f : File} {off k : ℕ} {data : List UInt8}
    (h : k < off ∨ off + data.length ≤ k) : (f.pwrite off data).byte k = f.byte k :=
  if_neg (by omega)

theorem slice_congr {f g : File} {off n : ℕ} (h : ∀ k < n, f.byte (off + k) = g.byte (off + k)) :
    f.slice off n = g.slice off n := by
  simp only [slice, List.ofFn_inj]
  funext k
  exact h k k.2

/-- Reading what was just written. -/
theorem slice_pwrite_same : (f.pwrite off data).slice off data.length = data := by
  refine List.ext_getElem (by simp) fun k h₁ h₂ => ?_
  simp only [slice, List.getElem_ofFn]
  rw [byte_pwrite_of_mem (by omega) (by omega)]
  simp [List.getD, h₂]

/-- A write leaves the bytes outside its range alone. -/
theorem slice_pwrite_disjoint {f : File} {off off' n : ℕ} {data : List UInt8}
    (h : off' + n ≤ off ∨ off + data.length ≤ off') :
    (f.pwrite off data).slice off' n = f.slice off' n :=
  slice_congr fun _ _ => byte_pwrite_of_not_mem (by omega)

/-- Writing back what was read changes nothing. -/
theorem pwrite_slice {f : File} {off n : ℕ} (h : off + n ≤ f.size) :
    f.pwrite off (f.slice off n) = f := by
  obtain ⟨byte, size, hole⟩ := f
  simp only [pwrite, mk.injEq, length_slice] at h ⊢
  refine ⟨funext fun k => ?_, max_eq_left h⟩
  split_ifs with hk
  · have hoff : off + (k - off) = k := by omega
    rw [getD_slice _ _ (by omega), hoff]
  · rfl

end File

/-! ## Records: fields laid out one after the other -/

/-- The field `f` of a record, which starts at offset `off`. -/
theorem getD_field {α : Type} {n : ℕ} (off : ℕ) (pre : List α) (f : Fin n → α) (post : List α)
    (h : pre.length = off) (k : Fin n) (d : α) :
    (pre ++ (List.ofFn f ++ post)).getD (off + k) d = f k := by
  subst h
  rw [List.getD_append_right _ _ _ _ (by omega), Nat.add_sub_cancel_left,
    List.getD_append _ _ _ _ (by simp)]
  simp [List.getD]

end FlatFile

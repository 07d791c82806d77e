/-
  Objects at fixed places of a flat file, no two of which overlap: the file as a separate
  store for each object.
-/
import OSModules.Lib.FlatFile

namespace FlatFile

/-- The places of the objects in a file. -/
structure Layout (ι : Type) where
  offset : ι → ℕ
  size : ι → ℕ
  apart : ∀ i j, i ≠ j → offset i + size i ≤ offset j ∨ offset j + size j ≤ offset i

namespace Layout
variable {ι : Type} (L : Layout ι)

/-- The object lies inside the file. -/
def Inside (f : File) (i : ι) : Prop := L.offset i + L.size i ≤ f.size

/-- The bytes of an object. -/
def get (f : File) (i : ι) : List UInt8 := f.slice (L.offset i) (L.size i)

/-- The file after an object is written. -/
def put (f : File) (i : ι) (data : List UInt8) : File := f.pwrite (L.offset i) data

section
variable {L} {f : File} {i j : ι} {data : List UInt8}

instance (f : File) (i : ι) : Decidable (L.Inside f i) := inferInstanceAs (Decidable (_ ≤ _))

@[simp] theorem length_get : (L.get f i).length = L.size i := File.length_slice ..

theorem pread_eq_get (h : L.Inside f i) : f.pread (L.offset i) (L.size i) = L.get f i :=
  File.pread_eq_slice h

theorem size_le_put : f.size ≤ (L.put f i data).size := le_max_left _ _

theorem Inside.mono {g : File} (h : L.Inside f i) (hfg : f.size ≤ g.size) : L.Inside g i :=
  h.trans hfg

theorem inside_put (h : data.length = L.size i) : L.Inside (L.put f i data) i := by
  unfold Inside
  rw [put, File.size_pwrite, h]
  exact le_max_right _ _

theorem get_put_self (h : data.length = L.size i) : L.get (L.put f i data) i = data := by
  rw [get, put, ← h]
  exact File.slice_pwrite_same _ _ _

theorem get_put_of_ne (hij : i ≠ j) (h : data.length = L.size i) :
    L.get (L.put f i data) j = L.get f j := by
  refine File.slice_pwrite_disjoint ?_
  rw [h]
  exact (L.apart i j hij).symm

end

/-! ## The abstract store -/

section
variable {V : ι → Type} (value : (i : ι) → List UInt8 → V i)

/-- The objects that lie inside the file, with the values their bytes stand for. -/
def store (f : File) : (i : ι) → Option (V i) := fun i =>
  if L.Inside f i then some (value i (L.get f i)) else none

/-- The file holds every object of a store that keeps each object for itself. -/
def Holds (f : File) (d : (i : ι) → Option (V i)) : Prop :=
  ∀ i v, d i = some v → L.store value f i = some v

variable {L value} {f : File} {d : (i : ι) → Option (V i)}

theorem store_eq_some {i : ι} {v : V i} :
    L.store value f i = some v ↔ L.Inside f i ∧ value i (L.get f i) = v := by
  unfold store
  split_ifs with h
  · simp [h]
  · simp [h]

theorem holds_store : L.Holds value f (L.store value f) := fun _ _ h => h

/-- Writing an object in the file is writing it in the store, and no other object there. -/
theorem Holds.put [DecidableEq ι] (h : L.Holds value f d) (i : ι) {data : List UInt8}
    (hdata : data.length = L.size i) :
    L.Holds value (L.put f i data) (Function.update d i (some (value i data))) := by
  intro j v hj
  rw [store_eq_some]
  by_cases hij : i = j
  · subst hij
    rw [Function.update_self] at hj
    refine ⟨inside_put hdata, ?_⟩
    rw [get_put_self hdata]
    exact Option.some.inj hj
  · rw [Function.update_of_ne (Ne.symm hij)] at hj
    obtain ⟨hin, hget⟩ := store_eq_some.1 (h j v hj)
    refine ⟨hin.mono size_le_put, ?_⟩
    rw [get_put_of_ne hij hdata]
    exact hget

end

end Layout

end FlatFile

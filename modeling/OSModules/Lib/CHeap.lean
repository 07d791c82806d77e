/-
  A heap of strings: blocks of the size that `malloc` was asked for, until `free`.
-/
import OSModules.Lib.CString
import OSModules.Lib.Prog

namespace CHeap

open CString Prog

abbrev NULL : ℕ := 0

/-- A block of `size` bytes; without a text it is not initialised. -/
structure Block where
  size : ℕ
  text : Option Str
  deriving DecidableEq

/-- The blocks that are allocated. Each of them gets an address that no block had before. -/
@[ext] structure Heap where
  next : ℕ
  block : ℕ → Option Block
  pos : 0 < next
  null : block NULL = none
  fresh : ∀ p, next ≤ p → block p = none

namespace Heap

/-- No block was ever allocated. -/
def empty : Heap := ⟨1, fun _ => none, one_pos, rfl, fun _ _ => rfl⟩

def alloc (h : Heap) (size : ℕ) : Heap where
  next := h.next + 1
  block := Function.update h.block h.next (some ⟨size, none⟩)
  pos := Nat.succ_pos _
  null := by rw [Function.update_of_ne (ne_of_lt h.pos), h.null]
  fresh p hp := by
    rw [Function.update_of_ne (by omega)]
    exact h.fresh p (by omega)

def release (h : Heap) (p : ℕ) : Heap where
  next := h.next
  block := Function.update h.block p none
  pos := h.pos
  null := by
    rw [Function.update_apply, h.null, ite_self]
  fresh q hq := by
    rw [Function.update_apply, h.fresh q hq, ite_self]

def write (h : Heap) (p : ℕ) (text : Str) : Heap where
  next := h.next
  block := Function.update h.block p ((h.block p).map fun b => { b with text := some text })
  pos := h.pos
  null := by
    rw [Function.update_apply]
    split
    · next hp => rw [← hp, h.null, Option.map_none]
    · exact h.null
  fresh q hq := by
    rw [Function.update_apply]
    split
    · next hp => rw [← hp, h.fresh q hq, Option.map_none]
    · exact h.fresh q hq

/-- A new block with a text. -/
def put (h : Heap) (size : ℕ) (text : Str) : Heap := (h.alloc size).write h.next text

@[simp] theorem alloc_block_next (h : Heap) (size : ℕ) :
    (h.alloc size).block h.next = some ⟨size, none⟩ := Function.update_self _ _ _

@[simp] theorem release_next (h : Heap) (p : ℕ) : (h.release p).next = h.next := rfl

theorem put_block (h : Heap) (size : ℕ) (text : Str) :
    (h.put size text).block = Function.update h.block h.next (some ⟨size, some text⟩) := by
  ext1 p
  simp only [put, write, alloc_block_next, Option.map_some]
  rw [alloc, Function.update_idem]

theorem release_block (h : Heap) (p : ℕ) :
    (h.release p).block = Function.update h.block p none := rfl

/-- An allocated block is not at the next address. -/
theorem ne_next {h : Heap} {p : ℕ} (hp : h.block p ≠ none) : p ≠ h.next := by
  rintro rfl
  exact hp (h.fresh _ le_rfl)

end Heap

/-! ## The functions of the C library -/

section
variable {ε : Type}

def malloc (size : ℕ) : Program ε Heap ℕ := do
  let h ← get
  set (h.alloc size)
  return h.next

/-- Only what is allocated can be freed, or nothing. -/
def free (p : ℕ) (e : ε) : Program ε Heap Unit := do
  let h ← get
  if p = NULL then return
  assert (h.block p ≠ none) e
  set (h.release p)

/-- A block of `size` bytes has room for `room size` bytes, for none if it could not be had. -/
def strcpy (room : ℕ → ℕ) (p : ℕ) (text : Str) (bad overflow : ε) : Program ε Heap Unit := do
  let h ← get
  match h.block p with
  | none => throw bad
  | some b =>
    assert (text.length < room b.size) overflow
    set (h.write p text)

/-- The string in a block. -/
def load (p : ℕ) (bad : ε) : Program ε Heap Str := do
  match (← get).block p with
  | some ⟨_, some text⟩ => return text
  | _ => throw bad

variable {h : Heap} {E : ε → Prop}

theorem wp_malloc {size : ℕ} {Q : ℕ → Heap → Prop} :
    wp (malloc size) h E Q ↔ Q h.next (h.alloc size) := Iff.rfl

theorem wp_free {p : ℕ} {e : ε} (hp : h.block p ≠ none) {Q : Unit → Heap → Prop}
    (hQ : Q () (h.release p)) : wp (free p e) h E Q := by
  have hnull : p ≠ NULL := by
    rintro rfl
    exact hp h.null
  simp only [free, wp_bind, wp_get, if_neg hnull]
  exact wp_assert hp hQ

theorem wp_free_freed {p : ℕ} {e : ε} (hnull : p ≠ NULL) (hp : h.block p = none) (hE : E e)
    {Q : Unit → Heap → Prop} : wp (free p e) h E Q := by
  simp only [free, wp_bind, wp_get, if_neg hnull]
  exact wp_assert_not (not_not.2 hp) hE

theorem wp_strcpy {room : ℕ → ℕ} {p : ℕ} {text : Str} {bad overflow : ε} {b : Block}
    (hp : h.block p = some b) (hroom : text.length < room b.size) {Q : Unit → Heap → Prop}
    (hQ : Q () (h.write p text)) : wp (strcpy room p text bad overflow) h E Q := by
  simp only [strcpy, wp_bind, wp_get, hp]
  exact wp_assert hroom hQ

theorem wp_strcpy_overflow {room : ℕ → ℕ} {p : ℕ} {text : Str} {bad overflow : ε} {b : Block}
    (hp : h.block p = some b) (hroom : ¬ text.length < room b.size) (hE : E overflow)
    {Q : Unit → Heap → Prop} : wp (strcpy room p text bad overflow) h E Q := by
  simp only [strcpy, wp_bind, wp_get, hp]
  exact wp_assert_not hroom hE

theorem wp_load_freed {p : ℕ} {bad : ε} (hp : h.block p = none) (hE : E bad)
    {Q : Str → Heap → Prop} : wp (load p bad) h E Q := by
  simp only [load, wp_bind, wp_get, hp]
  exact hE

theorem wp_load {p : ℕ} {bad : ε} {size : ℕ} {text : Str} (hp : h.block p = some ⟨size, some text⟩)
    {Q : Str → Heap → Prop} (hQ : Q text h) : wp (load p bad) h E Q := by
  simp only [load, wp_bind, wp_get, hp]
  exact hQ

end

end CHeap

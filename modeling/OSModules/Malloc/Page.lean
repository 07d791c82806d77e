/-
  The two arrays of a page, shared by `alloc.c` and `ealloc.c`: the search for free
  blocks, and the loops that take and release them.
-/
import OSModules.Lib.Prog
import OSModules.Lib.Regions

namespace Malloc

open Prog Regions

def PAGESIZE : ℕ := 4096

def NULL : ℤ := 0

/-- `(void *) -1`, the result of a failed `mmap`. -/
def MAP_FAILED : ℤ := -1

/-- Where the C program has no defined behaviour. -/
inductive Fault
  | outOfBounds
  deriving DecidableEq, Repr

variable {N : ℕ}

/-- The bookkeeping of one page of `N` blocks. -/
structure Page (N : ℕ) where
  is_free : Fin N → ℤ
  alloc_blocks_len : Fin N → ℤ

namespace Page

def set_is_free (i v : ℤ) : Program Fault (Page N) Unit := do
  let i ← index N i .outOfBounds
  modify fun p => { p with is_free := Function.update p.is_free i v }

def set_alloc_blocks_len (i v : ℤ) : Program Fault (Page N) Unit := do
  let i ← index N i .outOfBounds
  modify fun p => { p with alloc_blocks_len := Function.update p.alloc_blocks_len i v }

/-- The first loop of `init_alloc` on a page. -/
def markFree : Program Fault (Page N) Unit := forTo 0 N fun i => set_is_free i 1

/-- The second loop of `init_alloc` on a page. -/
def clearLens : Program Fault (Page N) Unit := forTo 0 N fun i => set_alloc_blocks_len i 0

/-- How far `is_free[j] == 1` holds from `j` on. -/
def runLen (is_free : Fin N → ℤ) (j : ℕ) : ℕ :=
  if h : j < N then
    if is_free ⟨j, h⟩ = 1 then runLen is_free (j + 1) + 1 else 0
  else 0
termination_by N - j

theorem runLen_pos {is_free : Fin N → ℤ} {i : ℕ} (h : i < N) (hi : is_free ⟨i, h⟩ = 1) :
    0 < runLen is_free i := by
  rw [runLen, dif_pos h, if_pos hi]; omega

/-- The outer loop of the search, from block `i` on. -/
def search (is_free : Fin N → ℤ) (req_blocks : ℤ) (i : ℕ) (min_free_slot free_start_idx : ℤ) : ℤ :=
  if h : i < N then
    if hi : is_free ⟨i, h⟩ = 1 then
      have := runLen_pos h hi
      let len := runLen is_free i
      -- `i += (len-1)`, and then the `i++` of the loop
      if req_blocks ≤ len ∧ len ≤ min_free_slot then search is_free req_blocks (i + len) len i
      else search is_free req_blocks (i + len) min_free_slot free_start_idx
    else search is_free req_blocks (i + 1) min_free_slot free_start_idx
  else free_start_idx
termination_by N - i

/-- The first block of the smallest run of at least `req_blocks` free blocks, or -1. -/
def get_free_start_idx (is_free : Fin N → ℤ) (req_blocks : ℤ) : ℤ :=
  search is_free req_blocks 0 PAGESIZE (-1)

/-- The end of `alloc`, once the search has succeeded. -/
def take (free_start_idx req_blocks : ℤ) : Program Fault (Page N) Unit := do
  forTo free_start_idx (free_start_idx + req_blocks) fun i => set_is_free i 0
  set_alloc_blocks_len free_start_idx req_blocks

/-- The end of `dealloc`, once the block index is known. -/
def release (idx : ℤ) : Program Fault (Page N) Unit := do
  let i ← index N idx .outOfBounds
  let len := (← get).alloc_blocks_len i
  set_alloc_blocks_len idx 0
  forTo idx (idx + len) fun i => set_is_free i 1

/-! ## What each part does -/

/-- `is_free[j]` set to `v` for the `j` from `lo` up to `hi`. -/
@[simps] def filled (p : Page N) (lo hi v : ℤ) : Page N where
  is_free j := if lo ≤ j ∧ (j : ℤ) < hi then v else p.is_free j
  alloc_blocks_len := p.alloc_blocks_len

@[simps] def withLen (p : Page N) (i : Fin N) (len : ℤ) : Page N where
  is_free := p.is_free
  alloc_blocks_len := Function.update p.alloc_blocks_len i len

/-- The page of `init_alloc`. -/
@[simps] def fresh : Page N where
  is_free _ := 1
  alloc_blocks_len _ := 0

variable {p : Page N} {E : Fault → Prop}

theorem wp_set_is_free {i : Fin N} {v : ℤ} {Q : Unit → Page N → Prop}
    (hQ : Q () (p.filled i (i + 1) v)) : wp (set_is_free i v) p E Q := by
  rw [set_is_free, wp_bind]
  refine wp_index i rfl ?_
  rw [wp_modify]
  convert hQ using 1
  rw [filled]
  congr
  funext j
  by_cases hj : j = i
  · rw [hj, Function.update_self, if_pos (by omega)]
  · rw [Function.update_of_ne hj, if_neg (by omega)]

theorem wp_set_alloc_blocks_len {i : Fin N} {v : ℤ} {Q : Unit → Page N → Prop}
    (hQ : Q () (p.withLen i v)) : wp (set_alloc_blocks_len i v) p E Q := by
  rw [set_alloc_blocks_len, wp_bind]
  exact wp_index i rfl hQ

theorem filled_of_le {lo hi v : ℤ} (h : hi ≤ lo) : p.filled lo hi v = p := by
  rw [filled]
  congr
  funext j
  exact if_neg (by omega)

theorem wp_fill {lo hi v : ℤ} (hlo : 0 ≤ lo) (hhi : hi ≤ N) {Q : Unit → Page N → Prop}
    (hQ : Q () (p.filled lo hi v)) : wp (forTo lo hi fun i => set_is_free i v) p E Q := by
  rcases lt_or_ge hi lo with hlt | hle
  · -- the loop does nothing
    rw [filled_of_le hlt.le] at hQ
    rw [forTo, if_neg (by omega)]
    exact hQ
  refine (wp_forTo (I := fun j q => q = p.filled lo j v) hle (filled_of_le le_rfl).symm ?_).imp ?_
  · intro j q hj hjhi hq
    lift j to ℕ using by omega
    have := wp_set_is_free (p := q) (E := E) (i := ⟨j, by omega⟩) (v := v)
      (Q := fun _ q' => q' = p.filled lo (j + 1) v)
    refine this ?_
    rw [hq, filled, filled, filled]
    congr
    funext k
    simp only
    split_ifs <;> first | rfl | omega
  · rintro ⟨⟩ q rfl
    exact hQ

theorem wp_markFree {Q : Unit → Page N → Prop} (hQ : Q () { p with is_free := fun _ => 1 }) :
    wp markFree p E Q := by
  refine wp_fill le_rfl le_rfl ?_
  convert hQ using 1
  rw [filled]
  congr
  funext j
  exact if_pos (by omega)

theorem wp_clearLens {Q : Unit → Page N → Prop} (hQ : Q () { p with alloc_blocks_len := fun _ => 0 }) :
    wp clearLens p E Q := by
  refine (wp_forTo (I := fun j q => q.is_free = p.is_free ∧
    ∀ i : Fin N, (i : ℤ) < j → q.alloc_blocks_len i = 0) (by omega) ⟨rfl, by omega⟩ ?_).imp ?_
  · rintro j q hj hjN ⟨hf, hq⟩
    lift j to ℕ using hj
    refine wp_set_alloc_blocks_len (i := ⟨j, by omega⟩) ⟨hf, fun i hi => ?_⟩
    rw [withLen_alloc_blocks_len]
    by_cases hij : i = ⟨j, by omega⟩
    · rw [hij, Function.update_self]
    · rw [Function.update_of_ne hij]
      have hne : (i : ℕ) ≠ j := fun h => hij (Fin.ext h)
      exact hq i (by omega)
  · rintro ⟨⟩ q ⟨hf, hq⟩
    obtain rfl : q = { p with alloc_blocks_len := fun _ => 0 } := by
      cases q
      congr
      exact funext fun i => hq i (by omega)
    exact hQ

theorem wp_take {i : Fin N} {b : ℤ} (hin : i + b ≤ N) {Q : Unit → Page N → Prop}
    (hQ : Q () ((p.filled i (i + b) 0).withLen i b)) : wp (take i b) p E Q := by
  rw [take, wp_bind]
  exact wp_fill (by omega) hin (wp_set_alloc_blocks_len hQ)

theorem wp_release {i : Fin N} (hin : i + p.alloc_blocks_len i ≤ N) {Q : Unit → Page N → Prop}
    (hQ : Q () ((p.withLen i 0).filled i (i + p.alloc_blocks_len i) 1)) :
    wp (release i) p E Q := by
  rw [release, wp_bind]
  refine wp_index i rfl ?_
  rw [wp_bind, wp_get, wp_bind]
  exact wp_set_alloc_blocks_len (wp_fill (by omega) hin hQ)

/-! ## What the search finds -/

theorem runLen_le (is_free : Fin N → ℤ) {i : ℕ} (hi : i ≤ N) : i + runLen is_free i ≤ N := by
  fun_induction runLen is_free i with
  | case1 j h hj ih => have := ih h; omega
  | case2 => omega
  | case3 => omega

/-- A run is free. -/
theorem runLen_free {is_free : Fin N → ℤ} {i : ℕ} (j : Fin N) (hij : i ≤ j)
    (hj : j < i + runLen is_free i) : is_free j = 1 := by
  fun_induction runLen is_free i with
  | case1 i h hi ih =>
    rcases hij.eq_or_lt with rfl | hlt
    · exact hi
    · exact ih hlt (by omega)
  | case2 => omega
  | case3 => omega

/-- A start, as long as there is one, is that of a run of the wanted length. -/
def Found (is_free : Fin N → ℤ) (req_blocks free_start_idx : ℤ) : Prop :=
  free_start_idx ≠ -1 →
    ∃ i : Fin N, free_start_idx = i ∧ req_blocks ≤ runLen is_free i ∧ is_free i = 1

theorem found_search {is_free : Fin N → ℤ} {req_blocks : ℤ} (i : ℕ) (min_free_slot : ℤ) {start : ℤ}
    (h : Found is_free req_blocks start) :
    Found is_free req_blocks (search is_free req_blocks i min_free_slot start) := by
  fun_induction search is_free req_blocks i min_free_slot start with
  | case1 i _ _ hlt hi _ len hfit ih => exact ih fun _ => ⟨⟨i, hlt⟩, rfl, hfit.1, hi⟩
  | case2 _ _ _ _ _ _ _ _ ih => exact ih h
  | case3 _ _ _ _ _ ih => exact ih h
  | case4 => exact h

/-- The blocks found lie in the page and are free. -/
theorem get_free_start_idx_free {is_free : Fin N → ℤ} {b : ℤ}
    (h : get_free_start_idx is_free b ≠ -1) :
    ∃ i : Fin N, get_free_start_idx is_free b = i ∧ i + b ≤ N ∧
      ∀ j : Fin N, i ≤ j → (j : ℤ) < i + b → is_free j = 1 := by
  have h₀ : Found is_free b (-1) := fun h => absurd rfl h
  obtain ⟨i, hi, hb, -⟩ := found_search 0 PAGESIZE h₀ h
  have hin := runLen_le is_free i.2.le
  exact ⟨i, hi, by omega, fun j hij hj => runLen_free j hij (by omega)⟩

/-! ## Pages that represent a heap -/

variable {κ : Type} [DecidableEq κ]

/-- The arrays of the pages record the live regions of the heap and nothing else. -/
structure Rep (pages : κ → Page N) (h : Heap κ N) : Prop where
  is_free : ∀ k i, ((pages k).is_free i = 0 ∧ h.Busy k i) ∨ ((pages k).is_free i = 1 ∧ ¬ h.Busy k i)
  alloc_blocks_len : ∀ k i, (pages k).alloc_blocks_len i = h.lenAt k i

namespace Rep
variable {pages : κ → Page N} {h : Heap κ N}

theorem is_free_eq_zero (hrep : Rep pages h) {k : κ} {i : Fin N} :
    (pages k).is_free i = 0 ↔ h.Busy k i := by
  rcases hrep.is_free k i with ⟨hf, hb⟩ | ⟨hf, hb⟩ <;> simp [hf, hb]

theorem is_free_eq_one (hrep : Rep pages h) {k : κ} {i : Fin N} :
    (pages k).is_free i = 1 ↔ ¬ h.Busy k i := by
  rcases hrep.is_free k i with ⟨hf, hb⟩ | ⟨hf, hb⟩ <;> simp [hf, hb]

theorem fresh : Rep (fun _ : κ => Page.fresh) (Heap.empty : Heap κ N) :=
  ⟨fun _ _ => Or.inr ⟨rfl, Heap.not_busy_empty⟩, fun _ _ => rfl⟩

/-- Pages that represent the same live regions are the same. -/
theorem unique {pages' : κ → Page N} {h' : Heap κ N} (hrep : Rep pages h) (hrep' : Rep pages' h')
    (hlive : h.live = h'.live) : pages = pages' := by
  obtain rfl : h = h' := by cases h; cases h'; congr
  funext k
  have hf : (pages k).is_free = (pages' k).is_free := by
    funext i
    by_cases hb : h.Busy k i
    · rw [hrep.is_free_eq_zero.2 hb, hrep'.is_free_eq_zero.2 hb]
    · rw [hrep.is_free_eq_one.2 hb, hrep'.is_free_eq_one.2 hb]
  have hl : (pages k).alloc_blocks_len = (pages' k).alloc_blocks_len := by
    funext i
    rw [hrep.alloc_blocks_len, hrep'.alloc_blocks_len]
  cases hp : pages k
  cases hp' : pages' k
  rw [hp, hp'] at hf hl
  congr

/-- A page without live regions is as `init_alloc` left it. -/
theorem eq_fresh (hrep : Rep pages h) {k : κ} (hno : ∀ r ∈ h.live, r.arena ≠ k) :
    pages k = Page.fresh := by
  have hf : (pages k).is_free = fun _ => 1 := by
    funext i
    refine hrep.is_free_eq_one.2 ?_
    rintro ⟨r, hr, hri⟩
    exact hno r hr hri.1
  have hl : (pages k).alloc_blocks_len = fun _ => 0 := by
    funext i
    rw [hrep.alloc_blocks_len, Heap.lenAt_eq_zero fun r hr hri => hno r hr hri.1, Nat.cast_zero]
  cases hp : pages k
  rw [hp] at hf hl
  rw [Page.fresh]
  congr

/-- Taking free blocks adds a live region. -/
theorem wp_take (hrep : Rep pages h) (k : κ) {i : Fin N} {b : ℕ} (hb : 0 < b) (hin : i + b ≤ N)
    (hfree : ∀ j : Fin N, i ≤ j → (j : ℤ) < i + b → (pages k).is_free j = 1) :
    wp (take i b) (pages k) E fun _ p =>
      ∃ hr, Rep (Function.update pages k p) (h.insert ⟨k, i, b⟩ hb hin hr) := by
  refine Page.wp_take (by omega) ?_
  refine ⟨?_, ?_, ?_⟩
  · rintro k' j ⟨rfl, hij, hj⟩ hbusy
    have hjN : j < N := by simp only at hj; omega
    refine hrep.is_free_eq_one.1 (hfree ⟨j, hjN⟩ hij ?_) hbusy
    simp only at hj ⊢
    omega
  · intro k' j
    rw [Heap.busy_insert, Region.Mem]
    by_cases hk : k' = k
    · subst hk
      rw [Function.update_self, withLen_is_free, filled_is_free]
      split
      · next hj => exact Or.inl ⟨rfl, Or.inr ⟨rfl, by simp only; omega⟩⟩
      · next hj =>
        have hno : ¬ (i ≤ j ∧ (j : ℕ) < i + b) := by omega
        rcases hrep.is_free k' j with ⟨hf, hbusy⟩ | ⟨hf, hbusy⟩
        · exact Or.inl ⟨hf, Or.inl hbusy⟩
        · refine Or.inr ⟨hf, ?_⟩
          rintro (hb | ⟨-, hj⟩)
          exacts [hbusy hb, hno hj]
    · rw [Function.update_of_ne hk]
      rcases hrep.is_free k' j with ⟨hf, hbusy⟩ | ⟨hf, hbusy⟩
      · exact Or.inl ⟨hf, Or.inl hbusy⟩
      · refine Or.inr ⟨hf, ?_⟩
        rintro (hb | ⟨hk', -⟩)
        exacts [hbusy hb, hk hk'.symm]
  · intro k' j
    rw [Heap.lenAt_insert]
    by_cases hk : k' = k
    · subst hk
      rw [Function.update_self, withLen_alloc_blocks_len]
      by_cases hj : j = i
      · subst hj
        rw [Function.update_self, if_pos ⟨rfl, rfl⟩]
      · rw [Function.update_of_ne hj, if_neg, filled_alloc_blocks_len, hrep.alloc_blocks_len]
        exact fun hij => hj (Fin.ext hij.2.symm)
    · rw [Function.update_of_ne hk, if_neg fun hkk => hk hkk.1.symm, hrep.alloc_blocks_len]

/-- Releasing at a block frees the region that starts there, if one does. -/
theorem wp_release (hrep : Rep pages h) (k : κ) (i : Fin N) :
    wp (release i) (pages k) E fun _ p => Rep (Function.update pages k p) (h.free k i) := by
  have hlen := hrep.alloc_blocks_len k i
  have hin : i + h.lenAt k i ≤ N := by
    rcases h.lenAt_cases k i with ⟨r, hr, -, hs, hl⟩ | ⟨-, hl⟩
    · have := h.inside r hr
      omega
    · omega
  refine Page.wp_release (by omega) ⟨?_, ?_⟩
  · intro k' j
    rw [Heap.busy_free]
    by_cases hk : k' = k
    · subst hk
      rw [Function.update_self, filled_is_free, hlen]
      split
      · next hj =>
        refine Or.inr ⟨rfl, ?_⟩
        rintro ⟨-, hno⟩
        exact hno ⟨rfl, by omega⟩
      · next hj =>
        have hno : ¬ (k' = k' ∧ (i : ℕ) ≤ j ∧ (j : ℕ) < i + h.lenAt k' i) := by omega
        rcases hrep.is_free k' j with ⟨hf, hbusy⟩ | ⟨hf, hbusy⟩
        · exact Or.inl ⟨hf, hbusy, hno⟩
        · exact Or.inr ⟨hf, fun hb => hbusy hb.1⟩
    · rw [Function.update_of_ne hk]
      rcases hrep.is_free k' j with ⟨hf, hbusy⟩ | ⟨hf, hbusy⟩
      · exact Or.inl ⟨hf, hbusy, fun hkk => hk hkk.1⟩
      · exact Or.inr ⟨hf, fun hb => hbusy hb.1⟩
  · intro k' j
    rw [Heap.lenAt_free]
    by_cases hk : k' = k
    · subst hk
      rw [Function.update_self, filled_alloc_blocks_len, withLen_alloc_blocks_len]
      by_cases hj : j = i
      · subst hj
        rw [Function.update_self, if_pos ⟨rfl, rfl⟩]; rfl
      · rw [Function.update_of_ne hj, if_neg, hrep.alloc_blocks_len]
        exact fun hij => hj (Fin.ext hij.2)
    · rw [Function.update_of_ne hk, if_neg fun hkk => hk hkk.1, hrep.alloc_blocks_len]

/-- What a deallocation changes: the blocks of the region are free, and its length is gone. -/
theorem free_eq {pages' : κ → Page N} {k : κ} {i : Fin N} (hrep : Rep pages h)
    (hrep' : Rep pages' (h.free k i)) (q : κ) (j : Fin N) :
    (pages' q).is_free j = (if q = k ∧ i ≤ j ∧ (j : ℕ) < i + h.lenAt k i then 1
      else (pages q).is_free j) ∧
    (pages' q).alloc_blocks_len j = if q = k ∧ j = i then 0 else (pages q).alloc_blocks_len j := by
  constructor
  · split
    · next hqj =>
      rw [hrep'.is_free_eq_one, Heap.busy_free]
      exact fun hno => hno.2 hqj
    · next hqj =>
      rcases hrep.is_free q j with ⟨hf, hb⟩ | ⟨hf, hb⟩
      · rw [hf, hrep'.is_free_eq_zero, Heap.busy_free]
        exact ⟨hb, hqj⟩
      · rw [hf, hrep'.is_free_eq_one, Heap.busy_free]
        exact fun hno => hb hno.1
  · rw [hrep'.alloc_blocks_len, Heap.lenAt_free, hrep.alloc_blocks_len]
    by_cases hqj : q = k ∧ j = i
    · rw [if_pos hqj, if_pos ⟨hqj.1, congrArg Fin.val hqj.2⟩, Nat.cast_zero]
    · rw [if_neg hqj, if_neg fun hq => hqj ⟨hq.1, Fin.ext hq.2⟩]

end Rep

end Page

end Malloc

/-
  Regions of the cells of arenas, heaps of regions that are apart, and where a heap
  lies in memory.
-/
import Mathlib.Tactic

namespace Regions

variable {κ : Type} {N : ℕ}

/-- The cells `start .. start + len - 1` of an arena. -/
structure Region (κ : Type) where
  arena : κ
  start : ℕ
  len : ℕ

namespace Region

def Mem (r : Region κ) (k : κ) (i : ℕ) : Prop :=
  r.arena = k ∧ r.start ≤ i ∧ i < r.start + r.len

/-- No cell is in both. -/
def Apart (r t : Region κ) : Prop := ∀ k i, r.Mem k i → ¬ t.Mem k i

instance : Std.Symm (@Apart κ) := ⟨fun _ _ h k i ht hr => h k i hr ht⟩

theorem mem_start {r : Region κ} (h : 0 < r.len) : r.Mem r.arena r.start :=
  ⟨rfl, le_rfl, by omega⟩

end Region

/-- Regions of arenas of `N` cells each, none of them empty and no two of them sharing a cell. -/
structure Heap (κ : Type) (N : ℕ) where
  live : List (Region κ)
  pos : ∀ r ∈ live, 0 < r.len
  inside : ∀ r ∈ live, r.start + r.len ≤ N
  apart : live.Pairwise Region.Apart

namespace Heap

/-- A cell of a live region. -/
def Busy (h : Heap κ N) (k : κ) (i : ℕ) : Prop := ∃ r ∈ h.live, r.Mem k i

/-- No region is live. -/
def empty : Heap κ N := ⟨[], by simp, by simp, .nil⟩

/-- One more region, of cells that no live region has. -/
def insert (h : Heap κ N) (r : Region κ) (hpos : 0 < r.len) (hin : r.start + r.len ≤ N)
    (hr : ∀ k i, r.Mem k i → ¬ h.Busy k i) : Heap κ N where
  live := h.live ++ [r]
  pos := by
    intro t ht
    rcases List.mem_append.1 ht with ht | ht
    · exact h.pos t ht
    · rw [List.mem_singleton.1 ht]; exact hpos
  inside := by
    intro t ht
    rcases List.mem_append.1 ht with ht | ht
    · exact h.inside t ht
    · rw [List.mem_singleton.1 ht]; exact hin
  apart := by
    refine List.pairwise_append.2 ⟨h.apart, List.pairwise_singleton _ _, ?_⟩
    intro t ht r' hr' k i hti hri
    rw [List.mem_singleton.1 hr'] at hri
    exact hr k i hri ⟨t, ht, hti⟩

variable {h : Heap κ N}

/-- A live region is the only one with any of its cells. -/
theorem eq_of_mem {r t : Region κ} (hr : r ∈ h.live) (ht : t ∈ h.live) {k : κ} {i : ℕ}
    (hri : r.Mem k i) (hti : t.Mem k i) : r = t := by
  by_contra hne
  exact h.apart.forall hr ht hne k i hri hti

theorem start_lt {r : Region κ} (hr : r ∈ h.live) : r.start < N := by
  have h₁ := h.inside r hr
  have h₂ := h.pos r hr
  omega

theorem lt_of_mem {r : Region κ} (hr : r ∈ h.live) {k : κ} {i : ℕ} (hi : r.Mem k i) : i < N := by
  have h₁ := h.inside r hr
  have h₂ := hi.2.2
  omega

theorem eq_of_start {r t : Region κ} (hr : r ∈ h.live) (ht : t ∈ h.live)
    (hk : r.arena = t.arena) (hs : r.start = t.start) : r = t := by
  have hri := Region.mem_start (h.pos r hr)
  refine h.eq_of_mem hr ht hri ?_
  rw [hk, hs]
  exact Region.mem_start (h.pos t ht)

@[simp] theorem not_busy_empty {k : κ} {i : ℕ} : ¬ (empty : Heap κ N).Busy k i := by
  rintro ⟨r, hr, -⟩
  exact absurd hr (by simp [empty])

@[simp] theorem busy_insert {r : Region κ} {hpos hin hr} {k : κ} {i : ℕ} :
    (h.insert r hpos hin hr).Busy k i ↔ h.Busy k i ∨ r.Mem k i := by
  constructor
  · rintro ⟨t, ht, hti⟩
    rcases List.mem_append.1 ht with ht | ht
    · exact Or.inl ⟨t, ht, hti⟩
    · rw [List.mem_singleton.1 ht] at hti; exact Or.inr hti
  · rintro (⟨t, ht, hti⟩ | hri)
    · exact ⟨t, List.mem_append_left _ ht, hti⟩
    · exact ⟨r, List.mem_append_right _ (List.mem_singleton.2 rfl), hri⟩

variable [DecidableEq κ]

/-- The length of the live region that starts at a cell, 0 if none does. -/
def lenAt (h : Heap κ N) (k : κ) (i : ℕ) : ℕ :=
  ((h.live.find? fun r => r.arena = k ∧ r.start = i).map Region.len).getD 0

/-- The region that starts at a cell, if one does, is no longer live. -/
def free (h : Heap κ N) (k : κ) (i : ℕ) : Heap κ N where
  live := h.live.filter fun r => ¬ (r.arena = k ∧ r.start = i)
  pos r hr := h.pos r (List.mem_of_mem_filter hr)
  inside r hr := h.inside r (List.mem_of_mem_filter hr)
  apart := h.apart.filter _

theorem mem_free {k : κ} {i : ℕ} {r : Region κ} :
    r ∈ (h.free k i).live ↔ r ∈ h.live ∧ ¬ (r.arena = k ∧ r.start = i) := by
  simp only [free, List.mem_filter, decide_eq_true_eq]

/-! ## The length recorded at a cell -/

theorem lenAt_start {r : Region κ} (hr : r ∈ h.live) : h.lenAt r.arena r.start = r.len := by
  rcases ht : h.live.find? (fun t => t.arena = r.arena ∧ t.start = r.start) with _ | t
  · have := List.find?_eq_none.1 ht r hr
    simp at this
  · have hp := List.find?_some ht
    simp only [decide_eq_true_eq] at hp
    have : t = r := h.eq_of_start (List.mem_of_find?_eq_some ht) hr hp.1 hp.2
    rw [lenAt, ht, this]; rfl

theorem lenAt_eq_zero {k : κ} {i : ℕ} (hno : ∀ r ∈ h.live, ¬ (r.arena = k ∧ r.start = i)) :
    h.lenAt k i = 0 := by
  rw [lenAt, List.find?_eq_none.2 fun r hr => by simpa using hno r hr]; rfl

/-- A cell starts a live region or has length 0. -/
theorem lenAt_cases (h : Heap κ N) (k : κ) (i : ℕ) :
    (∃ r ∈ h.live, r.arena = k ∧ r.start = i ∧ h.lenAt k i = r.len) ∨
      (∀ r ∈ h.live, ¬ (r.arena = k ∧ r.start = i)) ∧ h.lenAt k i = 0 := by
  by_cases hex : ∃ r ∈ h.live, r.arena = k ∧ r.start = i
  · obtain ⟨r, hr, rfl, rfl⟩ := hex
    exact Or.inl ⟨r, hr, rfl, rfl, h.lenAt_start hr⟩
  · have hno : ∀ r ∈ h.live, ¬ (r.arena = k ∧ r.start = i) := fun r hr hri => hex ⟨r, hr, hri⟩
    exact Or.inr ⟨hno, h.lenAt_eq_zero hno⟩

theorem lenAt_insert {r : Region κ} {hpos hin hr} {k : κ} {i : ℕ} :
    (h.insert r hpos hin hr).lenAt k i =
      if r.arena = k ∧ r.start = i then r.len else h.lenAt k i := by
  split
  · next hri =>
    obtain ⟨rfl, rfl⟩ := hri
    exact lenAt_start (List.mem_append_right _ (List.mem_singleton.2 rfl))
  · next hri =>
    simp only [lenAt, insert, List.find?_append, List.find?_singleton, hri, decide_false]
    cases h.live.find? _ <;> rfl

theorem lenAt_free {k k' : κ} {i j : ℕ} :
    (h.free k i).lenAt k' j = if k' = k ∧ j = i then 0 else h.lenAt k' j := by
  split
  · next hkj =>
    obtain ⟨rfl, rfl⟩ := hkj
    exact lenAt_eq_zero fun r hr => (mem_free.1 hr).2
  · next hkj =>
    rcases h.lenAt_cases k' j with ⟨r, hr, rfl, rfl, hlen⟩ | ⟨hno, hlen⟩
    · rw [hlen]
      exact lenAt_start (mem_free.2 ⟨hr, hkj⟩)
    · rw [hlen]
      exact lenAt_eq_zero fun r hr => hno r (mem_free.1 hr).1

/-- What freeing a region frees: its cells. -/
theorem busy_free {k k' : κ} {i j : ℕ} :
    (h.free k i).Busy k' j ↔
      h.Busy k' j ∧ ¬ (k' = k ∧ i ≤ j ∧ j < i + h.lenAt k i) := by
  constructor
  · rintro ⟨r, hfree, hrj⟩
    obtain ⟨hr, hri⟩ := mem_free.1 hfree
    refine ⟨⟨r, hr, hrj⟩, ?_⟩
    rintro ⟨rfl, hij, hj⟩
    rcases h.lenAt_cases k' i with ⟨t, ht, hk, rfl, hlen⟩ | ⟨-, hlen⟩
    · obtain rfl := h.eq_of_mem hr ht hrj ⟨hk, hij, by omega⟩
      exact hri ⟨hk, rfl⟩
    · omega
  · rintro ⟨⟨r, hr, hrj⟩, hno⟩
    refine ⟨r, mem_free.2 ⟨hr, ?_⟩, hrj⟩
    rintro ⟨rfl, rfl⟩
    rw [h.lenAt_start hr] at hno
    exact hno ⟨hrj.1.symm, hrj.2⟩

end Heap

/-! ## Gaps -/

/-- Indices that are all covered are not more than what covers them. -/
theorem card_le_of_covered {L : List (Region κ)} {S : Finset ℕ}
    (hS : ∀ i ∈ S, ∃ r ∈ L, r.start ≤ i ∧ i < r.start + r.len) :
    S.card ≤ (L.map Region.len).sum := by
  induction L generalizing S with
  | nil =>
    have hempty : S = ∅ := by
      refine Finset.eq_empty_of_forall_notMem ?_
      intro i hi
      obtain ⟨r, hr, -⟩ := hS i hi
      exact absurd hr List.not_mem_nil
    rw [hempty]
    rfl
  | cons r L ih =>
    -- those that the first region covers, and the others
    have hfirst : (S ∩ Finset.Ico r.start (r.start + r.len)).card ≤ r.len := by
      refine (Finset.card_le_card Finset.inter_subset_right).trans ?_
      rw [Nat.card_Ico, Nat.add_sub_cancel_left]
    have hrest : (S \ Finset.Ico r.start (r.start + r.len)).card ≤ (L.map Region.len).sum := by
      refine ih ?_
      intro i hi
      obtain ⟨hi, hno⟩ := Finset.mem_sdiff.1 hi
      obtain ⟨t, ht, hti⟩ := hS i hi
      rcases List.mem_cons.1 ht with rfl | ht
      · exact absurd (Finset.mem_Ico.2 hti) hno
      · exact ⟨t, ht, hti⟩
    have hsplit := Finset.card_inter_add_card_sdiff S (Finset.Ico r.start (r.start + r.len))
    rw [List.map_cons, List.sum_cons]
    omega

namespace Heap

variable {h : Heap κ N} {k : κ} {b : ℕ}

/-- A free cell comes less than `b` cells after the start of the arena or the end of a live region, if
no `b` cells in a row are free. -/
theorem gap_start {i : ℕ} (hi : i < N) (hfree : ¬ h.Busy k i)
    (hno : ∀ j, j + b ≤ N → ∃ i, j ≤ i ∧ i < j + b ∧ h.Busy k i) :
    ∃ d, d + 1 < b ∧ (i = d ∨ ∃ r ∈ h.live, r.arena = k ∧ i = r.start + r.len + d) := by
  -- the free cells before `i`, back to a start
  have hback : ∀ n ≤ i, (∃ d, (∀ j, i - d ≤ j → j ≤ i → ¬ h.Busy k j) ∧ d ≤ i ∧
      (i = d ∨ ∃ r ∈ h.live, r.arena = k ∧ i = r.start + r.len + d)) ∨
      ∀ j, i - n ≤ j → j ≤ i → ¬ h.Busy k j := by
    intro n
    induction n with
    | zero =>
      intro _
      refine Or.inr ?_
      intro j hj hji
      obtain rfl : j = i := by omega
      exact hfree
    | succ n ih =>
      intro hn
      rcases ih (by omega) with hfound | hall
      · exact Or.inl hfound
      · by_cases hbusy : h.Busy k (i - (n + 1))
        · obtain ⟨r, hr, hk, hlo, hhi⟩ := hbusy
          refine Or.inl ⟨n, hall, by omega, Or.inr ⟨r, hr, hk, ?_⟩⟩
          by_contra hne
          exact hall (i - n) le_rfl (by omega) ⟨r, hr, hk, by omega, by omega⟩
        · refine Or.inr ?_
          intro j hj hji
          rcases hj.eq_or_lt with rfl | hlt
          · exact hbusy
          · exact hall j (by omega) hji
  have hgap : ∃ d, (∀ j, i - d ≤ j → j ≤ i → ¬ h.Busy k j) ∧ d ≤ i ∧
      (i = d ∨ ∃ r ∈ h.live, r.arena = k ∧ i = r.start + r.len + d) := by
    rcases hback i le_rfl with hfound | hall
    · exact hfound
    · exact ⟨i, hall, le_rfl, Or.inl rfl⟩
  obtain ⟨d, hall, hdi, hd⟩ := hgap
  refine ⟨d, ?_, hd⟩
  by_contra hlong
  obtain ⟨j, hj, hjb, hbusy⟩ := hno (i + 1 - b) (by omega)
  exact hall j (by omega) (by omega) hbusy

variable [DecidableEq κ]

/-- The live regions of an arena. -/
def on (h : Heap κ N) (k : κ) : List (Region κ) := h.live.filter (·.arena = k)

/-- If no `b` cells in a row are free, then the live regions and, for each of them and one more,
less than `b` cells make up the arena. -/
theorem le_of_no_gap (hb : 0 < b) (hno : ∀ j, j + b ≤ N → ∃ i, j ≤ i ∧ i < j + b ∧ h.Busy k i) :
    N ≤ ((h.on k).map Region.len).sum + ((h.on k).length + 1) * (b - 1) := by
  classical
  have hbusy : ((Finset.range N).filter fun i => h.Busy k i).card ≤
      ((h.on k).map Region.len).sum := by
    refine card_le_of_covered ?_
    intro i hi
    obtain ⟨r, hr, hk, hri⟩ := (Finset.mem_filter.1 hi).2
    exact ⟨r, List.mem_filter.2 ⟨hr, decide_eq_true hk⟩, hri⟩
  -- each free cell is given by the start of its gap and the distance from there
  let starts : List ℕ := 0 :: (h.on k).map fun r => r.start + r.len
  have hfree : ((Finset.range N).filter fun i => ¬ h.Busy k i).card ≤
      ((h.on k).length + 1) * (b - 1) := by
    calc ((Finset.range N).filter fun i => ¬ h.Busy k i).card
        ≤ ((starts.toFinset ×ˢ Finset.range (b - 1)).image fun p => p.1 + p.2).card := by
          refine Finset.card_le_card ?_
          intro i hi
          obtain ⟨hi, hfree⟩ := Finset.mem_filter.1 hi
          obtain ⟨d, hd, hstart⟩ := gap_start (Finset.mem_range.1 hi) hfree hno
          rw [Finset.mem_image]
          rcases hstart with rfl | ⟨r, hr, hk, rfl⟩
          · refine ⟨(0, i), Finset.mem_product.2 ⟨?_, Finset.mem_range.2 (by omega)⟩, zero_add _⟩
            exact List.mem_toFinset.2 List.mem_cons_self
          · refine ⟨(r.start + r.len, d),
              Finset.mem_product.2 ⟨?_, Finset.mem_range.2 (by omega)⟩, rfl⟩
            refine List.mem_toFinset.2 (List.mem_cons_of_mem _ (List.mem_map.2 ⟨r, ?_, rfl⟩))
            exact List.mem_filter.2 ⟨hr, decide_eq_true hk⟩
      _ ≤ (starts.toFinset ×ˢ Finset.range (b - 1)).card := Finset.card_image_le
      _ = starts.toFinset.card * (b - 1) := by rw [Finset.card_product, Finset.card_range]
      _ ≤ ((h.on k).length + 1) * (b - 1) := by
          refine Nat.mul_le_mul_right _ ((List.toFinset_card_le starts).trans ?_)
          rw [List.length_cons, List.length_map]
  have hsplit := Finset.card_filter_add_card_filter_not (s := Finset.range N) (fun i => h.Busy k i)
  rw [Finset.card_range] at hsplit
  omega

end Heap

/-! ## Where a heap lies in memory -/

/-- The address and the size of a region whose arena starts at `base` and whose cells have `M`
bytes. -/
def Region.bytes (base : κ → ℤ) (M : ℤ) (r : Region κ) : ℤ × ℤ :=
  (base r.arena + M * r.start, M * r.len)

/-- The byte `a` is one of the bytes `x`. -/
def Owns (x : ℤ × ℤ) (a : ℤ) : Prop := x.1 ≤ a ∧ a < x.1 + x.2

/-- No byte is in both. -/
def Disjoint (x y : ℤ × ℤ) : Prop := ∀ a, Owns x a → ¬ Owns y a

/-- The arenas, of `N` cells of `M` bytes, do not overlap. -/
structure Placed (base : κ → ℤ) (M : ℤ) (N : ℕ) : Prop where
  pos : 0 < M
  apart : ∀ k k', k ≠ k' → base k + M * N ≤ base k' ∨ base k' + M * N ≤ base k

namespace Placed

variable {base : κ → ℤ} {M : ℤ} (hp : Placed base M N)

include hp

/-- Two cells that share a byte are one cell. -/
theorem cell_inj {k k' : κ} {i j : ℕ} (hi : i < N) (hj : j < N) {a : ℤ}
    (ha : Owns (base k + M * i, M) a) (ha' : Owns (base k' + M * j, M) a) : k = k' ∧ i = j := by
  obtain ⟨h₁, h₂⟩ := ha
  obtain ⟨h₁', h₂'⟩ := ha'
  have hM := hp.pos
  have hik : M * i + M ≤ M * N := by nlinarith
  have hjk : M * j + M ≤ M * N := by nlinarith
  have hi₀ : 0 ≤ M * i := by positivity
  have hj₀ : 0 ≤ M * j := by positivity
  have hk : k = k' := by
    by_contra hne
    rcases hp.apart k k' hne with h | h <;> simp only at * <;> omega
  refine ⟨hk, ?_⟩
  subst hk
  simp only at h₁ h₂ h₁' h₂'
  rcases lt_trichotomy i j with h | h | h
  · have : M * i + M ≤ M * j := by nlinarith
    omega
  · exact h
  · have : M * j + M ≤ M * i := by nlinarith
    omega

theorem start_inj {k k' : κ} {i j : ℕ} (hi : i < N) (hj : j < N)
    (h : base k + M * i = base k' + M * j) : k = k' ∧ i = j := by
  have hM := hp.pos
  exact hp.cell_inj hi hj (a := base k + M * i) ⟨le_rfl, by simp [hM]⟩ ⟨by simp [h], by simp [h, hM]⟩

/-- The bytes of a region are those of its cells. -/
theorem owns_iff {r : Region κ} {a : ℤ} :
    Owns (r.bytes base M) a ↔ ∃ i, r.Mem r.arena i ∧ Owns (base r.arena + M * i, M) a := by
  have hM := hp.pos
  simp only [Owns, Region.bytes]
  constructor
  · rintro ⟨h₁, h₂⟩
    -- the cell that `a` falls into
    have hd := Int.mul_ediv_add_emod (a - base r.arena) M
    have hm₀ := Int.emod_nonneg (a - base r.arena) hM.ne'
    have hm := Int.emod_lt_of_pos (a - base r.arena) hM
    have hlo : (r.start : ℤ) ≤ (a - base r.arena) / M := by
      rw [Int.le_ediv_iff_mul_le hM]; linarith
    have hhi : (a - base r.arena) / M < r.start + r.len := by
      rw [Int.ediv_lt_iff_lt_mul hM]; linarith
    refine ⟨((a - base r.arena) / M).toNat, ⟨rfl, by omega, by omega⟩, ?_⟩
    rw [Int.toNat_of_nonneg (by omega)]
    omega
  · rintro ⟨i, ⟨-, h₁, h₂⟩, h₃, h₄⟩
    have hlo : M * r.start ≤ M * i := by
      exact mul_le_mul_of_nonneg_left (by exact_mod_cast h₁) hM.le
    have hhi : M * (i + 1) ≤ M * (r.start + r.len) :=
      mul_le_mul_of_nonneg_left (by exact_mod_cast h₂) hM.le
    rw [mul_add, mul_add] at hhi
    omega

/-- A cell has a byte of a live region exactly if it is one of its cells. -/
theorem owns_cell {h : Heap κ N} {r : Region κ} (hr : r ∈ h.live) {k : κ} {i : ℕ} (hi : i < N)
    {a : ℤ} (ha : Owns (base k + M * i, M) a) : Owns (r.bytes base M) a ↔ r.Mem k i := by
  rw [hp.owns_iff]
  constructor
  · rintro ⟨j, hj, hja⟩
    obtain ⟨rfl, rfl⟩ := hp.cell_inj (h.lt_of_mem hr hj) hi hja ha
    exact hj
  · intro hri
    obtain ⟨rfl, hri⟩ := hri
    exact ⟨i, ⟨rfl, hri⟩, ha⟩

theorem disjoint {h : Heap κ N} : (h.live.map (Region.bytes base M)).Pairwise Disjoint := by
  rw [List.pairwise_map]
  refine h.apart.imp_of_mem ?_
  intro r t hr ht hrt a ha ha'
  obtain ⟨i, hi, hia⟩ := hp.owns_iff.1 ha
  exact hrt _ _ hi ((hp.owns_cell ht (h.lt_of_mem hr hi) hia).1 ha')

/-- No two regions start at the same address. -/
theorem nodup_starts {h : Heap κ N} : ((h.live.map (Region.bytes base M)).map Prod.fst).Nodup := by
  rw [List.Nodup, List.pairwise_map, List.pairwise_map]
  refine h.apart.imp_of_mem ?_
  intro r t hr ht hrt heq
  obtain ⟨hk, hs⟩ := hp.start_inj (h.start_lt hr) (h.start_lt ht) heq
  obtain rfl := h.eq_of_start hr ht hk hs
  have hmem := Region.mem_start (h.pos r hr)
  exact hrt _ _ hmem hmem

/-- Freeing the region at an address removes the bytes that start there. -/
theorem map_free [DecidableEq κ] {h : Heap κ N} {k : κ} {i : ℕ} (hi : i < N) :
    (h.free k i).live.map (Region.bytes base M) =
      (h.live.map (Region.bytes base M)).filter fun x => x.1 ≠ base k + M * i := by
  rw [List.filter_map, Heap.free]
  congr 1
  refine List.filter_congr fun r hr => ?_
  rw [Function.comp, decide_eq_decide, ne_eq, not_iff_not]
  constructor
  · rintro ⟨rfl, rfl⟩; rfl
  · exact fun hx => hp.start_inj (h.start_lt hr) hi hx

end Placed

end Regions

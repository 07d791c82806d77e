/-
  How much both allocators can lose to fragmentation: a request is refused only if the live regions
  and the gaps beside them, each too short for it, make up the whole memory.
-/
import OSModules.Malloc.Sizes

namespace Malloc

open Prog Regions CInt Stretches

variable {N : ℕ} {κ : Type} [DecidableEq κ]

/-- Where the search fails, no `b` blocks in a row are free. -/
theorem Page.Rep.busy_of_none {pages : κ → Page N} {h : Heap κ N} (hrep : Page.Rep pages h)
    (hN : N ≤ PAGESIZE) {k : κ} {b : ℕ} (hb : 1 ≤ b)
    (hnone : Page.get_free_start_idx (pages k).is_free b = -1) (j : ℕ) (hj : j + b ≤ N) :
    ∃ i, j ≤ i ∧ i < j + b ∧ h.Busy k i := by
  by_contra hfree
  refine (Page.bestFit_get_free_start_idx hN hb).none.1 hnone ⟨j, ?_⟩
  intro i hji hib
  refine ⟨by omega, hrep.is_free_eq_one.2 ?_⟩
  intro hbusy
  exact hfree ⟨i, hji, hib, hbusy⟩

/-- A sum over the regions of a heap, arena by arena. -/
theorem sum_on [Fintype κ] (f : Region κ → ℕ) (L : List (Region κ)) :
    ∑ k, ((L.filter (·.arena = k)).map f).sum = (L.map f).sum := by
  induction L with
  | nil => simp
  | cons r L ih =>
    have hhead : ∀ k, (((r :: L).filter (·.arena = k)).map f).sum =
        (if r.arena = k then f r else 0) + ((L.filter (·.arena = k)).map f).sum := by
      intro k
      rw [List.filter_cons]
      by_cases hk : r.arena = k
      · simp [hk]
      · simp [hk]
    simp only [hhead, Finset.sum_add_distrib, ih, Finset.sum_ite_eq, Finset.mem_univ, if_true,
      List.map_cons, List.sum_cons]

omit [DecidableEq κ] in
/-- How many bytes the regions of a heap have. -/
theorem sum_bytes (base : κ → ℤ) (M : ℤ) (L : List (Region κ)) :
    ((L.map (Region.bytes base M)).map Prod.snd).sum = M * (L.map Region.len).sum := by
  induction L with
  | nil => simp
  | cons r L ih =>
    simp only [List.map_cons, List.sum_cons, ih, Region.bytes, Nat.cast_add, mul_add]

/-! ## `alloc.c` -/

namespace Alloc

variable {g g' : Globals} {live : List (ℤ × ℤ)} {h : Heap Unit BLOCKS} {E : Fault → Prop}

theorem wp_alloc_refused (hpos : 0 < g.base_ptr) {b : ℕ} :
    wp (alloc (MINALLOC * b)) g E fun ret _ => ret = NULL →
      Page.get_free_start_idx g.is_free b = -1 := by
  have hdiv : (MINALLOC * (b : ℤ)).tdiv MINALLOC = b := Int.mul_tdiv_cancel_left _ (by decide)
  rw [alloc, if_neg (by simp [Int.mul_tmod_right])]
  simp only [wp_bind, wp_pure, wp_get, wp_ite, hdiv]
  constructor
  · intro hnone _
    exact hnone
  · intro hfound
    obtain ⟨i, hi, hin, -⟩ := Page.get_free_start_idx_free hfound
    rw [hi, onPage, wp_zoom]
    refine Page.wp_take hin ?_
    intro hnull
    have haddr : g.base_ptr + i * MINALLOC = 0 := hnull
    unfold MINALLOC at haddr
    omega

/-- If a request is refused, the live regions and the gaps fill the page. -/
theorem Inv.refused (hinv : Inv g live h) (hpos : 0 < g.base_ptr) {n : ℤ} (hn : 0 < n)
    (hd : MINALLOC ∣ n) (hret : Returns (alloc n) g NULL g') :
    PAGESIZE ≤ (live.map Prod.snd).sum + (live.length + 1) * (n - MINALLOC) := by
  obtain ⟨b, rfl⟩ := hd
  have hb : 0 < b := by unfold MINALLOC at hn; omega
  lift b to ℕ using hb.le
  have hb : 0 < b := by omega
  have hnone := (wp_alloc_refused (E := fun _ => True) hpos).returns hret rfl
  have hbusy := Page.Rep.busy_of_none hinv.rep (k := ()) (by simp [BLOCKS, PAGESIZE]) hb hnone
  have hle := Heap.le_of_no_gap hb hbusy
  have hon : h.on () = h.live := List.filter_eq_self.2 fun r _ => by simp
  rw [hon] at hle
  rw [hinv.live_eq, sum_bytes, List.length_map]
  zify [show 1 ≤ b by omega] at hle
  unfold MINALLOC PAGESIZE
  unfold BLOCKS at hle
  push_cast at hle ⊢
  linarith

end Alloc

/-! ## `ealloc.c` -/

namespace Ealloc

variable {mmap : ℕ → ℤ} {g g' : Globals} {live : List (ℤ × ℤ)} {h : Heap (Fin PAGES) BLOCKS}

/-- If a request is refused, the live regions and the gaps fill the four pages. -/
theorem Inv.refused (hinv : Inv mmap g live h) (hm : MmapOk mmap) (hg : Grown mmap g) {n : ℤ}
    (hn : 0 < n) (hd : MINALLOC ∣ n) (hret : Returns (alloc mmap n) g NULL g') :
    PAGES * PAGESIZE ≤ (live.map Prod.snd).sum + (live.length + PAGES) * (n - MINALLOC) := by
  have hout := (wp_alloc_outcome (E := fun _ => True) hm hg hd).returns hret
  obtain ⟨b, rfl⟩ := hd
  have hb : 0 < b := by unfold MINALLOC at hn; omega
  lift b to ℕ using hb.le
  have hb : 0 < b := by omega
  have hdiv : (MINALLOC * (b : ℤ)).tdiv MINALLOC = b := Int.mul_tdiv_cancel_left _ (by decide)
  rw [hdiv] at hout
  have hnone : ∀ k, g.start k b = -1 := by
    generalize hr : NULL = ret at hout
    cases hout with
    | served k i => exact absurd hr.symm (hm.addr_ne_null k i)
    | refused hno => exact hno
  have hle : ∀ k, BLOCKS ≤ ((h.on k).map Region.len).sum + ((h.on k).length + 1) * (b - 1) := by
    intro k
    exact Heap.le_of_no_gap hb
      (hinv.rep.pages.busy_of_none (by simp [BLOCKS, PAGESIZE]) hb (hnone k))
  -- all pages together
  have hsum := Finset.sum_le_sum fun k (_ : k ∈ Finset.univ) => hle k
  have hlens : ∑ k, ((h.on k).map Region.len).sum = (h.live.map Region.len).sum := sum_on _ _
  have hcount : ∑ k, (h.on k).length = h.live.length := by
    have := sum_on (fun _ => 1) h.live
    simpa only [Heap.on, List.map_const', List.sum_replicate, smul_eq_mul, mul_one] using this
  rw [Finset.sum_add_distrib, hlens, ← Finset.sum_mul, Finset.sum_add_distrib, hcount] at hsum
  simp only [Finset.sum_const, Finset.card_univ, Fintype.card_fin, smul_eq_mul, mul_one] at hsum
  rw [hinv.live_eq, sum_bytes, List.length_map]
  zify [show 1 ≤ b by omega] at hsum
  unfold MINALLOC PAGESIZE PAGES
  unfold BLOCKS PAGES at hsum
  push_cast at hsum ⊢
  linarith

end Ealloc

/-! ## Both allocators -/

/-- A request of a positive size is refused only if the live regions, and for each of them and each
page a gap that is one block too short for it, make up all pages. -/
theorem refused_only_if_full {mmap mmap' : ℕ → ℤ} (hm : Alloc.MmapOk mmap) (hm' : Ealloc.Layout mmap')
    {g : Alloc.Globals} {g' : Ealloc.Globals} {live live' : List (ℤ × ℤ)}
    (hr : ((clients (Alloc.Initial mmap) Alloc.alloc Alloc.dealloc).guard fun s =>
      Alloc.Sized s.1).Reachable (g, live))
    (hr' : ((clients Ealloc.Initial (Ealloc.alloc mmap') Ealloc.dealloc).guard fun s =>
      Ealloc.Sized s.1).Reachable (g', live')) :
    (∀ n g₁, 0 < n → Alloc.MINALLOC ∣ n → Returns (Alloc.alloc n) g NULL g₁ →
      PAGESIZE ≤ (live.map Prod.snd).sum + (live.length + 1) * (n - Alloc.MINALLOC)) ∧
    ∀ n g₁, 0 < n → Ealloc.MINALLOC ∣ n → Returns (Ealloc.alloc mmap' n) g' NULL g₁ →
      Ealloc.PAGES * PAGESIZE ≤
        (live'.map Prod.snd).sum + (live'.length + Ealloc.PAGES) * (n - Ealloc.MINALLOC) := by
  constructor
  · intro n g₁ hn hd hret
    obtain ⟨hpos, h, hinv⟩ := Alloc.inv_of_sized hm hr
    exact hinv.refused hpos hn hd hret
  · intro n g₁ hn hd hret
    have hok := hm'.mmapResults.mmapOk
    have hg := (Ealloc.kept_of_reachable hok hr'.of_guard).grown
    obtain ⟨h, hinv⟩ := Ealloc.inv_of_sized hm'.mmapResults hr' (hm'.clear _)
    exact hinv.refused hok hg hn hd hret

/-- Two requests for a quarter of the page of `alloc.c`, and one for three quarters, which is
refused; three quarters of each page of `ealloc.c`, and a request for half of one, which is
refused. -/
theorem refused_only_if_full_three_quarters :
    (∃ g g₁, (clients (Alloc.Initial fun _ => 4096) Alloc.alloc Alloc.dealloc).Reachable
        (g, [(4096, 1024), (5120, 1024)]) ∧ Returns (Alloc.alloc 3072) g NULL g₁ ∧
      (PAGESIZE : ℤ) ≤ 2048 + 3 * 3064) ∧
    ∃ g g₁, (clients Ealloc.Initial (Ealloc.alloc fun k => 4096 * (k + 1)) Ealloc.dealloc).Reachable
        (g, [(4096, 3072), (8192, 3072), (12288, 3072), (16384, 3072)]) ∧
      Returns (Ealloc.alloc (fun k => 4096 * (k + 1)) 2048) g NULL g₁ ∧
      (Ealloc.PAGES * PAGESIZE : ℤ) ≤ 12288 + 8 * 1792 := by
  have h : ∃ g₁, Returns (Alloc.alloc 1024) ⟨Page.fresh, 4096, 1⟩ 4096 g₁ ∧
      ∃ g₂, Returns (Alloc.alloc 1024) g₁ 5120 g₂ ∧ ∃ g₃, Returns (Alloc.alloc 3072) g₂ NULL g₃ ∧
        g₂.base_ptr = 4096 := by
    decide +kernel
  have h' : ∃ g₁, Returns (Ealloc.alloc (fun k => 4096 * (k + 1)) 3072) .init 4096 g₁ ∧
      ∃ g₂, Returns (Ealloc.alloc (fun k => 4096 * (k + 1)) 3072) g₁ 8192 g₂ ∧
      ∃ g₃, Returns (Ealloc.alloc (fun k => 4096 * (k + 1)) 3072) g₂ 12288 g₃ ∧
      ∃ g₄, Returns (Ealloc.alloc (fun k => 4096 * (k + 1)) 3072) g₃ 16384 g₄ ∧
      ∃ g₅, Returns (Ealloc.alloc (fun k => 4096 * (k + 1)) 2048) g₄ NULL g₅ ∧ g₅.mmaps = 4 := by
    decide +kernel
  obtain ⟨g₁, h₁, g₂, h₂, g₃, h₃, -⟩ := h
  obtain ⟨g₁', h₁', g₂', h₂', g₃', h₃', g₄', h₄', g₅', h₅', -⟩ := h'
  have hm : Alloc.MmapOk fun _ => 4096 := fun _ => Or.inr (show (0 : ℤ) < 4096 by decide)
  have r₀ : ((clients (Alloc.Initial fun _ => 4096) Alloc.alloc Alloc.dealloc).guard fun s =>
      Alloc.Sized s.1).Reachable (⟨Page.fresh, 4096, 1⟩, []) :=
    .init ⟨Alloc.initial_iff.2 ⟨0, by decide, rfl⟩, rfl⟩
  have r₁ := r₀.step (Alloc.sized_alloc (by decide) (by decide) (by decide) h₁ [])
  have r₂ := r₁.step (Alloc.sized_alloc (by decide) (by decide) (by decide) h₂ _)
  have r₀' : ((clients Ealloc.Initial (Ealloc.alloc fun k => 4096 * (k + 1)) Ealloc.dealloc).guard
      fun s => Ealloc.Sized s.1).Reachable (.init, []) := .init ⟨Ealloc.initial_init, rfl⟩
  have r₁' := r₀'.step (Ealloc.sized_alloc (by decide) (by decide) (by decide) h₁' [])
  have r₂' := r₁'.step (Ealloc.sized_alloc (by decide) (by decide) (by decide) h₂' _)
  have r₃' := r₂'.step (Ealloc.sized_alloc (by decide) (by decide) (by decide) h₃' _)
  have r₄' := r₃'.step (Ealloc.sized_alloc (by decide) (by decide) (by decide) h₄' _)
  obtain ⟨hone, hfour⟩ := refused_only_if_full hm Ealloc.layout_row r₂ r₄'
  refine ⟨⟨g₂, g₃, r₂.of_guard, h₃, ?_⟩, g₄', g₅', r₄'.of_guard, h₅', ?_⟩
  · simpa [Alloc.MINALLOC] using hone 3072 g₃ (by decide) (by decide) h₃
  · simpa [Ealloc.MINALLOC, Ealloc.PAGES] using hfour 2048 g₅' (by decide) (by decide) h₅'

end Malloc

/-
  How the heap of `ealloc.c` grows: what each call of `alloc` does, for any size, and to which
  page.
-/
import OSModules.Malloc.BestFit

namespace Malloc.Ealloc

open Runs Prog CInt Stretches Malloc

/-- `mmap` fails or returns an address that is not null. -/
def MmapOk (mmap : ℕ → ℤ) : Prop := ∀ k : Fin PAGES, mmap k = MAP_FAILED ∨ 0 < mmap k

/-- `mmap` returns an address that is not null for each page. -/
def Succeeds (mmap : ℕ → ℤ) : Prop := ∀ k : Fin PAGES, 0 < mmap k

/-- The globals of `init_alloc`. -/
def Globals.init : Globals := ⟨fun _ _ => 1, fun _ _ => 0, fun _ => NULL, 0⟩

/-- The first `m` pages are mapped. -/
def Globals.grow (mmap : ℕ → ℤ) (m : ℕ) (g : Globals) : Globals where
  is_free := g.is_free
  alloc_blocks_len := g.alloc_blocks_len
  base_ptr k := if (k : ℕ) < m then mmap k else NULL
  mmaps := m

/-- Pages are mapped in order, the others are as `init_alloc` left them, and no length goes over
the end of its page. -/
structure Grown (mmap : ℕ → ℤ) (g : Globals) : Prop where
  le : g.mmaps ≤ PAGES
  base_ptr : ∀ k, g.base_ptr k = if (k : ℕ) < g.mmaps then mmap k else NULL
  fresh : ∀ k : Fin PAGES, g.mmaps ≤ k → g.page k = Page.fresh
  inside : ∀ k i, i + (g.page k).alloc_blocks_len i ≤ BLOCKS

/-- The block that `alloc` would take on a page, -1 if there is none. -/
def Globals.start (g : Globals) (k : Fin PAGES) (b : ℤ) : ℤ :=
  Page.get_free_start_idx (g.is_free k) b

/-- Blocks that were taken on a page. -/
def Globals.taken (g : Globals) (k : Fin PAGES) (i : Fin BLOCKS) (b : ℤ) : Globals :=
  g.setPage k (((g.page k).filled i (i + b) 0).withLen i b)

/-- What a request of `b` blocks does. It is served from the first page with room, and all pages up
to this one are mapped then. If there is none, all pages are mapped. -/
inductive Outcome (mmap : ℕ → ℤ) (g : Globals) (b : ℤ) : ℤ → Globals → Prop
  | served (k : Fin PAGES) (i : Fin BLOCKS) : (∀ j < k, g.start j b = -1) → g.start k b = i →
      Outcome mmap g b (mmap k + i * MINALLOC) ((g.grow mmap (max g.mmaps (k + 1))).taken k i b)
  | refused : (∀ k, g.start k b = -1) → Outcome mmap g b NULL (g.grow mmap PAGES)

variable {mmap : ℕ → ℤ} {g : Globals} {E : Fault → Prop}

theorem base_ptr_grow (m : ℕ) (k : Fin PAGES) :
    (g.grow mmap m).base_ptr k = if (k : ℕ) < m then mmap k else NULL := rfl

@[simp] theorem page_taken (k : Fin PAGES) (i : Fin BLOCKS) (b : ℤ) : (g.taken k i b).page =
    Function.update g.page k (((g.page k).filled i (i + b) 0).withLen i b) := page_setPage _ _

@[simp] theorem base_ptr_taken (k : Fin PAGES) (i : Fin BLOCKS) (b : ℤ) :
    (g.taken k i b).base_ptr = g.base_ptr := rfl

theorem MmapOk.ne_null (hm : MmapOk mmap) (k : Fin PAGES) : mmap k ≠ NULL := by
  rcases hm k with h | h
  · rw [h]
    decide
  · exact h.ne'

/-- No address that `alloc` computes is null. -/
theorem MmapOk.addr_ne_null (hm : MmapOk mmap) (k : Fin PAGES) (i : Fin BLOCKS) :
    mmap k + i * MINALLOC ≠ NULL := by
  unfold MINALLOC NULL
  rcases hm k with h | h
  · rw [h, MAP_FAILED]
    omega
  · omega

theorem initial_init : Initial .init := initial_iff.2 rfl

theorem Succeeds.mmapOk (hm : Succeeds mmap) : MmapOk mmap := fun k => Or.inr (hm k)

/-! ## `alloc` -/

theorem Grown.grow_self (hg : Grown mmap g) : g.grow mmap g.mmaps = g := by
  cases g
  rw [Globals.grow]
  congr
  funext k
  exact (hg.base_ptr k).symm

theorem Grown.base_ptr_eq (hg : Grown mmap g) {k : Fin PAGES} (hk : (k : ℕ) < g.mmaps) :
    g.base_ptr k = mmap k := by
  rw [hg.base_ptr, if_pos hk]

/-- The loop maps page `k` if no page up to `k` was mapped. -/
theorem wp_mapPage_grow (hm : MmapOk mmap) {m : ℕ} {k : Fin PAGES} (hk : (k : ℕ) ≤ m) :
    wp (mapPage mmap k) (g.grow mmap m) E fun _ g' => g' = g.grow mmap (max m (k + 1)) := by
  rw [mapPage, wp_bind, wp_get, wp_ite]
  constructor
  · intro hnull
    have hkm : m = k := by
      by_contra hne
      refine hm.ne_null k ?_
      have hlt : (k : ℕ) < m := by omega
      exact (if_pos hlt).symm.trans hnull
    subst hkm
    rw [wp_modify, max_eq_right (Nat.le_succ _)]
    simp only [Globals.setBase, Globals.grow, Globals.mk.injEq, true_and, and_true]
    funext j
    by_cases hj : j = k
    · rw [hj, Function.update_self, if_pos (Nat.lt_succ_self _)]
    · have hne : (j : ℕ) ≠ k := fun h => hj (Fin.ext h)
      rw [Function.update_of_ne hj]
      exact if_congr (by omega) rfl rfl
  · intro hne
    have hlt : (k : ℕ) < m := by
      by_contra hge
      exact hne (if_neg hge)
    rw [max_eq_left hlt]
    rfl

/-- The loop, after it has tried the pages before those in the list. -/
theorem wp_allocOn_outcome (hm : MmapOk mmap) (hle : g.mmaps ≤ PAGES) {n b : ℤ} {pages : List (Fin PAGES)}
    (tried : List (Fin PAGES)) (hsplit : tried ++ pages = List.finRange PAGES)
    (hno : ∀ j : Fin PAGES, (j : ℕ) < tried.length → g.start j b = -1) :
    wp (allocOn mmap n b pages) (g.grow mmap (max g.mmaps tried.length)) E (Outcome mmap g b) := by
  induction pages generalizing tried with
  | nil =>
    rw [List.append_nil] at hsplit
    rw [hsplit, List.length_finRange] at hno ⊢
    rw [max_eq_right hle]
    exact .refused fun k => hno k k.2
  | cons page pages ih =>
    have hpage := page_eq_length hsplit
    rw [allocOn, wp_bind]
    refine (wp_mapPage_grow hm (by omega)).imp ?_
    rintro ⟨⟩ g₁ rfl
    rw [wp_bind, get_free_start_idx, wp_bind, wp_get, wp_pure, wp_ite, max_assoc,
      max_eq_right (by omega : tried.length ≤ (page : ℕ) + 1)]
    constructor
    · intro hfound
      obtain ⟨i, hi, hin, -⟩ := Page.get_free_start_idx_free hfound
      rw [hi, wp_bind, onPage, wp_zoom]
      refine Page.wp_take (by exact_mod_cast hin) ?_
      rw [wp_bind, wp_get, wp_pure]
      have hbase : (g.grow mmap (max g.mmaps (page + 1))).base_ptr page = mmap page :=
        if_pos (by omega)
      rw [base_ptr_setPage, hbase]
      exact .served page i (fun j hj => hno j (by omega)) hi
    · intro hnone
      rw [not_not] at hnone
      have hlen : (tried ++ [page]).length = page + 1 := by
        rw [List.length_append, List.length_singleton, hpage]
      rw [← hlen]
      refine ih (tried ++ [page]) (by simpa using hsplit) fun j hj => ?_
      rw [hlen] at hj
      rcases Nat.lt_succ_iff_lt_or_eq.1 hj with hlt | heq
      · exact hno j (by omega)
      · rw [Fin.ext heq]
        exact hnone

/-- A request that is no multiple of `MINALLOC` is refused at once. -/
theorem alloc_of_not_dvd {n : ℤ} (hn : ¬ MINALLOC ∣ n) : Returns (alloc mmap n) g NULL g := by
  rw [alloc, if_pos fun h => hn (Int.dvd_of_tmod_eq_zero h)]
  rfl

theorem wp_alloc_outcome (hm : MmapOk mmap) (hg : Grown mmap g) {n : ℤ} (hn : MINALLOC ∣ n) :
    wp (alloc mmap n) g E (Outcome mmap g (n.tdiv MINALLOC)) := by
  rw [alloc, if_neg (not_not.2 (Int.tmod_eq_zero_of_dvd hn))]
  have h := wp_allocOn_outcome (E := E) (n := n) (b := n.tdiv MINALLOC) hm hg.le [] rfl
    fun j hj => absurd hj (Nat.not_lt_zero _)
  rwa [List.length_nil, Nat.max_zero, hg.grow_self] at h

theorem Grown.grow (hg : Grown mmap g) {m : ℕ} (hlo : g.mmaps ≤ m) (hm : m ≤ PAGES) :
    Grown mmap (g.grow mmap m) where
  le := hm
  base_ptr _ := rfl
  fresh k hk := hg.fresh k (hlo.trans hk)
  inside := hg.inside

theorem Grown.setPage (hg : Grown mmap g) {k : Fin PAGES} (hk : (k : ℕ) < g.mmaps)
    {p : Page BLOCKS} (hp : ∀ i, i + p.alloc_blocks_len i ≤ BLOCKS) :
    Grown mmap (g.setPage k p) := by
  refine ⟨hg.le, hg.base_ptr, fun j hj => ?_, fun j a => ?_⟩
  · have hne : j ≠ k := by
      rintro rfl
      exact absurd hk (not_lt.2 hj)
    rw [page_setPage, Function.update_of_ne hne]
    exact hg.fresh j hj
  · rw [page_setPage]
    by_cases hjk : j = k
    · rw [hjk, Function.update_self]
      exact hp a
    · rw [Function.update_of_ne hjk]
      exact hg.inside j a

/-- The blocks that are taken are in the page. -/
theorem start_add_le {k : Fin PAGES} {i : Fin BLOCKS} {b : ℤ} (hi : g.start k b = i) :
    i + b ≤ BLOCKS := by
  have hfound : Page.get_free_start_idx (g.is_free k) b ≠ -1 := by
    rw [← Globals.start, hi]
    omega
  obtain ⟨i', hi', hin, -⟩ := Page.get_free_start_idx_free hfound
  rw [← Globals.start, hi] at hi'
  omega

theorem Outcome.grown {b ret : ℤ} {g' : Globals} (h : Outcome mmap g b ret g')
    (hg : Grown mmap g) : Grown mmap g' := by
  cases h with
  | served k i hno hi =>
    have hgrow := hg.grow (le_max_left _ _) (max_le hg.le k.2)
    refine hgrow.setPage (lt_max_of_lt_right (Nat.lt_succ_self _)) fun a => ?_
    rw [Page.withLen_alloc_blocks_len]
    by_cases ha : a = i
    · rw [ha, Function.update_self]
      exact start_add_le hi
    · rw [Function.update_of_ne ha, Page.filled_alloc_blocks_len]
      exact hg.inside k a
  | refused hno => exact hg.grow hg.le le_rfl

/-! ## `dealloc` -/

/-- The block index of a pointer in the page at `a`, as `dealloc` computes it. -/
def blockOf (a ptr : ℤ) : ℤ := (int32 (ptr - a)).tdiv MINALLOC

/-- An index for which `dealloc` takes the page. -/
def InPage (idx : ℤ) : Prop := 0 ≤ idx ∧ idx ≤ BLOCKS - 1

theorem blockOf_self (a : ℤ) (i : Fin BLOCKS) : blockOf a (a + MINALLOC * i) = (i : ℕ) :=
  block_idx (by decide) (by decide) a i

theorem inPage_fin (i : Fin BLOCKS) : InPage (i : ℕ) := ⟨by omega, by omega⟩

theorem InPage.exists_fin {idx : ℤ} (h : InPage idx) : ∃ i : Fin BLOCKS, idx = (i : ℕ) := by
  obtain ⟨hlo, hhi⟩ := h
  lift idx to ℕ using hlo
  exact ⟨⟨idx, by omega⟩, rfl⟩

/-- `dealloc` takes the first page for which the index is one of the page. -/
theorem findPage_first {base_ptr : Fin PAGES → ℤ} {ptr : ℤ} {k : Fin PAGES}
    {pages : List (Fin PAGES)} (hk : k ∈ pages) (hsorted : pages.Pairwise (· < ·))
    (hin : InPage (blockOf (base_ptr k) ptr)) (idx : ℤ) :
    ∃ j ≤ k, InPage (blockOf (base_ptr j) ptr) ∧
      (∀ j' ∈ pages, j' < j → ¬ InPage (blockOf (base_ptr j') ptr)) ∧
      findPage base_ptr ptr pages idx = (((j : ℕ) : ℤ), blockOf (base_ptr j) ptr) := by
  induction pages generalizing idx with
  | nil => exact absurd hk List.not_mem_nil
  | cons p pages ih =>
    obtain ⟨hp, hsorted⟩ := List.pairwise_cons.1 hsorted
    by_cases hpin : InPage (blockOf (base_ptr p) ptr)
    · have hpk : p ≤ k := by
        rcases List.mem_cons.1 hk with rfl | hk
        · exact le_rfl
        · exact (hp k hk).le
      refine ⟨p, hpk, hpin, fun j' hj' hlt => ?_, if_pos hpin⟩
      rcases List.mem_cons.1 hj' with rfl | hj'
      · exact absurd hlt (lt_irrefl _)
      · exact absurd (hp j' hj') (not_lt.2 hlt.le)
    · rcases List.mem_cons.1 hk with rfl | hk
      · exact absurd hin hpin
      obtain ⟨j, hjk, hjin, hno, hfind⟩ := ih hk hsorted (blockOf (base_ptr p) ptr)
      refine ⟨j, hjk, hjin, fun j' hj' hlt => ?_, (if_neg hpin).trans hfind⟩
      rcases List.mem_cons.1 hj' with rfl | hj'
      · exact hpin
      · exact hno j' hj' hlt

/-- A page whose block was released. -/
def Globals.released (g : Globals) (k : Fin PAGES) (i : Fin BLOCKS) : Globals :=
  g.setPage k (((g.page k).withLen i 0).filled i (i + (g.page k).alloc_blocks_len i) 1)

/-- A pointer into a mapped page is found on this page or on one before it. -/
theorem Grown.findPage_first (hg : Grown mmap g) {k : Fin PAGES} (hk : (k : ℕ) < g.mmaps)
    (i : Fin BLOCKS) : ∃ j ≤ k, InPage (blockOf (mmap j) (mmap k + MINALLOC * i)) ∧
      (∀ j' < j, ¬ InPage (blockOf (mmap j') (mmap k + MINALLOC * i))) ∧
      findPage g.base_ptr (mmap k + MINALLOC * i) (List.finRange PAGES) 0 =
        (((j : ℕ) : ℤ), blockOf (mmap j) (mmap k + MINALLOC * i)) := by
  have hbase : ∀ j ≤ k, g.base_ptr j = mmap j := fun j hj => hg.base_ptr_eq (hk.trans_le' hj)
  have hin : InPage (blockOf (g.base_ptr k) (mmap k + MINALLOC * i)) := by
    rw [hbase k le_rfl, blockOf_self]
    exact inPage_fin i
  obtain ⟨j, hjk, hjin, hno, hfind⟩ :=
    Ealloc.findPage_first (List.mem_finRange k) (List.pairwise_lt_finRange PAGES) hin 0
  rw [hbase j hjk] at hjin hfind
  refine ⟨j, hjk, hjin, ?_, hfind⟩
  intro j' hj'
  have hno' := hno j' (List.mem_finRange j') hj'
  rwa [hbase j' (hj'.le.trans hjk)] at hno'

/-- A pointer into a mapped page is released on this page or on one before it. -/
theorem Grown.wp_dealloc (hg : Grown mmap g) {k : Fin PAGES} (hk : (k : ℕ) < g.mmaps)
    (i : Fin BLOCKS) : wp (dealloc (mmap k + MINALLOC * i)) g E fun _ g' =>
      ∃ j ≤ k, ∃ a : Fin BLOCKS, blockOf (mmap j) (mmap k + MINALLOC * i) = (a : ℕ) ∧
        (∀ j' < j, ¬ InPage (blockOf (mmap j') (mmap k + MINALLOC * i))) ∧ g' = g.released j a := by
  obtain ⟨j, hjk, hjin, hno, hfind⟩ := hg.findPage_first hk i
  obtain ⟨a, ha⟩ := hjin.exists_fin
  rw [Ealloc.dealloc, wp_bind, wp_get, hfind, wp_bind]
  refine wp_index j rfl ?_
  rw [onPage, wp_zoom, ha]
  exact Page.wp_release (hg.inside j a) ⟨j, hjk, a, ha, hno, rfl⟩

theorem Grown.released (hg : Grown mmap g) {k : Fin PAGES} (hk : (k : ℕ) < g.mmaps)
    (i : Fin BLOCKS) : Grown mmap (g.released k i) := by
  refine hg.setPage hk fun a => ?_
  rw [Page.filled_alloc_blocks_len, Page.withLen_alloc_blocks_len]
  by_cases ha : a = i
  · rw [ha, Function.update_self]
    omega
  · rw [Function.update_of_ne ha]
    exact hg.inside k a

/-! ## Runs -/

/-- Every pointer that is held is that of a block of a mapped page. -/
def Held (mmap : ℕ → ℤ) (g : Globals) (live : List (ℤ × ℤ)) : Prop :=
  ∀ x ∈ live, ∃ (k : Fin PAGES) (i : Fin BLOCKS), (k : ℕ) < g.mmaps ∧ x.1 = mmap k + MINALLOC * i

/-- What every call keeps. -/
structure Kept (mmap : ℕ → ℤ) (g : Globals) (live : List (ℤ × ℤ)) : Prop where
  grown : Grown mmap g
  held : Held mmap g live

/-- A pointer that `alloc` returned is that of a block of a mapped page, and the blocks asked for
are on that page. -/
def Returned (mmap : ℕ → ℤ) (g : Globals) : Call → Prop
  | .alloc req_len ret => ret ≠ NULL → ∃ (k : Fin PAGES) (i : Fin BLOCKS), (k : ℕ) < g.mmaps ∧
      ret = mmap k + MINALLOC * i ∧ MINALLOC * i + req_len ≤ PAGESIZE
  | .dealloc _ => True

theorem Outcome.returned {n ret : ℤ} {g' : Globals} (hn : MINALLOC ∣ n)
    (h : Outcome mmap g (n.tdiv MINALLOC) ret g') : Returned mmap g' (.alloc n ret) := by
  intro hne
  cases h with
  | served k i hno hi =>
    refine ⟨k, i, lt_max_of_lt_right (Nat.lt_succ_self _), by rw [mul_comm], ?_⟩
    have hin := start_add_le hi
    have hsize : n = MINALLOC * n.tdiv MINALLOC := (Int.mul_tdiv_cancel' hn).symm
    unfold MINALLOC BLOCKS at *
    unfold PAGESIZE
    omega
  | refused hno => exact absurd rfl hne

theorem Outcome.mmaps_le {b ret : ℤ} {g' : Globals} (h : Outcome mmap g b ret g')
    (hg : Grown mmap g) : g.mmaps ≤ g'.mmaps := by
  cases h with
  | served k i => exact le_max_left _ _
  | refused => exact hg.le

/-- What every call of a client keeps. -/
theorem Kept.step (hm : MmapOk mmap) {live : List (ℤ × ℤ)} (h : Kept mmap g live) {c : Call}
    {s' : Globals × List (ℤ × ℤ)}
    (hs : (clients Initial (alloc mmap) dealloc).step (g, live) c s') :
    Kept mmap s'.1 s'.2 ∧ g.mmaps ≤ s'.1.mmaps ∧ Returned mmap s'.1 c := by
  obtain ⟨g', live'⟩ := s'
  obtain ⟨hc, hcall, hlive⟩ := hs
  have hlive : live' = hold live c := hlive
  have hcalled : Grown mmap g' ∧ g.mmaps ≤ g'.mmaps ∧ Returned mmap g' c := by
    cases c with
    | alloc n ret =>
      by_cases hn : MINALLOC ∣ n
      · have hout := (wp_alloc_outcome (E := fun _ => True) hm h.grown hn).returns hcall
        exact ⟨hout.grown h.grown, hout.mmaps_le h.grown, hout.returned hn⟩
      · obtain ⟨rfl, rfl⟩ := (alloc_of_not_dvd hn).det hcall
        exact ⟨h.grown, le_rfl, fun hne => absurd rfl hne⟩
    | dealloc ptr =>
      obtain ⟨x, hx, rfl⟩ := hc
      obtain ⟨k, i, hk, hxi⟩ := h.held x hx
      have hcall : Returns (dealloc x.1) g () g' := hcall
      rw [hxi] at hcall
      obtain ⟨j, hjk, a, -, -, rfl⟩ := (h.grown.wp_dealloc (E := fun _ => True) hk i).returns hcall
      exact ⟨h.grown.released (lt_of_le_of_lt hjk hk) a, le_rfl, trivial⟩
  obtain ⟨hg', hle, hret⟩ := hcalled
  refine ⟨⟨hg', fun x hx => ?_⟩, hle, hret⟩
  rw [hlive] at hx
  rcases mem_hold hx with hx | ⟨hne, rfl⟩
  · obtain ⟨k, i, hk, hxi⟩ := h.held x hx
    exact ⟨k, i, hk.trans_le hle, hxi⟩
  · obtain ⟨k, i, hk, hxi, -⟩ := hret hne
    exact ⟨k, i, hk, hxi⟩

theorem kept_of_reachable (hm : MmapOk mmap) {live : List (ℤ × ℤ)}
    (h : (clients Initial (alloc mmap) dealloc).Reachable (g, live)) : Kept mmap g live := by
  refine h.invariant (I := fun s => Kept mmap s.1 s.2) ?_ ?_
  · rintro ⟨g, live⟩ ⟨hg, rfl⟩
    rw [initial_iff.1 hg]
    refine ⟨⟨Nat.zero_le _, fun k => ?_, fun k _ => rfl, fun k i => ?_⟩, fun x hx => ?_⟩
    · exact (if_neg (Nat.not_lt_zero _)).symm
    · show (i : ℤ) + 0 ≤ BLOCKS
      omega
    · exact absurd hx List.not_mem_nil
  · rintro ⟨g, live⟩ c s' hk hs
    exact (hk.step hm hs).1

/-! ## Lazy growth -/

/-- Requests of a multiple of `MINALLOC` that fit a page. -/
def Ordinary : Call → Prop
  | .alloc req_len _ => 1 ≤ req_len ∧ req_len ≤ PAGESIZE ∧ MINALLOC ∣ req_len
  | .dealloc _ => True

/-- The page has `b` free blocks in a row. -/
def Globals.Room (g : Globals) (k : Fin PAGES) (b : ℕ) : Prop :=
  ∃ i, Stretch (Page.Free (g.is_free k)) i b

/-- Of the arrays only those of page `k` have changed: there, free blocks from the address returned
on were taken. -/
def Served (g : Globals) (k : Fin PAGES) (b : ℕ) (ret : ℤ) (g' : Globals) : Prop :=
  ∃ i : Fin BLOCKS, ret = g'.base_ptr k + MINALLOC * i ∧
    (∀ j : Fin BLOCKS, i ≤ j → (j : ℤ) < i + b → g.is_free k j = 1) ∧
    g'.page = Function.update g.page k (((g.page k).filled i (i + b) 0).withLen i b)

theorem start_eq_neg_one_max {k : Fin PAGES} (b : ℤ) :
    g.start k b = -1 ↔ ¬ g.Room k (max 1 b).toNat :=
  Page.get_free_start_idx_eq_neg_one (by simp [BLOCKS, PAGESIZE]) b

theorem start_eq_neg_one {k : Fin PAGES} {b : ℕ} (hb : 1 ≤ b) :
    g.start k b = -1 ↔ ¬ g.Room k b := by
  rw [start_eq_neg_one_max, max_eq_right (by exact_mod_cast hb), Int.toNat_natCast]

/-- A page that is not mapped has room for what fits a page. -/
theorem Grown.room (hg : Grown mmap g) {k : Fin PAGES} (hk : g.mmaps ≤ k) {b : ℕ}
    (hb : b ≤ BLOCKS) : g.Room k b := by
  refine ⟨0, fun j _ hj => ⟨by omega, ?_⟩⟩
  exact congrFun (congrArg Page.is_free (hg.fresh k hk)) _

theorem Grown.base_ptr_ne (hg : Grown mmap g) (hm : MmapOk mmap) {k : Fin PAGES} :
    g.base_ptr k ≠ NULL ↔ (k : ℕ) < g.mmaps := by
  rw [hg.base_ptr]
  split
  · next hlt => exact iff_of_true (hm.ne_null k) hlt
  · next hge => exact iff_of_false (not_not.2 rfl) hge

/-- Two pages that are the first with room are the same. -/
theorem first_room_unique {b : ℕ} {j k : Fin PAGES} (hj : g.Room j b) (hk : g.Room k b)
    (hnoj : ∀ i < j, ¬ g.Room i b) (hnok : ∀ i < k, ¬ g.Room i b) : j = k := by
  rcases lt_trichotomy j k with hlt | heq | hgt
  · exact absurd hj (hnok j hlt)
  · exact heq
  · exact absurd hk (hnoj k hgt)

/-- Taking blocks of page `k` after `m` pages have been mapped. -/
theorem served_taken {k : Fin PAGES} {i : Fin BLOCKS} {b m : ℕ} (hi : g.start k b = i)
    (hk : (k : ℕ) < m) :
    Served g k b (mmap k + i * MINALLOC) ((g.grow mmap m).taken k i b) := by
  have hne : Page.get_free_start_idx (g.is_free k) b ≠ -1 := by
    rw [← Globals.start, hi]
    omega
  obtain ⟨i', hi', -, hfree⟩ := Page.get_free_start_idx_free hne
  have hii : i' = i := Fin.ext (by rw [← Globals.start, hi] at hi'; omega)
  subst hii
  refine ⟨i', ?_, hfree, page_taken k i' b⟩
  have hbase : ((g.grow mmap m).taken k i' b).base_ptr k = mmap k := if_pos hk
  rw [hbase, mul_comm]

/-- All pages are mapped if a page that is not mapped would have room. -/
theorem Grown.full (hg : Grown mmap g) {b : ℕ} (hb : b ≤ BLOCKS) (hnone : ∀ k, ¬ g.Room k b) :
    g.mmaps = PAGES := by
  by_contra hne
  have hlt : g.mmaps < PAGES := lt_of_le_of_ne hg.le hne
  exact hnone ⟨g.mmaps, hlt⟩ (hg.room le_rfl hb)

/-- Where pages are not null and the requests fit a page, the mapped pages are a prefix and the
others are free. A request is served from the first mapped page with room, or, if there is none, from
one more page, and it is refused, without any effect, if all pages are mapped. -/
theorem grows_lazily (hm : Succeeds mmap) {live : List (ℤ × ℤ)}
    (h : ((clients Initial (alloc mmap) dealloc).guard fun _ => Ordinary).Reachable (g, live)) :
    ∃ m ≤ PAGES, (∀ k : Fin PAGES, g.base_ptr k ≠ NULL ↔ (k : ℕ) < m) ∧
      (∀ k : Fin PAGES, m ≤ k → ∀ i, g.is_free k i = 1) ∧
      ∀ b : ℕ, 1 ≤ b → b ≤ BLOCKS → ∃ ret g', Returns (alloc mmap (MINALLOC * b)) g ret g' ∧
        (∀ k : Fin PAGES, (k : ℕ) < m → g.Room k b → (∀ j < k, ¬ g.Room j b) →
          Served g k b ret g' ∧ g'.base_ptr = g.base_ptr ∧ g'.mmaps = g.mmaps) ∧
        (∀ k : Fin PAGES, (k : ℕ) = m → (∀ j < k, ¬ g.Room j b) → Served g k b ret g' ∧
          g'.base_ptr = Function.update g.base_ptr k (mmap g.mmaps) ∧ g'.mmaps = g.mmaps + 1 ∧
          g'.base_ptr k ≠ NULL) ∧
        (ret = NULL ↔ m = PAGES ∧ ∀ k, ¬ g.Room k b) ∧ (ret = NULL → g' = g) := by
  have hok := hm.mmapOk
  have hg := (kept_of_reachable hok h.of_guard).grown
  refine ⟨g.mmaps, hg.le, fun k => hg.base_ptr_ne hok, fun k hk i => ?_, fun b hb hfit => ?_⟩
  · exact congrFun (congrArg Page.is_free (hg.fresh k hk)) i
  have hdiv : (MINALLOC * (b : ℤ)).tdiv MINALLOC = b := Int.mul_tdiv_cancel_left _ (by decide)
  obtain ⟨ret, g', hret, hout⟩ := (wp_alloc_outcome hok hg (dvd_mul_right MINALLOC (b : ℤ))).total
  rw [hdiv] at hout
  refine ⟨ret, g', hret, ?_⟩
  cases hout with
  | served k i hno hi =>
    have hroom : g.Room k b := by
      by_contra hno
      rw [(start_eq_neg_one hb).2 hno] at hi
      omega
    have hfirst : ∀ j < k, ¬ g.Room j b := fun j hj => (start_eq_neg_one hb).1 (hno j hj)
    have hserved : Served g k b (mmap k + i * MINALLOC)
        ((g.grow mmap (max g.mmaps (k + 1))).taken k i b) :=
      served_taken hi (lt_max_of_lt_right (Nat.lt_succ_self _))
    have hne : mmap k + i * MINALLOC ≠ NULL := hok.addr_ne_null k i
    refine ⟨?_, ?_, iff_of_false hne fun hall => hall.2 k hroom, fun h => absurd h hne⟩
    · intro k' hk' hroom' hfirst'
      obtain rfl := first_room_unique hroom hroom' hfirst hfirst'
      refine ⟨hserved, ?_, max_eq_left hk'⟩
      rw [max_eq_left hk', hg.grow_self]
      rfl
    · intro k' hk' hfirst'
      obtain rfl := first_room_unique hroom (hg.room hk'.ge hfit) hfirst hfirst'
      have hmax : max g.mmaps (k + 1) = g.mmaps + 1 := by omega
      rw [hmax] at hserved ⊢
      refine ⟨hserved, ?_, rfl, ?_⟩
      · funext j
        rw [base_ptr_taken, base_ptr_grow]
        by_cases hj : j = k
        · subst hj
          rw [Function.update_self, ← hk', if_pos (Nat.lt_succ_self _)]
        · have hne : (j : ℕ) ≠ k := fun h => hj (Fin.ext h)
          rw [Function.update_of_ne hj, hg.base_ptr]
          exact if_congr (by omega) rfl rfl
      · rw [base_ptr_taken, base_ptr_grow, if_pos (by omega)]
        exact hok.ne_null k
  | refused hno =>
    have hnone : ∀ k, ¬ g.Room k b := fun k => (start_eq_neg_one hb).1 (hno k)
    have hfull := hg.full hfit hnone
    refine ⟨fun k _ hroom => absurd hroom (hnone k), fun k hk => ?_,
      iff_of_true rfl ⟨hfull, hnone⟩, fun _ => ?_⟩
    · exact absurd k.2 (by omega)
    · rw [← hfull, hg.grow_self]

/-- Four pages in a row, the first of them full: a request for one block maps the second one. -/
theorem grows_lazily_second : ∃ g g' : Globals, ∃ ret,
    Returns (alloc (fun k => 4096 * (k + 1)) 256) g ret g' ∧
      g.base_ptr 1 = NULL ∧ g'.base_ptr 1 ≠ NULL := by
  have h : ∃ g₁, Returns (alloc (fun k => 4096 * (k + 1)) 4096)
      .init 4096 g₁ ∧
      g₁.base_ptr 1 = NULL ∧ g₁.base_ptr 0 ≠ NULL ∧ ∀ i, g₁.is_free 0 i ≠ 1 := by
    decide +kernel
  obtain ⟨g₁, h₁, hnull, hmapped, hfull⟩ := h
  have hm : Succeeds fun k => 4096 * (k + 1) := fun k => show (0 : ℤ) < 4096 * ((k : ℕ) + 1) by omega
  have r₀ : ((clients Initial (alloc fun k => 4096 * (k + 1)) dealloc).guard
      fun _ => Ordinary).Reachable (.init, []) := .init ⟨initial_init, rfl⟩
  have s₁ : ((clients Initial (alloc fun k => 4096 * (k + 1)) dealloc).guard
      fun _ => Ordinary).step (.init, [])
      (.alloc 4096 4096) (g₁, [(4096, 4096)]) :=
    ⟨⟨by simp, by simp [PAGESIZE], by decide⟩, show InInt 4096 by simp [InInt], h₁, rfl⟩
  obtain ⟨m, -, hmaps, -, hall⟩ := grows_lazily hm (r₀.step s₁)
  have hm₀ : 0 < m := (hmaps 0).1 hmapped
  have hm₁ : ¬ 1 < m := fun hlt => (hmaps 1).2 hlt hnull
  obtain ⟨ret, g', hret, -, hmap, -⟩ := hall 1 le_rfl (by simp [BLOCKS])
  refine ⟨g₁, g', ret, hret, hnull, (hmap 1 ?_ ?_).2.2.2⟩
  · show 1 = m
    omega
  · intro j hj
    have hj₁ : (j : ℕ) < 1 := hj
    obtain rfl : j = 0 := Fin.ext (Nat.lt_one_iff.1 hj₁)
    rintro ⟨i, hi⟩
    obtain ⟨hlt, hfree⟩ := hi i le_rfl (Nat.lt_succ_self i)
    exact hfull ⟨i, hlt⟩ hfree

/-! ## Failed requests -/

/-- A request that is refused has no effect exactly if its size is no multiple of `MINALLOC`, if it
fits a page, or if all pages are mapped. -/
theorem refused_unchanged_iff (hm : MmapOk mmap) {live : List (ℤ × ℤ)}
    (h : (clients Initial (alloc mmap) dealloc).Reachable (g, live)) (n : ℤ) :
    (∃ ret g', Returns (alloc mmap n) g ret g') ∧
    ((∀ g', Returns (alloc mmap n) g NULL g' → g' = g) ↔
      ¬ MINALLOC ∣ n ∨ n ≤ PAGESIZE ∨ ∀ k, g.base_ptr k ≠ NULL) := by
  have hg := (kept_of_reachable hm h).grown
  by_cases hn : MINALLOC ∣ n
  · obtain ⟨ret, g', hret, hout⟩ := (wp_alloc_outcome hm hg hn).total
    have hsize : n = MINALLOC * n.tdiv MINALLOC := (Int.mul_tdiv_cancel' hn).symm
    refine ⟨⟨ret, g', hret⟩, ?_⟩
    cases hout with
    | served k i hno hi =>
      have hin := start_add_le hi
      refine iff_of_true (fun g'' hg'' => ?_) (Or.inr (Or.inl ?_))
      · exact absurd (hret.det hg'').1 (hm.addr_ne_null k i)
      · unfold MINALLOC BLOCKS at *
        unfold PAGESIZE
        omega
    | refused hno =>
      have hdet : (∀ g'', Returns (alloc mmap n) g NULL g'' → g'' = g) ↔
          g.grow mmap PAGES = g := by
        constructor
        · intro h
          exact h _ hret
        · rintro h g'' hg''
          rw [← (hret.det hg'').2, h]
      rw [hdet]
      constructor
      · intro h
        refine Or.inr (Or.inr fun k => ?_)
        rw [← h, base_ptr_grow, if_pos k.2]
        exact hm.ne_null k
      · rintro (hnd | hle | hall)
        · exact absurd hn hnd
        · have hnone : ∀ k, ¬ g.Room k (max 1 (n.tdiv MINALLOC)).toNat := fun k =>
            (start_eq_neg_one_max _).1 (hno k)
          have hfull := hg.full (by unfold MINALLOC PAGESIZE BLOCKS at *; omega) hnone
          rw [← hfull, hg.grow_self]
        · have hlast := (hg.base_ptr_ne hm).1 (hall ⟨3, by simp [PAGES]⟩)
          have hfull : g.mmaps = PAGES := le_antisymm hg.le hlast
          rw [← hfull, hg.grow_self]
  · have hret : Returns (alloc mmap n) g NULL g := alloc_of_not_dvd hn
    refine ⟨⟨NULL, g, hret⟩, iff_of_true (fun g' hg' => (hret.det hg').2.symm) (Or.inl hn)⟩

/-- The first request for 17 blocks maps all pages; the second one is refused as well, and nothing
changes. -/
theorem refused_unchanged_all_mapped : ∃ g g' : Globals,
    (clients Initial (alloc fun k => 4096 * (k + 1)) dealloc).Reachable (g, []) ∧
      (∀ k, g.base_ptr k ≠ NULL) ∧ Returns (alloc (fun k => 4096 * (k + 1)) 4352) g NULL g' ∧
      g' = g := by
  have h : ∃ g, Returns (alloc (fun k => 4096 * (k + 1)) 4352) .init NULL g ∧
      (∀ k, g.base_ptr k ≠ NULL) ∧ ∃ g', Returns (alloc (fun k => 4096 * (k + 1)) 4352) g NULL g' ∧
        g'.mmaps = 4 := by decide +kernel
  obtain ⟨g, hg, hall, g', hg', -⟩ := h
  have hm : MmapOk fun k => 4096 * (k + 1) := fun k =>
    Or.inr (show (0 : ℤ) < 4096 * ((k : ℕ) + 1) by omega)
  have r₀ : (clients Initial (alloc fun k => 4096 * (k + 1)) dealloc).Reachable (.init, []) :=
    .init ⟨initial_init, rfl⟩
  have r₁ : (clients Initial (alloc fun k => 4096 * (k + 1)) dealloc).Reachable (g, []) :=
    r₀.step (l := .alloc 4352 NULL) ⟨show InInt 4352 by decide, hg, rfl⟩
  obtain ⟨-, hiff⟩ := refused_unchanged_iff hm r₁ 4352
  exact ⟨g, g', r₁, hall, hg', hiff.2 (Or.inr (Or.inr hall)) g' hg'⟩

/-- A request for 17 blocks is refused, and the four pages are mapped. -/
theorem refused_maps_pages :
    (clients Initial (alloc fun k => 4096 * (k + 1)) dealloc).Reachable (.init, []) ∧
    ∃ g', Returns (alloc (fun k => 4096 * (k + 1)) 4352) .init NULL g' ∧
      ∀ k, g'.base_ptr k ≠ Globals.init.base_ptr k := by
  refine ⟨.init ⟨initial_init, rfl⟩, ?_⟩
  decide +kernel

end Malloc.Ealloc

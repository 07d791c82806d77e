/-
  Requests of any size: when the pointers that clients hold are distinct.
-/
import OSModules.Malloc.Addresses

namespace Malloc

open Runs Prog Regions CInt Stretches

/-! ## What clients hold -/

theorem eraseP_eq_filter {live : List (ℤ × ℤ)} (h : (live.map Prod.fst).Nodup) (ptr : ℤ) :
    live.eraseP (fun x => x.1 = ptr) = live.filter fun x => x.1 ≠ ptr := by
  induction live with
  | nil => rfl
  | cons x live ih =>
    rw [List.map_cons, List.nodup_cons] at h
    by_cases hx : x.1 = ptr
    · have hno : ∀ y ∈ live, y.1 ≠ ptr := by
        rintro y hy rfl
        exact h.1 (hx ▸ List.mem_map_of_mem hy)
      rw [List.eraseP_cons_of_pos (by simpa using hx), List.filter_cons_of_neg (by simpa using hx),
        List.filter_eq_self.2 (by simpa using hno)]
    · rw [List.eraseP_cons_of_neg (by simpa using hx), List.filter_cons_of_pos (by simpa using hx),
        ih h.2]

section
variable {κ : Type} [DecidableEq κ] {N : ℕ} {base : κ → ℤ} {M : ℤ} (hp : Placed base M N)
  {h : Heap κ N} {k : κ}
include hp

theorem hold_dealloc {i : ℕ} (hi : i < N) :
    hold (h.live.map (Region.bytes base M)) (.dealloc (base k + M * i)) =
      (h.free k i).live.map (Region.bytes base M) := by
  rw [hold, eraseP_eq_filter hp.nodup_starts, hp.map_free hi]

/-- The blocks of the regions that are still held are in use. -/
theorem Page.Rep.others {pages : κ → Page N} {i : ℕ} (hrep : Page.Rep pages (h.free k i))
    {y : ℤ × ℤ} (hy : y ∈ h.live.map (Region.bytes base M)) (hne : y.1 ≠ base k + M * i) (k' : κ)
    {j : Fin N} (hc : Covers y (base k' + M * j) M) : (pages k').is_free j = 0 := by
  obtain ⟨t, ht, rfl⟩ := List.mem_map.1 hy
  refine hrep.is_free_eq_zero.2 ⟨t, Heap.mem_free.2 ⟨ht, ?_⟩, (covers_iff hp ht).1 hc⟩
  rintro ⟨rfl, rfl⟩
  exact hne rfl

end

/-- A request for no bytes, or less, is one for no blocks. -/
theorem tdiv_nonpos {m n : ℤ} (hm : 0 ≤ m) (hn : n ≤ 0) : n.tdiv m ≤ 0 := by
  have h := Int.tdiv_nonneg (Int.neg_nonneg_of_nonpos hn) hm
  rw [Int.neg_tdiv] at h
  omega

/-- Without a free block, no request is served. -/
theorem Page.get_free_start_idx_of_full {N : ℕ} (hN : N ≤ PAGESIZE) {is_free : Fin N → ℤ}
    (hfull : ∀ i, is_free i ≠ 1) (c : ℤ) : get_free_start_idx is_free c = -1 := by
  rw [get_free_start_idx_eq_neg_one hN]
  rintro ⟨i, hi⟩
  obtain ⟨hlt, hfree⟩ := hi i le_rfl (by omega)
  exact hfull _ hfree

/-- A free block serves a request for no blocks. -/
theorem Page.get_free_start_idx_of_nonpos {N : ℕ} (hN : N ≤ PAGESIZE) {is_free : Fin N → ℤ}
    {c : ℤ} (hc : c ≤ 0) {j : Fin N} (hj : is_free j = 1) :
    ∃ i : Fin N, get_free_start_idx is_free c = i := by
  have hne : get_free_start_idx is_free c ≠ -1 := by
    rw [Ne, get_free_start_idx_eq_neg_one hN, not_not, max_eq_left (by omega)]
    refine ⟨j, fun a hja ha => ?_⟩
    obtain rfl : a = j := by
      simp only [Int.toNat_one] at ha
      omega
    exact ⟨j.2, hj⟩
  obtain ⟨i, hi, -⟩ := get_free_start_idx_free hne
  exact ⟨i, hi⟩

/-! ## `alloc.c` -/

namespace Alloc

/-- A request that is refused, for a positive size, or made when no block is free. -/
def Sized (g : Globals) : Call → Prop
  | .alloc req_len _ => MINALLOC ∣ req_len → 0 < req_len ∨ ∀ i, g.is_free i ≠ 1
  | .dealloc _ => True

/-- The pointers are distinct, and a deallocation of one leaves the blocks of the others in use. -/
def Separate (g : Globals) (live : List (ℤ × ℤ)) : Prop :=
  (live.map Prod.fst).Nodup ∧ ∀ x ∈ live, ∃ g', Returns (dealloc x.1) g () g' ∧
    ∀ y ∈ live, y.1 ≠ x.1 → ∀ i : Fin BLOCKS, Covers y (g.base_ptr + MINALLOC * i) MINALLOC →
      g'.is_free i = 0

variable {g : Globals} {live : List (ℤ × ℤ)} {h : Heap Unit BLOCKS} {E : Fault → Prop}

/-- A request of a positive size that is served. -/
theorem sized_alloc {mmap : ℕ → ℤ} {g' : Globals} {n ret : ℤ} (hpos : 0 < n) (hn : InInt n)
    (hret : ret ≠ NULL) (h : Returns (alloc n) g ret g') (live : List (ℤ × ℤ)) :
    ((clients (Initial mmap) alloc dealloc).guard fun s => Sized s.1).step (g, live) (.alloc n ret)
      (g', live ++ [(ret, n)]) :=
  ⟨fun _ => Or.inl hpos, clients_alloc hn hret h live⟩

theorem alloc_of_not_dvd {n : ℤ} (hn : ¬ MINALLOC ∣ n) : Returns (alloc n) g NULL g := by
  rw [alloc, if_pos fun h => hn (Int.dvd_of_tmod_eq_zero h)]
  rfl

theorem alloc_of_none {n : ℤ} (hn : Page.get_free_start_idx g.is_free (n.tdiv MINALLOC) = -1) :
    Returns (alloc n) g NULL g := by
  obtain ⟨ret, g', hret, rfl, rfl⟩ :=
    (show wp (alloc n) g (fun _ => False) fun ret g' => ret = NULL ∧ g' = g by
      rw [alloc]
      split
      · exact ⟨rfl, rfl⟩
      · rw [wp_bind, wp_get, hn]
        exact ⟨rfl, rfl⟩).total
  exact hret

theorem Inv.exists_block (hinv : Inv g live h) {x : ℤ × ℤ} (hx : x ∈ live) :
    ∃ i : Fin BLOCKS, x.1 = g.base_ptr + MINALLOC * i := by
  rw [hinv.live_eq] at hx
  obtain ⟨r, hr, rfl⟩ := List.mem_map.1 hx
  exact ⟨⟨r.start, h.start_lt hr⟩, rfl⟩

theorem Inv.separate (hinv : Inv g live h) : Separate g live := by
  refine ⟨?_, fun x hx => ?_⟩
  · rw [hinv.live_eq]
    exact (placed g.base_ptr).nodup_starts
  · obtain ⟨i, hxi⟩ := hinv.exists_block hx
    obtain ⟨⟨⟩, g', hret, p, rfl, hrep⟩ := (Alloc.wp_dealloc hinv.rep i).total
    rw [hxi]
    refine ⟨_, hret, fun y hy hne j hc => ?_⟩
    rw [hinv.live_eq] at hy
    exact Page.Rep.others (placed g.base_ptr) hrep hy hne () hc

/-- A call of a client whose requests have a size keeps the invariant. -/
theorem Inv.sized_step (hinv : Inv g live h) (hpos : 0 < g.base_ptr) {init : Globals → Prop} {c : Call}
    (hc : Sized g c) {s' : Globals × List (ℤ × ℤ)}
    (hs : (clients init alloc dealloc).step (g, live) c s') :
    ∃ h', Inv s'.1 s'.2 h' ∧ s'.1.base_ptr = g.base_ptr := by
  obtain ⟨g', live'⟩ := s'
  obtain ⟨hany, hcall, hlive⟩ := hs
  have hlive : live' = hold live c := hlive
  subst hlive
  cases c with
  | alloc n ret =>
    have hrefused : Returns (alloc n) g NULL g →
        ∃ h', Inv g' (hold live (.alloc n ret)) h' ∧ g'.base_ptr = g.base_ptr := by
      intro hnull
      obtain ⟨rfl, rfl⟩ := hnull.det hcall
      rw [hold, if_pos rfl]
      exact ⟨h, hinv, rfl⟩
    by_cases hn : MINALLOC ∣ n
    · rcases hc hn with hn₀ | hfull
      · obtain ⟨p, h', rfl, hrep, hserves⟩ :=
          (wp_alloc (E := fun _ => True) hinv.rep hn₀ hn).returns hcall
        refine ⟨h', ⟨hrep, ?_⟩, rfl⟩
        rw [hinv.live_eq]
        refine hserves.hold fun _ i _ => ?_
        unfold MINALLOC NULL
        omega
      · refine hrefused (alloc_of_none ?_)
        exact Page.get_free_start_idx_of_full (by simp [BLOCKS, PAGESIZE]) hfull _
    · exact hrefused (alloc_of_not_dvd hn)
  | dealloc ptr =>
    obtain ⟨x, hx, rfl⟩ := hany
    obtain ⟨i, hxi⟩ := hinv.exists_block hx
    have hcall : Returns (dealloc x.1) g () g' := hcall
    rw [hxi] at hcall ⊢
    obtain ⟨p, rfl, hrep⟩ := (Alloc.wp_dealloc (E := fun _ => True) hinv.rep i).returns hcall
    refine ⟨_, ⟨hrep, ?_⟩, rfl⟩
    rw [hinv.live_eq]
    exact hold_dealloc (k := ()) (placed g.base_ptr) i.2

theorem inv_of_sized {mmap : ℕ → ℤ} (hm : MmapOk mmap)
    (hr : ((clients (Initial mmap) alloc dealloc).guard fun s => Sized s.1).Reachable (g, live)) :
    0 < g.base_ptr ∧ ∃ h, Inv g live h := by
  refine hr.invariant (I := fun s => 0 < s.1.base_ptr ∧ ∃ h, Inv s.1 s.2 h) ?_ ?_
  · rintro ⟨g, live⟩ ⟨hg, rfl⟩
    obtain ⟨hpos, hrep⟩ := rep_of_initial hm hg
    exact ⟨hpos, Heap.empty, hrep, rfl⟩
  · rintro ⟨g, live⟩ c s' ⟨hpos, h, hinv⟩ ⟨hc, hs⟩
    obtain ⟨h', hinv', hbase⟩ := hinv.sized_step hpos hc hs
    refine ⟨?_, h', hinv'⟩
    rwa [hbase]

/-- A request for no blocks, or less, is served twice with the same pointer. -/
theorem served_twice (hpos : 0 < g.base_ptr) {n ret : ℤ} (hc : ¬ Sized g (.alloc n ret)) :
    ∃ p g' g'', p ≠ NULL ∧ Returns (alloc n) g p g' ∧ Returns (alloc n) g' p g'' := by
  rw [Sized, Classical.not_imp, not_or, not_lt, not_forall] at hc
  obtain ⟨hn, hle, j, hj⟩ := hc
  rw [not_not] at hj
  have hdiv : n.tdiv MINALLOC ≤ 0 := tdiv_nonpos (by decide) hle
  obtain ⟨i, hi⟩ := Page.get_free_start_idx_of_nonpos (by simp [BLOCKS, PAGESIZE]) hdiv hj
  have hserve : ∀ g₁ : Globals, g₁.is_free = g.is_free → g₁.base_ptr = g.base_ptr →
      ∃ g₂, Returns (alloc n) g₁ (g.base_ptr + i * MINALLOC) g₂ ∧ g₂.is_free = g.is_free ∧
        g₂.base_ptr = g.base_ptr := by
    intro g₁ hfree hbase
    obtain ⟨ret, g₂, hret, rfl, hfree', hbase'⟩ :=
      (show wp (alloc n) g₁ (fun _ => False) fun ret g₂ => ret = g.base_ptr + i * MINALLOC ∧
          g₂.is_free = g.is_free ∧ g₂.base_ptr = g.base_ptr by
        rw [alloc, if_neg (not_not.2 (Int.tmod_eq_zero_of_dvd hn)), wp_bind, wp_get, hfree, hi,
          if_neg (by omega), wp_bind, onPage, wp_zoom]
        refine Page.wp_take (by omega) ?_
        rw [wp_bind, wp_get, wp_pure, Page.filled_of_le (by omega)]
        exact ⟨by rw [hbase], hfree, hbase⟩).total
    exact ⟨g₂, hret, hfree', hbase'⟩
  obtain ⟨g', hret, hfree, hbase⟩ := hserve g rfl rfl
  obtain ⟨g'', hret', -⟩ := hserve g' hfree hbase
  refine ⟨_, g', g'', ?_, hret, hret'⟩
  unfold MINALLOC NULL
  omega

end Alloc

/-! ## `ealloc.c` -/

namespace Ealloc

/-- A request that is refused, for a positive size, or made when no block of any page is free. -/
def Sized (g : Globals) : Call → Prop
  | .alloc req_len _ => MINALLOC ∣ req_len → 0 < req_len ∨ ∀ k i, g.is_free k i ≠ 1
  | .dealloc _ => True

/-- What `mmap` may return: it fails, or it returns a page that is not null and overlaps no
other. -/
structure MmapResults (mmap : ℕ → ℤ) : Prop where
  ok : ∀ k : Fin PAGES, mmap k = MAP_FAILED ∨ 0 < mmap k ∧ (PAGESIZE : ℤ) ∣ mmap k
  apart : ∀ j k : Fin PAGES, j ≠ k → mmap j ≠ MAP_FAILED → mmap k ≠ MAP_FAILED →
    mmap j + PAGESIZE ≤ mmap k ∨ mmap k + PAGESIZE ≤ mmap j

/-- No block of one of the first `m` pages has the index of a block in a page before it. -/
def Clear (mmap : ℕ → ℤ) (m : ℕ) : Prop :=
  ∀ j k : Fin PAGES, j < k → (k : ℕ) < m →
    ∀ i : Fin BLOCKS, ¬ InPage (blockOf (mmap j) (mmap k + MINALLOC * i))

/-- The pointers are distinct, and a deallocation of one leaves the blocks of the others in use. -/
def Separate (g : Globals) (live : List (ℤ × ℤ)) : Prop :=
  (live.map Prod.fst).Nodup ∧ ∀ x ∈ live, ∃ g', Returns (dealloc x.1) g () g' ∧
    ∀ y ∈ live, y.1 ≠ x.1 → ∀ (k : Fin PAGES) (i : Fin BLOCKS), g.base_ptr k ≠ NULL →
      Covers y (g.base_ptr k + MINALLOC * i) MINALLOC → g'.is_free k i = 0

variable {mmap : ℕ → ℤ} {g : Globals} {live : List (ℤ × ℤ)} {h : Heap (Fin PAGES) BLOCKS}

/-- A request of a positive size that is served. -/
theorem sized_alloc {g' : Globals} {n ret : ℤ} (hpos : 0 < n) (hn : InInt n) (hret : ret ≠ NULL)
    (h : Returns (alloc mmap n) g ret g') (live : List (ℤ × ℤ)) :
    ((clients Initial (alloc mmap) dealloc).guard fun s => Sized s.1).step (g, live) (.alloc n ret)
      (g', live ++ [(ret, n)]) :=
  ⟨fun _ => Or.inl hpos, clients_alloc hn hret h live⟩

theorem Layout.mmapResults (hm : Layout mmap) : MmapResults mmap where
  ok k := Or.inr ⟨hm.pos k, hm.aligned k⟩
  apart j k hjk _ _ := hm.apart j k hjk

theorem Layout.clear (hm : Layout mmap) (m : ℕ) : Clear mmap m :=
  fun _ _ hjk _ i => hm.out_of_range hjk.ne i

theorem MmapResults.mmapOk (hm : MmapResults mmap) : MmapOk mmap := fun k => (hm.ok k).imp_right And.left

theorem Clear.mono {m m' : ℕ} (h : Clear mmap m') (hle : m ≤ m') : Clear mmap m :=
  fun j k hjk hk => h j k hjk (hk.trans_le hle)

/-- Pages that are not taken for each other do not overlap. -/
theorem Clear.apart {m : ℕ} (hc : Clear mmap m) (hm : MmapResults mmap) {j k : Fin PAGES}
    (hjk : j ≠ k) (hj : (j : ℕ) < m) (hk : (k : ℕ) < m) :
    mmap j + PAGESIZE ≤ mmap k ∨ mmap k + PAGESIZE ≤ mmap j := by
  have hboth : ¬ (mmap j = MAP_FAILED ∧ mmap k = MAP_FAILED) := by
    rintro ⟨hjf, hkf⟩
    have hin : ∀ i : Fin BLOCKS, InPage (blockOf MAP_FAILED (MAP_FAILED + MINALLOC * i)) := by
      intro i
      rw [blockOf_self]
      exact inPage_fin i
    rcases lt_or_gt_of_ne hjk with hlt | hlt
    · refine hc j k hlt hk ⟨0, by simp [BLOCKS]⟩ ?_
      rw [hjf, hkf]
      exact hin _
    · refine hc k j hlt hj ⟨0, by simp [BLOCKS]⟩ ?_
      rw [hjf, hkf]
      exact hin _
  rcases hm.ok j with hjf | ⟨hjpos, hjd⟩ <;> rcases hm.ok k with hkf | ⟨hkpos, hkd⟩
  · exact absurd ⟨hjf, hkf⟩ hboth
  · unfold PAGESIZE MAP_FAILED at *
    omega
  · unfold PAGESIZE MAP_FAILED at *
    omega
  · refine hm.apart j k hjk ?_ ?_ <;> unfold MAP_FAILED <;> omega

/-- The pages that are not mapped can be thought of as lying behind the others. -/
theorem Clear.exists_placed {m : ℕ} (hc : Clear mmap m) (hm : MmapResults mmap) :
    ∃ b : Fin PAGES → ℤ, Placed b MINALLOC BLOCKS ∧ ∀ k : Fin PAGES, (k : ℕ) < m → b k = mmap k := by
  obtain ⟨B, hB⟩ := Set.finite_range (fun k : Fin PAGES => mmap k) |>.bddAbove
  have hB : ∀ k : Fin PAGES, mmap k ≤ B := fun k => hB ⟨k, rfl⟩
  refine ⟨fun k => if (k : ℕ) < m then mmap k else B + PAGESIZE * (k + 1), ⟨by decide, ?_⟩,
    fun k hk => if_pos hk⟩
  intro j k hjk
  have hne : (j : ℕ) ≠ k := fun h => hjk (Fin.ext h)
  have hsize : MINALLOC * (BLOCKS : ℤ) = PAGESIZE := by decide
  have hBj := hB j
  have hBk := hB k
  simp only [hsize]
  unfold PAGESIZE
  split <;> split
  · next hj hk => exact hc.apart hm hjk hj hk
  all_goals omega

/-- The regions of a heap lie where its pages are. -/
theorem Rep.map_bytes (hrep : Rep mmap g h) {b : Fin PAGES → ℤ}
    (hb : ∀ k : Fin PAGES, (k : ℕ) < g.mmaps → b k = mmap k) :
    h.live.map (Region.bytes (base mmap) MINALLOC) = h.live.map (Region.bytes b MINALLOC) := by
  refine List.map_congr_left fun r hr => ?_
  rw [Region.bytes, Region.bytes, hb r.arena (hrep.mapped r hr)]

/-- A deallocation of a live pointer finds its page and its block. -/
theorem Rep.find (hrep : Rep mmap g h) (hc : Clear mmap g.mmaps) {k : Fin PAGES}
    (hk : (k : ℕ) < g.mmaps) (i : Fin BLOCKS) :
    findPage g.base_ptr (mmap k + MINALLOC * i) (List.finRange PAGES) 0 =
      (((k : ℕ) : ℤ), ((i : ℕ) : ℤ)) := by
  have hbase : ∀ j ≤ k, g.base_ptr j = mmap j := fun j hj => hrep.base_ptr_eq (hk.trans_le' hj)
  have hin : InPage (blockOf (g.base_ptr k) (mmap k + MINALLOC * i)) := by
    rw [hbase k le_rfl, blockOf_self]
    exact inPage_fin i
  obtain ⟨j, hjk, hjin, -, hfind⟩ :=
    findPage_first (List.mem_finRange k) (List.pairwise_lt_finRange PAGES) hin 0
  rw [hbase j hjk] at hjin hfind
  rcases hjk.lt_or_eq with hlt | rfl
  · exact absurd hjin (hc j k hlt hk i)
  · rw [hfind, blockOf_self]

theorem Inv.separate (hinv : Inv mmap g live h) (hm : MmapResults mmap)
    (hc : Clear mmap g.mmaps) : Separate g live := by
  obtain ⟨b, hplaced, hb⟩ := hc.exists_placed hm
  have hlive := hinv.live_eq.trans (hinv.rep.map_bytes hb)
  refine ⟨?_, fun x hx => ?_⟩
  · rw [hlive]
    exact hplaced.nodup_starts
  · obtain ⟨r, hr, i, -, rfl⟩ := hinv.exists_block hx
    have hk := hinv.rep.mapped r hr
    obtain ⟨⟨⟩, g', hret, -, -, hrep⟩ := (hinv.rep.wp_dealloc (hinv.rep.find hc hk i)).total
    refine ⟨g', hret, fun y hy hne k j hmapped hcov => ?_⟩
    have hk' := (hinv.rep.base_ptr_ne hm.mmapOk.ne_null).1 hmapped
    rw [hlive] at hy
    rw [hinv.rep.base_ptr_eq hk', base, ← hb k hk'] at hcov
    rw [base, ← hb r.arena hk] at hne
    exact Page.Rep.others hplaced hrep.pages hy hne k hcov

/-- Without a free block on any page, a request is refused and changes nothing. -/
theorem Grown.alloc_full (hg : Grown mmap g) (hm : MmapOk mmap) (hfull : ∀ k i, g.is_free k i ≠ 1)
    {n : ℤ} (hn : MINALLOC ∣ n) : Returns (alloc mmap n) g NULL g := by
  obtain ⟨ret, g', hret, hout⟩ := (wp_alloc_outcome hm hg hn).total
  have hnone : ∀ k b, g.start k b = -1 := fun k =>
    Page.get_free_start_idx_of_full (by simp [BLOCKS, PAGESIZE]) (hfull k)
  have hmapped : g.mmaps = PAGES := by
    refine hg.full (Nat.one_le_iff_ne_zero.2 (by simp [BLOCKS]) : 1 ≤ BLOCKS) fun k => ?_
    exact (start_eq_neg_one le_rfl).1 (hnone k _)
  cases hout with
  | served k i hno hi =>
    rw [hnone] at hi
    omega
  | refused =>
    rwa [← hmapped, hg.grow_self] at hret

/-- A call of a client whose requests have a size keeps the invariant. -/
theorem Inv.sized_step (hinv : Inv mmap g live h) (hm : MmapResults mmap) (hg : Grown mmap g)
    (hclear : Clear mmap g.mmaps) {c : Call} (hc : Sized g c) {s' : Globals × List (ℤ × ℤ)}
    (hs : (clients Initial (alloc mmap) dealloc).step (g, live) c s') :
    ∃ h', Inv mmap s'.1 s'.2 h' := by
  obtain ⟨g', live'⟩ := s'
  obtain ⟨hany, hcall, hlive⟩ := hs
  have hlive : live' = hold live c := hlive
  subst hlive
  cases c with
  | alloc n ret =>
    have hrefused : Returns (alloc mmap n) g NULL g →
        ∃ h', Inv mmap g' (hold live (.alloc n ret)) h' := by
      intro hnull
      obtain ⟨rfl, rfl⟩ := hnull.det hcall
      rw [hold, if_pos rfl]
      exact ⟨h, hinv⟩
    by_cases hn : MINALLOC ∣ n
    · rcases hc hn with hn₀ | hfull
      · obtain ⟨h', hrep, hserves⟩ :=
          (wp_alloc (E := fun _ => True) hm.mmapOk.ne_null hinv.rep hn₀ hn).returns hcall
        refine ⟨h', hrep, ?_⟩
        rw [hinv.live_eq]
        refine hserves.hold fun k i hi => ?_
        rw [mul_comm]
        exact hm.mmapOk.addr_ne_null k ⟨i, hi⟩
      · exact hrefused (hg.alloc_full hm.mmapOk hfull hn)
    · exact hrefused (alloc_of_not_dvd hn)
  | dealloc ptr =>
    obtain ⟨x, hx, rfl⟩ := hany
    obtain ⟨r, hr, i, -, rfl⟩ := hinv.exists_block hx
    have hk := hinv.rep.mapped r hr
    have hcall : Returns (dealloc (mmap r.arena + MINALLOC * i)) g () g' := hcall
    obtain ⟨-, hmmaps, hrep⟩ :=
      (hinv.rep.wp_dealloc (E := fun _ => True) (hinv.rep.find hclear hk i)).returns hcall
    refine ⟨_, hrep, ?_⟩
    obtain ⟨b, hplaced, hb⟩ := hclear.exists_placed hm
    rw [hrep.map_bytes (b := b) (by rwa [hmmaps]), hinv.live_eq, hinv.rep.map_bytes hb, base,
      ← hb r.arena hk]
    exact hold_dealloc hplaced i.2

theorem inv_of_sized (hm : MmapResults mmap)
    (hr : ((clients Initial (alloc mmap) dealloc).guard fun s => Sized s.1).Reachable (g, live))
    (hclear : Clear mmap g.mmaps) : ∃ h, Inv mmap g live h := by
  refine hr.induct (I := fun s => Clear mmap s.1.mmaps → ∃ h, Inv mmap s.1 s.2 h) ?_ ?_ hclear
  · rintro ⟨g, live⟩ ⟨hg, rfl⟩ -
    exact ⟨Heap.empty, rep_of_initial hg, rfl⟩
  · rintro ⟨g, live⟩ c s' hr ih ⟨hc, hs⟩ hclear
    have hkept := kept_of_reachable hm.mmapOk hr.of_guard
    obtain ⟨-, hle, -⟩ := hkept.step hm.mmapOk hs
    obtain ⟨h, hinv⟩ := ih (hclear.mono hle)
    exact hinv.sized_step hm hkept.grown (hclear.mono hle) hc hs

/-- A request for no blocks, or less, takes none. -/
theorem is_free_taken {k : Fin PAGES} {i : Fin BLOCKS} {b : ℤ} (hb : b ≤ 0) :
    (g.taken k i b).is_free = g.is_free := by
  have hfill : (g.page k).filled i (i + b) 0 = g.page k := Page.filled_of_le (by omega)
  rw [Globals.taken, hfill]
  exact Function.update_eq_self k g.is_free

/-- A request for no blocks, or less, is served twice with the same pointer. -/
theorem Grown.served_twice (hg : Grown mmap g) (hm : MmapOk mmap) {n ret : ℤ}
    (hc : ¬ Sized g (.alloc n ret)) :
    ∃ p g' g'', p ≠ NULL ∧ Returns (alloc mmap n) g p g' ∧ Returns (alloc mmap n) g' p g'' := by
  rw [Sized, Classical.not_imp, not_or, not_lt, not_forall] at hc
  obtain ⟨hn, hle, k₀, hk₀⟩ := hc
  rw [not_forall] at hk₀
  obtain ⟨j, hj⟩ := hk₀
  rw [not_not] at hj
  have hdiv : n.tdiv MINALLOC ≤ 0 := tdiv_nonpos (by decide) hle
  obtain ⟨p, g', hret, hout⟩ := (wp_alloc_outcome hm hg hn).total
  obtain ⟨p', g'', hret', hout'⟩ := (wp_alloc_outcome hm (hout.grown hg) hn).total
  cases hout with
  | served k i hno hi =>
    refine ⟨_, _, g'', hm.addr_ne_null k i, hret, ?_⟩
    -- nothing was taken, so the second search finds the same block
    have hsame : ((g.grow mmap (max g.mmaps (k + 1))).taken k i (n.tdiv MINALLOC)).start =
        g.start := by
      funext j b
      rw [Globals.start, is_free_taken hdiv]
      rfl
    cases hout' with
    | served k' i' hno' hi' =>
      rw [hsame] at hno' hi'
      obtain rfl : k' = k := by
        rcases lt_trichotomy k' k with hlt | heq | hlt
        · have := hno k' hlt
          omega
        · exact heq
        · have := hno' k hlt
          omega
      obtain rfl : i' = i := by
        rw [hi] at hi'
        omega
      exact hret'
    | refused hno' =>
      have hnone := hno' k
      rw [hsame] at hnone
      omega
  | refused hno =>
    obtain ⟨i, hi⟩ := Page.get_free_start_idx_of_nonpos (by simp [BLOCKS, PAGESIZE]) hdiv hj
    have hnone := hno k₀
    rw [Globals.start, hi] at hnone
    omega

end Ealloc

/-! ## Both allocators -/

/-- In a run of `alloc.c` and in one of `ealloc.c`: if all requests are refused, positive, or made when
no block is free, live pointers are separate, where for `ealloc.c` no block is taken for one of
another page. Any other request is served, and once more with the same pointer. -/
theorem sizes_separate {mmap mmap' : ℕ → ℤ} (hm : Alloc.MmapOk mmap) (hm' : Ealloc.MmapResults mmap')
    {g : Alloc.Globals} {g' : Ealloc.Globals} {live live' : List (ℤ × ℤ)}
    (hr : ((clients (Alloc.Initial mmap) Alloc.alloc Alloc.dealloc).guard fun s =>
      Alloc.Sized s.1).Reachable (g, live))
    (hr' : ((clients Ealloc.Initial (Ealloc.alloc mmap') Ealloc.dealloc).guard fun s =>
      Ealloc.Sized s.1).Reachable (g', live')) :
    (Alloc.Separate g live ∧ ∀ n ret, ¬ Alloc.Sized g (.alloc n ret) → ∃ p g₁ g₂, p ≠ NULL ∧
      Returns (Alloc.alloc n) g p g₁ ∧ Returns (Alloc.alloc n) g₁ p g₂) ∧
    (Ealloc.Clear mmap' g'.mmaps → Ealloc.Separate g' live') ∧
    ∀ n ret, ¬ Ealloc.Sized g' (.alloc n ret) → ∃ p g₁ g₂, p ≠ NULL ∧
      Returns (Ealloc.alloc mmap' n) g' p g₁ ∧ Returns (Ealloc.alloc mmap' n) g₁ p g₂ := by
  refine ⟨?_, fun hclear => ?_, fun n ret hc => ?_⟩
  · obtain ⟨hpos, h, hinv⟩ := Alloc.inv_of_sized hm hr
    exact ⟨hinv.separate, fun n ret hc => Alloc.served_twice hpos hc⟩
  · obtain ⟨h, hinv⟩ := Ealloc.inv_of_sized hm' hr' hclear
    exact hinv.separate hm' hclear
  · exact (Ealloc.kept_of_reachable hm'.mmapOk hr'.of_guard).grown.served_twice hm'.mmapOk hc

/-- Two requests with each allocator; those of `ealloc.c` are served from two pages. -/
theorem sizes_separate_two :
    (∃ g, (clients (Alloc.Initial fun _ => 4096) Alloc.alloc Alloc.dealloc).Reachable
      (g, [(4096, 16), (4112, 8)]) ∧ Alloc.Separate g [(4096, 16), (4112, 8)]) ∧
    ∃ g, (clients Ealloc.Initial (Ealloc.alloc fun k => 4096 * (k + 1)) Ealloc.dealloc).Reachable
      (g, [(4096, 4096), (8192, 256)]) ∧ Ealloc.Separate g [(4096, 4096), (8192, 256)] := by
  have h : ∃ g₁, Returns (Alloc.alloc 16) ⟨Page.fresh, 4096, 1⟩ 4096 g₁ ∧
      ∃ g₂, Returns (Alloc.alloc 8) g₁ 4112 g₂ ∧ g₂.mmaps = 1 := by decide +kernel
  have h' : ∃ g₁, Returns (Ealloc.alloc (fun k => 4096 * (k + 1)) 4096) .init 4096 g₁ ∧
      ∃ g₂, Returns (Ealloc.alloc (fun k => 4096 * (k + 1)) 256) g₁ 8192 g₂ ∧ g₂.mmaps = 2 := by
    decide +kernel
  obtain ⟨g₁, h₁, g₂, h₂, -⟩ := h
  obtain ⟨g₁', h₁', g₂', h₂', -⟩ := h'
  have hm : Alloc.MmapOk fun _ => 4096 := fun _ => Or.inr (by simp)
  have hm' := Ealloc.layout_row
  have r₀ : ((clients (Alloc.Initial fun _ => 4096) Alloc.alloc Alloc.dealloc).guard fun s =>
      Alloc.Sized s.1).Reachable (⟨Page.fresh, 4096, 1⟩, []) :=
    .init ⟨Alloc.initial_iff.2 ⟨0, by simp [MAP_FAILED], rfl⟩, rfl⟩
  have r₁ := r₀.step (Alloc.sized_alloc (by decide) (by decide) (by decide) h₁ [])
  have r₂ := r₁.step (Alloc.sized_alloc (by decide) (by decide) (by decide) h₂ _)
  have r₀' : ((clients Ealloc.Initial (Ealloc.alloc fun k => 4096 * (k + 1))
      Ealloc.dealloc).guard fun s => Ealloc.Sized s.1).Reachable (.init, []) :=
    .init ⟨Ealloc.initial_init, rfl⟩
  have r₁' := r₀'.step (Ealloc.sized_alloc (by decide) (by decide) (by decide) h₁' [])
  have r₂' := r₁'.step (Ealloc.sized_alloc (by decide) (by decide) (by decide) h₂' _)
  obtain ⟨⟨hsep, -⟩, hsep', -⟩ := sizes_separate hm hm'.mmapResults r₂ r₂'
  exact ⟨⟨g₂, r₂.of_guard, hsep⟩, g₂', r₂'.of_guard, hsep' (hm'.clear _)⟩

/-- Two requests of no bytes: both allocators return the same pointer twice. -/
theorem no_bytes_twice :
    (∃ g, (clients (Alloc.Initial fun _ => 4096) Alloc.alloc Alloc.dealloc).Reachable
      (g, [(4096, 0), (4096, 0)]) ∧ ¬ Alloc.Separate g [(4096, 0), (4096, 0)]) ∧
    ∃ g, (clients Ealloc.Initial (Ealloc.alloc fun k => 4096 * (k + 1))
      Ealloc.dealloc).Reachable (g, [(4096, 0), (4096, 0)]) ∧
      ¬ Ealloc.Separate g [(4096, 0), (4096, 0)] := by
  have hsize : InInt 0 := by simp [InInt]
  have hne : (4096 : ℤ) ≠ NULL := by simp [NULL]
  constructor
  · have h : ∃ g₁, Returns (Alloc.alloc 0) ⟨Page.fresh, 4096, 1⟩ 4096 g₁ ∧
        ∃ g₂, Returns (Alloc.alloc 0) g₁ 4096 g₂ ∧ g₂.mmaps = 1 := by decide +kernel
    obtain ⟨g₁, h₁, g₂, h₂, -⟩ := h
    have r₀ : (clients (Alloc.Initial fun _ => 4096) Alloc.alloc Alloc.dealloc).Reachable
        (⟨Page.fresh, 4096, 1⟩, []) :=
      .init ⟨Alloc.initial_iff.2 ⟨0, by simp [MAP_FAILED], rfl⟩, rfl⟩
    have r₁ := r₀.step (clients_alloc hsize hne h₁ [])
    refine ⟨g₂, r₁.step (clients_alloc hsize hne h₂ _), fun hsep => ?_⟩
    simpa using hsep.1
  · have h : ∃ g₁, Returns (Ealloc.alloc (fun k => 4096 * (k + 1)) 0) .init 4096 g₁ ∧
        ∃ g₂, Returns (Ealloc.alloc (fun k => 4096 * (k + 1)) 0) g₁ 4096 g₂ ∧ g₂.mmaps = 1 := by
      decide +kernel
    obtain ⟨g₁, h₁, g₂, h₂, -⟩ := h
    have r₀ : (clients Ealloc.Initial (Ealloc.alloc fun k => 4096 * (k + 1))
        Ealloc.dealloc).Reachable (.init, []) := .init ⟨Ealloc.initial_init, rfl⟩
    have r₁ := r₀.step (clients_alloc hsize hne h₁ [])
    refine ⟨g₂, r₁.step (clients_alloc hsize hne h₂ _), fun hsep => ?_⟩
    simpa using hsep.1

end Malloc

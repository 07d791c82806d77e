/-
  `ealloc.c`: an allocator of four pages, which it maps when it needs them, and the
  invariant of its arrays.
-/
import OSModules.Malloc.Calls

namespace Malloc.Ealloc

open Runs Prog Regions CInt Malloc

def MINALLOC : ℤ := 256

def BLOCKS : ℕ := 16

def PAGES : ℕ := 4

instance : NeZero PAGES := ⟨by decide⟩

/-- The globals of `ealloc.c`, and how often it has called `mmap`. -/
structure Globals where
  is_free : Fin PAGES → Fin BLOCKS → ℤ
  alloc_blocks_len : Fin PAGES → Fin BLOCKS → ℤ
  base_ptr : Fin PAGES → ℤ
  mmaps : ℕ

def Globals.page (g : Globals) (k : Fin PAGES) : Page BLOCKS := ⟨g.is_free k, g.alloc_blocks_len k⟩

def Globals.setPage (k : Fin PAGES) (p : Page BLOCKS) (g : Globals) : Globals where
  is_free := Function.update g.is_free k p.is_free
  alloc_blocks_len := Function.update g.alloc_blocks_len k p.alloc_blocks_len
  base_ptr := g.base_ptr
  mmaps := g.mmaps

def Globals.setBase (k : Fin PAGES) (b : ℤ) (g : Globals) : Globals where
  is_free := g.is_free
  alloc_blocks_len := g.alloc_blocks_len
  base_ptr := Function.update g.base_ptr k b
  mmaps := g.mmaps

def onPage {α : Type} (k : Fin PAGES) (x : Program Fault (Page BLOCKS) α) :
    Program Fault Globals α :=
  zoom (·.page k) (Globals.setPage k) x

def init_alloc : Program Fault Globals Unit := do
  (List.finRange PAGES).forM fun j => onPage j Page.markFree
  (List.finRange PAGES).forM fun j => onPage j Page.clearLens
  (List.finRange PAGES).forM fun i => modify (Globals.setBase i NULL)

def get_free_start_idx (page_number : Fin PAGES) (_req_len req_blocks : ℤ) :
    Program Fault Globals ℤ := do
  return Page.get_free_start_idx ((← get).is_free page_number) req_blocks

/-- `mmap k` is the result of the call of `mmap` number `k`. -/
def mapPage (mmap : ℕ → ℤ) (page : Fin PAGES) : Program Fault Globals Unit := do
  if (← get).base_ptr page = NULL then
    modify fun g => { g.setBase page (mmap g.mmaps) with mmaps := g.mmaps + 1 }

/-- The loop of `alloc`, over the pages that it has not tried yet. -/
def allocOn (mmap : ℕ → ℤ) (req_len req_blocks : ℤ) : List (Fin PAGES) → Program Fault Globals ℤ
  | [] => return NULL
  | page :: pages => do
    mapPage mmap page
    let free_start_idx ← get_free_start_idx page req_len req_blocks
    if free_start_idx ≠ -1 then
      onPage page (Page.take free_start_idx req_blocks)
      return (← get).base_ptr page + free_start_idx * MINALLOC
    else allocOn mmap req_len req_blocks pages

def alloc (mmap : ℕ → ℤ) (req_len : ℤ) : Program Fault Globals ℤ := do
  if req_len.tmod MINALLOC ≠ 0 then return NULL
  let req_blocks := req_len.tdiv MINALLOC
  allocOn mmap req_len req_blocks (List.finRange PAGES)

/-- The search of `dealloc`: `corresponding_page` and the last `idx`. -/
def findPage (base_ptr : Fin PAGES → ℤ) (ptr : ℤ) : List (Fin PAGES) → ℤ → ℤ × ℤ
  | [], idx => (-1, idx)
  | i :: pages, _ =>
    let idx := (int32 (ptr - base_ptr i)).tdiv MINALLOC
    if 0 ≤ idx ∧ idx ≤ BLOCKS - 1 then ((i : ℕ), idx) else findPage base_ptr ptr pages idx

def dealloc (ptr : ℤ) : Program Fault Globals Unit := do
  -- `idx` is not initialised, and there is a page to try
  let (corresponding_page, idx) := findPage (← get).base_ptr ptr (List.finRange PAGES) 0
  let page ← index PAGES corresponding_page .outOfBounds
  onPage page (Page.release idx)

/-- The states that `init_alloc` leaves, before any call of `mmap`. -/
def Initial (g : Globals) : Prop := ∃ g₀, g₀.mmaps = 0 ∧ Returns init_alloc g₀ () g

/-- What `mmap` returns when it succeeds for every page: addresses of pages that are not null, do
not overlap, and are less than 2 ^ 31 apart. -/
structure Layout (mmap : ℕ → ℤ) : Prop where
  aligned : ∀ k : Fin PAGES, (PAGESIZE : ℤ) ∣ mmap k
  pos : ∀ k : Fin PAGES, 0 < mmap k
  apart : ∀ j k : Fin PAGES, j ≠ k → mmap j + PAGESIZE ≤ mmap k ∨ mmap k + PAGESIZE ≤ mmap j
  near : ∀ j k : Fin PAGES, |mmap j - mmap k| < 2 ^ 31

/-- Requests of a positive multiple of `MINALLOC`; deallocations of live pointers. -/
def Proper (live : List (ℤ × ℤ)) : Call → Prop
  | .alloc req_len _ => 0 < req_len ∧ MINALLOC ∣ req_len
  | .dealloc ptr => ∃ x ∈ live, x.1 = ptr

/-- The allocator and, as a history variable, the regions its clients hold. -/
def system (mmap : ℕ → ℤ) : LTS (Globals × List (ℤ × ℤ)) Call :=
  ((calls Initial (alloc mmap) dealloc).history [] fun live _ => track live).guard
    fun s => Proper s.2

/-! ## The pages and their addresses -/

variable {mmap : ℕ → ℤ} {g : Globals} {h : Heap (Fin PAGES) BLOCKS} {E : Fault → Prop}

@[simp] theorem base_ptr_setPage (k : Fin PAGES) (p : Page BLOCKS) :
    (g.setPage k p).base_ptr = g.base_ptr := rfl

theorem page_setPage (k : Fin PAGES) (p : Page BLOCKS) :
    (g.setPage k p).page = Function.update g.page k p := by
  funext j
  by_cases hj : j = k
  · subst hj
    simp only [Globals.page, Globals.setPage, Function.update_self]
  · simp only [Globals.page, Globals.setPage, Function.update_of_ne hj]

/-- The address that page `k` gets. -/
abbrev base (mmap : ℕ → ℤ) (k : Fin PAGES) : ℤ := mmap k

theorem Layout.placed (hm : Layout mmap) : Placed (base mmap) MINALLOC BLOCKS :=
  ⟨by decide, fun j k hne => hm.apart j k hne⟩

/-- The first `mmaps` pages are mapped, in order, and the pages represent the heap. -/
structure Rep (mmap : ℕ → ℤ) (g : Globals) (h : Heap (Fin PAGES) BLOCKS) : Prop where
  base_ptr : ∀ k, g.base_ptr k = if (k : ℕ) < g.mmaps then base mmap k else NULL
  pages : Page.Rep g.page h
  mapped : ∀ r ∈ h.live, (r.arena : ℕ) < g.mmaps

theorem Layout.ne_null (hm : Layout mmap) (k : Fin PAGES) : mmap k ≠ NULL := (hm.pos k).ne'

theorem Rep.base_ptr_ne (hm : ∀ k : Fin PAGES, mmap k ≠ NULL) (hrep : Rep mmap g h) {k : Fin PAGES} :
    g.base_ptr k ≠ NULL ↔ (k : ℕ) < g.mmaps := by
  rw [hrep.base_ptr]
  split
  · next hlt => exact ⟨fun _ => hlt, fun _ => hm k⟩
  · next hge => exact ⟨fun hne => absurd rfl hne, fun hlt => absurd hlt hge⟩

theorem Rep.base_ptr_eq (hrep : Rep mmap g h) {k : Fin PAGES} (hk : (k : ℕ) < g.mmaps) :
    g.base_ptr k = base mmap k := by
  rw [hrep.base_ptr, if_pos hk]

/-! ## `alloc` -/

/-- A page that is next to be mapped is mapped. -/
theorem wp_mapPage (hm : ∀ k : Fin PAGES, mmap k ≠ NULL) (hrep : Rep mmap g h) {k : Fin PAGES}
    (hk : (k : ℕ) ≤ g.mmaps) : wp (mapPage mmap k) g E fun _ g' =>
      Rep mmap g' h ∧ (k : ℕ) < g'.mmaps := by
  rw [mapPage, wp_bind, wp_get, wp_ite]
  constructor
  · intro hnull
    have hge : ¬ (k : ℕ) < g.mmaps := fun hlt => (hrep.base_ptr_ne hm).2 hlt hnull
    have hkm : g.mmaps = k := by omega
    rw [wp_modify]
    refine ⟨⟨fun j => ?_, hrep.pages, fun r hr => ?_⟩, ?_⟩
    · simp only [Globals.setBase]
      by_cases hj : j = k
      · subst hj
        rw [Function.update_self, if_pos (by omega), hkm]
      · have hne : (j : ℕ) ≠ k := fun h => hj (Fin.ext h)
        rw [Function.update_of_ne hj, hrep.base_ptr]
        by_cases hlt : (j : ℕ) < g.mmaps
        · rw [if_pos hlt, if_pos (by omega)]
        · rw [if_neg hlt, if_neg (by omega)]
    · have hr' := hrep.mapped r hr
      simp only
      omega
    · simp only
      omega
  · intro hne
    exact ⟨hrep, (hrep.base_ptr_ne hm).1 hne⟩

/-- The loop of `alloc` tries the pages in order. -/
theorem page_eq_length {tried pages : List (Fin PAGES)} {page : Fin PAGES}
    (hsplit : tried ++ page :: pages = List.finRange PAGES) : (page : ℕ) = tried.length := by
  have hget : (List.finRange PAGES)[tried.length]? = some page := by
    rw [← hsplit, List.getElem?_append_right le_rfl, Nat.sub_self, List.getElem?_cons_zero]
  obtain ⟨hlt, hget⟩ := List.getElem?_eq_some_iff.1 hget
  rw [← hget, List.getElem_finRange]
  rfl

theorem wp_allocOn (hm : ∀ k : Fin PAGES, mmap k ≠ NULL) {n : ℤ} {b : ℕ} (hb : 0 < b) {pages : List (Fin PAGES)}
    (tried : List (Fin PAGES)) (hsplit : tried ++ pages = List.finRange PAGES)
    (hlen : tried.length ≤ g.mmaps) (hrep : Rep mmap g h) :
    wp (allocOn mmap n b pages) g E fun ret g' =>
      ∃ h', Rep mmap g' h' ∧ Serves (base mmap) MINALLOC h (.alloc (MINALLOC * b) ret) h' := by
  induction pages generalizing tried g with
  | nil => exact ⟨h, hrep, .refuse⟩
  | cons page pages ih =>
    -- the page is the one after those tried
    have hpage := page_eq_length hsplit
    rw [allocOn, wp_bind]
    refine (wp_mapPage hm hrep (by omega)).imp ?_
    rintro ⟨⟩ g₁ ⟨hrep₁, hlt⟩
    rw [wp_bind, get_free_start_idx, wp_bind, wp_get, wp_pure, wp_ite]
    constructor
    · intro hfound
      obtain ⟨i, hi, hin, hfree⟩ := Page.get_free_start_idx_free hfound
      have hin' : (i : ℕ) + b ≤ BLOCKS := by omega
      rw [hi, wp_bind, onPage, wp_zoom]
      refine (Page.Rep.wp_take hrep₁.pages page hb hin' hfree).imp ?_
      rintro ⟨⟩ p ⟨hr, hrep'⟩
      rw [wp_bind, wp_get, wp_pure, base_ptr_setPage, hrep₁.base_ptr_eq hlt,
        mul_comm (i : ℤ) MINALLOC]
      refine ⟨_, ⟨hrep₁.base_ptr, ?_, ?_⟩, .serve ⟨page, i, b⟩ hb hin' hr⟩
      · rwa [page_setPage]
      · intro r hr
        rcases List.mem_append.1 hr with hr | hr
        · exact hrep₁.mapped r hr
        · rw [List.mem_singleton.1 hr]
          exact hlt
    · intro _
      refine ih (tried ++ [page]) (by simpa using hsplit) ?_ hrep₁
      rw [List.length_append, List.length_singleton]
      omega

/-- A request for a positive multiple of `MINALLOC` is refused or served. -/
theorem wp_alloc (hm : ∀ k : Fin PAGES, mmap k ≠ NULL) (hrep : Rep mmap g h) {n : ℤ} (hn : 0 < n)
    (hd : MINALLOC ∣ n) : wp (alloc mmap n) g E fun ret g' =>
      ∃ h', Rep mmap g' h' ∧ Serves (base mmap) MINALLOC h (.alloc n ret) h' := by
  obtain ⟨b, rfl⟩ := hd
  have hb : 0 < b := by unfold MINALLOC at hn; omega
  lift b to ℕ using hb.le
  have hdiv : (MINALLOC * (b : ℤ)).tdiv MINALLOC = b := Int.mul_tdiv_cancel_left _ (by decide)
  rw [alloc, if_neg (by simp [Int.mul_tmod_right]), hdiv]
  exact wp_allocOn hm (by omega) [] rfl (Nat.zero_le _) hrep

/-! ## `dealloc` -/

/-- The index `dealloc` computes for another mapped page is out of range. -/
theorem Layout.out_of_range (hm : Layout mmap) {j k : Fin PAGES} (hjk : j ≠ k) (i : Fin BLOCKS) :
    ¬ (0 ≤ (int32 (base mmap k + MINALLOC * i - base mmap j)).tdiv MINALLOC ∧
      (int32 (base mmap k + MINALLOC * i - base mmap j)).tdiv MINALLOC ≤ BLOCKS - 1) := by
  obtain ⟨a, ha⟩ := hm.aligned j
  obtain ⟨c, hc⟩ := hm.aligned k
  have hap := hm.apart j k hjk
  obtain ⟨hlo, hhi⟩ := abs_lt.1 (hm.near k j)
  have hi : (i : ℕ) < 16 := i.2
  simp only [PAGESIZE, Nat.cast_ofNat] at ha hc hap
  have hdiff : base mmap k + MINALLOC * i - base mmap j = MINALLOC * (16 * c - 16 * a + i) := by
    simp only [base, MINALLOC]
    omega
  rw [hdiff, int32_eq (by unfold InInt MINALLOC; omega), Int.mul_tdiv_cancel_left _ (by decide)]
  simp only [BLOCKS]
  omega

/-- A live pointer is found on its page: no earlier page is taken for it. -/
theorem findPage_eq (hm : Layout mmap) (hrep : Rep mmap g h) {k : Fin PAGES}
    (hk : (k : ℕ) < g.mmaps) (i : Fin BLOCKS) {pages : List (Fin PAGES)} (hmem : k ∈ pages)
    (hsorted : pages.Pairwise (· < ·)) (idx : ℤ) :
    findPage g.base_ptr (base mmap k + MINALLOC * i) pages idx =
      (((k : ℕ) : ℤ), ((i : ℕ) : ℤ)) := by
  have hi : (i : ℕ) < 16 := i.2
  induction pages generalizing idx with
  | nil => exact absurd hmem List.not_mem_nil
  | cons j pages ih =>
    obtain ⟨hj, hsorted⟩ := List.pairwise_cons.1 hsorted
    rcases List.mem_cons.1 hmem with rfl | hmem
    · have hidx : (int32 (base mmap k + MINALLOC * i - g.base_ptr k)).tdiv MINALLOC = (i : ℕ) := by
        rw [hrep.base_ptr_eq hk, block_idx (by decide) (by decide)]
      rw [findPage]
      simp only [hidx]
      rw [if_pos ⟨by omega, by unfold BLOCKS; omega⟩]
    · have hjk := hj k hmem
      have hjm : (j : ℕ) < g.mmaps := lt_trans hjk hk
      rw [findPage]
      simp only [hrep.base_ptr_eq hjm]
      rw [if_neg (hm.out_of_range hjk.ne i)]
      exact ih hmem hsorted _

/-- A deallocation frees the region at the block that it finds. -/
theorem Rep.wp_dealloc (hrep : Rep mmap g h) {ptr : ℤ} {k : Fin PAGES} {i : Fin BLOCKS}
    (hfind : findPage g.base_ptr ptr (List.finRange PAGES) 0 = (((k : ℕ) : ℤ), ((i : ℕ) : ℤ))) :
    wp (dealloc ptr) g E fun _ g' => g'.base_ptr = g.base_ptr ∧ g'.mmaps = g.mmaps ∧
      Rep mmap g' (h.free k i) := by
  rw [dealloc, wp_bind, wp_get, hfind, wp_bind]
  refine wp_index k rfl ?_
  rw [onPage, wp_zoom]
  refine (Page.Rep.wp_release hrep.pages k i).imp ?_
  rintro ⟨⟩ p hrep'
  refine ⟨rfl, rfl, hrep.base_ptr, ?_, ?_⟩
  · rwa [page_setPage]
  · intro r hr
    exact hrep.mapped r (Heap.mem_free.1 hr).1

theorem wp_dealloc (hm : Layout mmap) (hrep : Rep mmap g h) {k : Fin PAGES}
    (hk : (k : ℕ) < g.mmaps) (i : Fin BLOCKS) :
    wp (dealloc (base mmap k + MINALLOC * i)) g E fun _ g' =>
      g'.base_ptr = g.base_ptr ∧ Rep mmap g' (h.free k i) := by
  have hfind := findPage_eq hm hrep hk i (List.mem_finRange k) (List.pairwise_lt_finRange PAGES) 0
  exact (hrep.wp_dealloc hfind).imp fun _ _ h => ⟨h.1, h.2.2⟩

/-! ## Runs -/

theorem wp_init_alloc : wp init_alloc g E fun _ g' =>
    g' = ⟨fun _ _ => 1, fun _ _ => 0, fun _ => NULL, g.mmaps⟩ := by
  rw [init_alloc, wp_bind]
  refine (wp_forM_all (J := fun g' : Globals => g'.mmaps = g.mmaps)
    (P := fun j g' => g'.is_free j = fun _ => 1) rfl ?_).imp ?_
  · intro j g₁ hJ
    rw [onPage, wp_zoom]
    refine Page.wp_markFree ⟨hJ, Function.update_self _ _ _, fun k hk => ?_⟩
    change Function.update g₁.is_free j _ k = _
    rw [Function.update_apply, hk, ite_self]
  rintro ⟨⟩ g₁ ⟨hm₁, hf₁⟩
  rw [wp_bind]
  refine (wp_forM_all (J := fun g' : Globals => g'.mmaps = g.mmaps ∧ ∀ j, g'.is_free j = fun _ => 1)
    (P := fun j g' => g'.alloc_blocks_len j = fun _ => 0)
    ⟨hm₁, fun j => hf₁ j (List.mem_finRange j)⟩ ?_).imp ?_
  · rintro j g₂ ⟨hJ, hf⟩
    rw [onPage, wp_zoom]
    refine Page.wp_clearLens ⟨⟨hJ, fun k => ?_⟩, Function.update_self _ _ _, fun k hk => ?_⟩
    · change Function.update g₂.is_free j (g₂.is_free j) k = _
      rw [Function.update_eq_self, hf k]
    · change Function.update g₂.alloc_blocks_len j _ k = _
      rw [Function.update_apply, hk, ite_self]
  rintro ⟨⟩ g₂ ⟨⟨hm₂, hf₂⟩, hl₂⟩
  refine (wp_forM_all (J := fun g' : Globals => g'.mmaps = g.mmaps ∧ g'.is_free = g₂.is_free ∧
    g'.alloc_blocks_len = g₂.alloc_blocks_len) (P := fun j g' => g'.base_ptr j = NULL)
    ⟨hm₂, rfl, rfl⟩ ?_).imp ?_
  · rintro j g₃ hJ
    refine ⟨hJ, Function.update_self _ _ _, fun k hk => ?_⟩
    change Function.update g₃.base_ptr j _ k = _
    rw [Function.update_apply, hk, ite_self]
  rintro ⟨⟩ g₃ ⟨⟨hm₃, hf₃, hl₃⟩, hb₃⟩
  cases g₃
  congr
  · exact hf₃.trans (funext hf₂)
  · exact hl₃.trans (funext fun j => hl₂ j (List.mem_finRange j))
  · exact funext fun j => hb₃ j (List.mem_finRange j)

theorem initial_iff : Initial g ↔ g = ⟨fun _ _ => 1, fun _ _ => 0, fun _ => NULL, 0⟩ := by
  constructor
  · rintro ⟨g₀, hg₀, hret⟩
    have hg := (wp_init_alloc (E := fun _ => True)).returns hret
    rwa [hg₀] at hg
  · rintro rfl
    obtain ⟨⟨⟩, g', hret, hg'⟩ :=
      (wp_init_alloc (g := ⟨fun _ _ => 1, fun _ _ => 0, fun _ => NULL, 0⟩)).total
    rw [hg'] at hret
    exact ⟨_, rfl, hret⟩

/-- The globals represent a heap, whose regions are those that the clients hold. -/
structure Inv (mmap : ℕ → ℤ) (g : Globals) (live : List (ℤ × ℤ)) (h : Heap (Fin PAGES) BLOCKS) :
    Prop where
  rep : Rep mmap g h
  live_eq : live = h.live.map (Region.bytes (base mmap) MINALLOC)

theorem rep_of_initial (hg : Initial g) : Rep mmap g Heap.empty := by
  rw [initial_iff.1 hg]
  refine ⟨fun k => ?_, Page.Rep.fresh, fun r hr => ?_⟩
  · rw [if_neg (Nat.not_lt_zero _)]
  · exact absurd hr List.not_mem_nil

/-- A live pointer is that of a block of a mapped page, at which a region of the heap starts. -/
theorem Inv.exists_block {live : List (ℤ × ℤ)} (hinv : Inv mmap g live h) {x : ℤ × ℤ}
    (hx : x ∈ live) : ∃ r ∈ h.live, ∃ i : Fin BLOCKS, r.start = i ∧
      x = (base mmap r.arena + MINALLOC * i, MINALLOC * r.len) := by
  rw [hinv.live_eq] at hx
  obtain ⟨r, hr, rfl⟩ := List.mem_map.1 hx
  exact ⟨r, hr, ⟨r.start, h.start_lt hr⟩, rfl, rfl⟩

/-- A proper call refines a step of the abstract allocator. -/
theorem Inv.step (hm : Layout mmap) {live : List (ℤ × ℤ)} (hinv : Inv mmap g live h) {c : Call}
    (hc : Proper live c) {g' : Globals} (hs : (calls Initial (alloc mmap) dealloc).step g c g') :
    ∃ h', Rep mmap g' h' ∧ Serves (base mmap) MINALLOC h c h' := by
  cases c with
  | alloc n ret => exact (wp_alloc (E := fun _ => True) hm.ne_null hinv.rep hc.1 hc.2).returns hs
  | dealloc ptr =>
    obtain ⟨x, hx, rfl⟩ := hc
    obtain ⟨r, hr, i, -, rfl⟩ := hinv.exists_block hx
    obtain ⟨-, hrep⟩ :=
      (wp_dealloc (E := fun _ => True) hm hinv.rep (hinv.rep.mapped r hr) i).returns hs
    exact ⟨_, hrep, .dealloc r.arena i⟩

theorem inv_of_run (hm : Layout mmap) {tr : List Call} {live : List (ℤ × ℤ)}
    (hrun : (system mmap).Run tr (g, live)) : ∃ h, Inv mmap g live h := by
  have hstep : ∀ g h c g', Rep mmap g h →
      Proper (h.live.map (Region.bytes (base mmap) MINALLOC)) c →
      (calls Initial (alloc mmap) dealloc).step g c g' →
      ∃ h', Rep mmap g' h' ∧ base mmap = base mmap ∧ Serves (base mmap) MINALLOC h c h' := by
    intro g h c g' hrep hc hs
    obtain ⟨h', hrep', hserves⟩ := Inv.step hm ⟨hrep, rfl⟩ hc hs
    exact ⟨h', hrep', rfl, hserves⟩
  obtain ⟨h, hrep, hlive⟩ := live_of_run (fun _ => base mmap) (Rep mmap)
    (fun _ _ _ => ⟨hm.placed, hm.pos⟩) (fun g hg => rep_of_initial hg) hstep hrun
  exact ⟨h, hrep, hlive⟩

/-! ## Main result -/

/-- In every state that proper calls lead to, the live regions are disjoint, each of them lies in a
mapped page, and the arrays record them exactly. A deallocation of a live pointer finds the page
and the block where its region starts, and frees exactly that region. -/
theorem live_regions_pages (hm : Layout mmap) {tr : List Call} {live : List (ℤ × ℤ)}
    (hrun : (system mmap).Run tr (g, live)) :
    live.Pairwise Disjoint ∧
    (∀ x ∈ live, ∃ k, g.base_ptr k ≠ NULL ∧
      g.base_ptr k ≤ x.1 ∧ x.1 + x.2 ≤ g.base_ptr k + PAGESIZE) ∧
    (∀ k, g.base_ptr k ≠ NULL → (g.page k).Records (g.base_ptr k) MINALLOC live) ∧
    (∀ k, g.base_ptr k = NULL → g.page k = Page.fresh) ∧
    (∀ n, 0 < n → MINALLOC ∣ n → ∃ ret g', Returns (alloc mmap n) g ret g') ∧
    ∀ x ∈ live, ∃ (k : Fin PAGES) (i : Fin BLOCKS),
      g.base_ptr k ≠ NULL ∧ x.1 = g.base_ptr k + MINALLOC * i ∧
      findPage g.base_ptr x.1 (List.finRange PAGES) 0 = (((k : ℕ) : ℤ), ((i : ℕ) : ℤ)) ∧
      ∃ g', Returns (dealloc x.1) g () g' ∧ g'.base_ptr = g.base_ptr ∧ ∀ q j,
        g'.is_free q j = (if q = k ∧ i ≤ j ∧ MINALLOC * j < MINALLOC * i + x.2 then 1
          else g.is_free q j) ∧
        g'.alloc_blocks_len q j = if q = k ∧ j = i then 0 else g.alloc_blocks_len q j := by
  obtain ⟨h, hinv⟩ := inv_of_run hm hrun
  have hrep := hinv.rep
  refine ⟨?_, ?_, ?_, ?_, ?_, ?_⟩
  · rw [hinv.live_eq]
    exact hm.placed.disjoint
  · intro x hx
    obtain ⟨r, hr, i, hi, rfl⟩ := hinv.exists_block hx
    have hlt := hrep.mapped r hr
    refine ⟨r.arena, (hrep.base_ptr_ne hm.ne_null).2 hlt, ?_⟩
    rw [hrep.base_ptr_eq hlt, ← hi]
    exact bytes_inside (by decide) hr
  · intro k hk
    rw [hrep.base_ptr_eq ((hrep.base_ptr_ne hm.ne_null).1 hk), hinv.live_eq]
    exact hrep.pages.records hm.placed k
  · intro k hk
    have hno : ∀ r ∈ h.live, r.arena ≠ k := by
      rintro r hr rfl
      exact (hrep.base_ptr_ne hm.ne_null).2 (hrep.mapped r hr) hk
    exact hrep.pages.eq_fresh hno
  · intro n hn hd
    obtain ⟨ret, g', hret, -⟩ := (wp_alloc hm.ne_null hrep hn hd).total
    exact ⟨ret, g', hret⟩
  · intro x hx
    obtain ⟨r, hr, i, hi, rfl⟩ := hinv.exists_block hx
    have hlt := hrep.mapped r hr
    obtain ⟨⟨⟩, g', hret, hb, hrep'⟩ := (wp_dealloc hm hrep hlt i).total
    refine ⟨r.arena, i, (hrep.base_ptr_ne hm.ne_null).2 hlt, ?_, ?_, g', hret, hb, ?_⟩
    · rw [hrep.base_ptr_eq hlt]
    · exact findPage_eq hm hrep hlt i (List.mem_finRange _) (List.pairwise_lt_finRange PAGES) 0
    · intro q j
      have hlen : h.lenAt r.arena i = r.len := by rw [← hi]; exact h.lenAt_start hr
      have hfree := hrep.pages.free_eq hrep'.pages q j
      rw [hlen] at hfree
      refine ⟨hfree.1.trans ?_, hfree.2⟩
      congr 1
      simp only [MINALLOC, eq_iff_iff]
      omega

/-- Four pages in a row. -/
theorem layout_row : Layout fun k => 4096 * (k + 1) where
  aligned k := ⟨(k : ℕ) + 1, by simp [PAGESIZE]⟩
  pos k := by omega
  apart j k hne := by
    have hne' : (j : ℕ) ≠ k := fun h => hne (Fin.ext h)
    simp only [PAGESIZE]
    omega
  near j k := by
    have hj : (j : ℕ) < 4 := j.2
    have hk : (k : ℕ) < 4 := k.2
    rw [abs_lt]
    omega

/-- A request that fills the first page, and a deallocation on the second. -/
theorem live_regions_pages_second : ∃ g g' : Globals, Returns (dealloc 8192) g () g' ∧
    g.base_ptr 1 ≠ NULL ∧ (g.page 1).Records (g.base_ptr 1) MINALLOC [(4096, 4096), (8192, 256)] := by
  have h : ∃ g₁, Returns (alloc (fun k => 4096 * (k + 1)) 4096)
      ⟨fun _ _ => 1, fun _ _ => 0, fun _ => NULL, 0⟩ 4096 g₁ ∧
      ∃ g₂, Returns (alloc (fun k => 4096 * (k + 1)) 256) g₁ 8192 g₂ ∧ g₂.base_ptr 1 ≠ NULL := by
    decide +kernel
  obtain ⟨g₁, h₁, g₂, h₂, hne⟩ := h
  have r₀ : (system fun k => 4096 * (k + 1)).Run []
      (⟨fun _ _ => 1, fun _ _ => 0, fun _ => NULL, 0⟩, []) := .init ⟨initial_iff.2 rfl, rfl⟩
  have s₁ : (system fun k => 4096 * (k + 1)).step
      (⟨fun _ _ => 1, fun _ _ => 0, fun _ => NULL, 0⟩, []) (.alloc 4096 4096)
      (g₁, [(4096, 4096)]) := ⟨⟨by decide, by decide⟩, h₁, rfl⟩
  have s₂ : (system fun k => 4096 * (k + 1)).step (g₁, [(4096, 4096)]) (.alloc 256 8192)
      (g₂, [(4096, 4096), (8192, 256)]) := ⟨⟨by decide, by decide⟩, h₂, rfl⟩
  obtain ⟨-, -, hrec, -, -, hfree⟩ := live_regions_pages layout_row ((r₀.step s₁).step s₂)
  obtain ⟨k, i, -, -, -, g', hg', -⟩ := hfree (8192, 256) (by simp)
  exact ⟨g₂, g', hg', hne, hrec 1 hne⟩

end Malloc.Ealloc

/-
  `alloc.c`: an allocator of one page, and the invariant of its two arrays.
-/
import OSModules.Malloc.Calls

namespace Malloc.Alloc

open Runs Prog Regions CInt Malloc

def MINALLOC : ℤ := 8

def BLOCKS : ℕ := 512

/-- The globals of `alloc.c`, and how often it has called `mmap`. -/
structure Globals extends Page BLOCKS where
  base_ptr : ℤ
  mmaps : ℕ

def onPage {α : Type} (x : Program Fault (Page BLOCKS) α) : Program Fault Globals α :=
  zoom Globals.toPage (fun p g => { g with toPage := p }) x

/-- `mmap k` is the result of the call of `mmap` number `k`. -/
def init_alloc (mmap : ℕ → ℤ) : Program Fault Globals ℤ := do
  modify fun g => { g with base_ptr := mmap g.mmaps, mmaps := g.mmaps + 1 }
  if (← get).base_ptr = MAP_FAILED then return 1
  onPage Page.markFree
  onPage Page.clearLens
  return 0

def alloc (req_len : ℤ) : Program Fault Globals ℤ := do
  if req_len.tmod MINALLOC ≠ 0 then return NULL
  let req_blocks := req_len.tdiv MINALLOC
  let free_start_idx := Page.get_free_start_idx (← get).is_free req_blocks
  if free_start_idx = -1 then return NULL
  onPage (Page.take free_start_idx req_blocks)
  return (← get).base_ptr + free_start_idx * MINALLOC

def dealloc (ptr : ℤ) : Program Fault Globals Unit := do
  let idx := (int32 (ptr - (← get).base_ptr)).tdiv MINALLOC
  onPage (Page.release idx)

/-- The states `init_alloc` leaves when it succeeds. -/
def Initial (mmap : ℕ → ℤ) (g : Globals) : Prop := ∃ g₀, Returns (init_alloc mmap) g₀ 0 g

/-- `mmap` fails or returns an address that is not null. -/
def MmapOk (mmap : ℕ → ℤ) : Prop := ∀ k, mmap k = MAP_FAILED ∨ 0 < mmap k

/-- A pointer into the page, aligned to `MINALLOC`. -/
def IsBlock (g : Globals) (ptr : ℤ) : Prop :=
  g.base_ptr ≤ ptr ∧ ptr < g.base_ptr + PAGESIZE ∧ MINALLOC ∣ ptr - g.base_ptr

/-- Requests of a positive multiple of `MINALLOC`; deallocations of any block of the page. -/
def Aligned (g : Globals) : Call → Prop
  | .alloc req_len _ => 0 < req_len ∧ MINALLOC ∣ req_len
  | .dealloc ptr => IsBlock g ptr

/-- The allocator and, as a history variable, the regions its clients hold. -/
def system (mmap : ℕ → ℤ) : LTS (Globals × List (ℤ × ℤ)) Call :=
  ((calls (Initial mmap) alloc dealloc).history [] fun live _ => track live).guard
    fun s => Aligned s.1

/-! ## One call -/

variable {g : Globals} {h : Heap Unit BLOCKS} {E : Fault → Prop}

theorem IsBlock.exists_block {ptr : ℤ} (hptr : IsBlock g ptr) :
    ∃ i : Fin BLOCKS, ptr = g.base_ptr + MINALLOC * i := by
  obtain ⟨hlo, hhi, i, hi⟩ := hptr
  unfold MINALLOC at hi ⊢
  unfold PAGESIZE at hhi
  lift i to ℕ using by omega
  exact ⟨⟨i, by unfold BLOCKS; omega⟩, by simp only; omega⟩

/-- The globals represent the heap. -/
def Rep (g : Globals) (h : Heap Unit BLOCKS) : Prop := Page.Rep (fun _ => g.toPage) h

theorem placed (b : ℤ) : Placed (fun _ : Unit => b) MINALLOC BLOCKS :=
  ⟨by decide, fun k k' hne => absurd (Subsingleton.elim k k') hne⟩

theorem rep_update {p : Page BLOCKS}
    (hrep : Page.Rep (Function.update (fun _ => g.toPage) () p) h) :
    Rep { g with toPage := p } h := by
  have : Function.update (fun _ => g.toPage) () p = fun _ => p := by
    funext k; exact Function.update_self _ _ _
  rwa [this] at hrep

theorem wp_init_alloc (mmap : ℕ → ℤ) : wp (init_alloc mmap) g E fun ret g' =>
    (mmap g.mmaps = MAP_FAILED → ret = 1) ∧
      (mmap g.mmaps ≠ MAP_FAILED → ret = 0 ∧ g' = ⟨Page.fresh, mmap g.mmaps, g.mmaps + 1⟩) := by
  rw [init_alloc, wp_bind, wp_modify, wp_bind, wp_get, wp_ite]
  constructor
  · intro hfail
    exact ⟨fun _ => rfl, fun hne => absurd hfail hne⟩
  · intro hne
    rw [wp_bind, onPage, wp_zoom]
    refine Page.wp_markFree ?_
    rw [wp_bind, onPage, wp_zoom]
    exact Page.wp_clearLens ⟨fun hfail => absurd hfail hne, fun _ => ⟨rfl, rfl⟩⟩

theorem initial_iff {mmap : ℕ → ℤ} :
    Initial mmap g ↔ ∃ k, mmap k ≠ MAP_FAILED ∧ g = ⟨Page.fresh, mmap k, k + 1⟩ := by
  constructor
  · rintro ⟨g₀, hg₀⟩
    obtain ⟨hfail, hok⟩ := (wp_init_alloc (E := fun _ => True) mmap).returns hg₀
    have hne : mmap g₀.mmaps ≠ MAP_FAILED := fun h => absurd (hfail h) (by decide)
    exact ⟨g₀.mmaps, hne, (hok hne).2⟩
  · rintro ⟨k, hne, rfl⟩
    obtain ⟨ret, g', hret, -, hok⟩ := (wp_init_alloc (g := ⟨Page.fresh, 0, k⟩) mmap).total
    obtain ⟨rfl, rfl⟩ := hok hne
    exact ⟨_, hret⟩

/-- A request for a positive multiple of `MINALLOC` is refused or served. -/
theorem wp_alloc (hrep : Rep g h) {n : ℤ} (hn : 0 < n) (hd : MINALLOC ∣ n) :
    wp (alloc n) g E fun ret g' => ∃ p h', g' = { g with toPage := p } ∧
      Rep g' h' ∧ Serves (fun _ => g.base_ptr) MINALLOC h (.alloc n ret) h' := by
  obtain ⟨b, rfl⟩ := hd
  have hb : 0 < b := by unfold MINALLOC at hn; omega
  lift b to ℕ using hb.le
  have hdiv : (MINALLOC * (b : ℤ)).tdiv MINALLOC = b := Int.mul_tdiv_cancel_left _ (by decide)
  rw [alloc, if_neg (by simp [Int.mul_tmod_right])]
  simp only [wp_bind, wp_pure, wp_get, wp_ite, hdiv]
  constructor
  · intro _
    exact ⟨g.toPage, h, rfl, hrep, .refuse⟩
  · intro hfound
    obtain ⟨i, hi, hin, hfree⟩ := Page.get_free_start_idx_free hfound
    have hb' : 0 < b := by omega
    have hin' : (i : ℕ) + b ≤ BLOCKS := by omega
    rw [hi, onPage, wp_zoom]
    refine (Page.Rep.wp_take hrep () hb' hin' hfree).imp fun _ p => ?_
    rintro ⟨hr, hrep'⟩
    refine ⟨p, _, rfl, rep_update hrep', ?_⟩
    rw [mul_comm (i : ℤ) MINALLOC]
    exact .serve ⟨(), i, b⟩ hb' hin' hr

/-- A deallocation at a block finds the block. -/
theorem wp_dealloc (hrep : Rep g h) (i : Fin BLOCKS) :
    wp (dealloc (g.base_ptr + MINALLOC * i)) g E fun _ g' => ∃ p, g' = { g with toPage := p } ∧
      Rep g' (h.free () i) := by
  rw [dealloc, wp_bind, wp_get, onPage, wp_zoom, block_idx (by decide) (by decide)]
  refine (Page.Rep.wp_release hrep () i).imp fun _ p hrep' => ?_
  exact ⟨p, rfl, rep_update hrep'⟩

/-! ## Runs -/

theorem rep_of_initial {mmap : ℕ → ℤ} (hm : MmapOk mmap) (hg : Initial mmap g) :
    0 < g.base_ptr ∧ Rep g Heap.empty := by
  obtain ⟨k, hne, rfl⟩ := initial_iff.1 hg
  refine ⟨?_, Page.Rep.fresh⟩
  rcases hm k with h | h
  · exact absurd h hne
  · exact h

/-- An aligned call refines a step of the abstract allocator. -/
theorem Rep.step (hrep : Rep g h) {init : Globals → Prop} {c : Call} (hc : Aligned g c)
    {g' : Globals} (hs : (calls init alloc dealloc).step g c g') :
    ∃ p h', g' = { g with toPage := p } ∧ Rep g' h' ∧
      Serves (fun _ => g.base_ptr) MINALLOC h c h' := by
  cases c with
  | alloc n ret => exact (wp_alloc (E := fun _ => True) hrep hc.1 hc.2).returns hs
  | dealloc ptr =>
    obtain ⟨i, rfl⟩ := hc.exists_block
    obtain ⟨p, hg', hrep⟩ := (wp_dealloc (E := fun _ => True) hrep i).returns hs
    exact ⟨p, _, hg', hrep, .dealloc () i⟩

/-- The globals represent a heap, whose regions are those that the clients hold. -/
structure Inv (g : Globals) (live : List (ℤ × ℤ)) (h : Heap Unit BLOCKS) : Prop where
  rep : Rep g h
  live_eq : live = h.live.map (Region.bytes (fun _ => g.base_ptr) MINALLOC)

theorem inv_of_run {mmap : ℕ → ℤ} (hm : MmapOk mmap) {tr : List Call} {live : List (ℤ × ℤ)}
    (hrun : (system mmap).Run tr (g, live)) : ∃ h, Inv g live h := by
  have hstep : ∀ g h c g', (0 < g.base_ptr ∧ Rep g h) → Aligned g c →
      (calls (Initial mmap) alloc dealloc).step g c g' →
      ∃ h', (0 < g'.base_ptr ∧ Rep g' h') ∧ (fun _ : Unit => g'.base_ptr) = (fun _ => g.base_ptr) ∧
        Serves (fun _ => g.base_ptr) MINALLOC h c h' := by
    rintro g h c g' ⟨hbase, hrep⟩ hc hs
    obtain ⟨p, h', rfl, hrep', hserves⟩ := hrep.step hc hs
    exact ⟨h', ⟨hbase, hrep'⟩, rfl, hserves⟩
  obtain ⟨h, ⟨-, hrep⟩, hlive⟩ := live_of_run (fun g _ => g.base_ptr) _
    (fun g h hgh => ⟨placed _, fun _ => hgh.1⟩) (fun g hg => rep_of_initial hm hg) hstep hrun
  exact ⟨h, hrep, hlive⟩

/-! ## Deallocations in a row -/

/-- A deallocation removes the region that starts at the pointer, if one does. -/
theorem Inv.wp_dealloc {live : List (ℤ × ℤ)} (hinv : Inv g live h) {ptr : ℤ}
    (hptr : IsBlock g ptr) : wp (dealloc ptr) g E fun _ g' => ∃ p h', g' = { g with toPage := p } ∧
      Inv g' (live.filter fun x => x.1 ≠ ptr) h' := by
  obtain ⟨i, rfl⟩ := hptr.exists_block
  refine (Alloc.wp_dealloc hinv.rep i).imp ?_
  rintro ⟨⟩ g' ⟨p, rfl, hrep⟩
  refine ⟨p, _, rfl, hrep, ?_⟩
  rw [hinv.live_eq, (placed _).map_free i.2]

/-- Deallocations in a row remove the regions that start at the pointers. -/
theorem Inv.wp_forM {ptrs : List ℤ} (hptrs : ∀ p ∈ ptrs, IsBlock g p) {live : List (ℤ × ℤ)}
    (hinv : Inv g live h) : wp (ptrs.forM dealloc) g E fun _ g' => ∃ p h',
      g' = { g with toPage := p } ∧ Inv g' (live.filter fun x => x.1 ∉ ptrs) h' := by
  induction ptrs generalizing g live h with
  | nil => exact ⟨g.toPage, h, rfl, by simpa using hinv⟩
  | cons ptr ptrs ih =>
    change wp (dealloc ptr >>= fun _ => ptrs.forM dealloc) g E _
    rw [wp_bind]
    refine (hinv.wp_dealloc (hptrs ptr (by simp))).imp ?_
    rintro ⟨⟩ g' ⟨p, h', rfl, hinv'⟩
    refine (ih (g := { g with toPage := p }) (fun q hq => hptrs q (by simp [hq])) hinv').imp ?_
    rintro ⟨⟩ g'' ⟨p', h'', rfl, hinv''⟩
    refine ⟨p', h'', rfl, ?_⟩
    rw [List.filter_filter] at hinv''
    convert hinv'' using 3
    simp [not_or, Bool.and_comm]

/-- The arrays of a state whose clients hold the same regions are the same. -/
theorem Inv.unique {g' : Globals} {h' : Heap Unit BLOCKS} {live : List (ℤ × ℤ)}
    (hinv : Inv g live h) (hinv' : Inv g' live h') (hb : g'.base_ptr = g.base_ptr) :
    g.toPage = g'.toPage := by
  have hlive : h.live = h'.live := by
    have hmap := hinv.live_eq.symm.trans hinv'.live_eq
    rw [hb] at hmap
    refine (List.map_injective_iff.2 ?_) hmap
    rintro ⟨_, s, l⟩ ⟨_, s', l'⟩ heq
    simp only [Region.bytes, MINALLOC, Prod.mk.injEq] at heq
    obtain ⟨rfl, rfl⟩ : s = s' ∧ l = l' := by omega
    rfl
  exact congrFun (hinv.rep.unique hinv'.rep hlive) ()

/-! ## Main result -/

/-- In every state that aligned calls lead to, the live regions lie in the page and are disjoint,
and the arrays record them exactly. So a deallocation of a pointer at which no live region starts
changes nothing, and deallocations of all live regions restore the arrays of `init_alloc`. -/
theorem live_regions {mmap : ℕ → ℤ} (hm : MmapOk mmap) {tr : List Call} {live : List (ℤ × ℤ)}
    (hrun : (system mmap).Run tr (g, live)) :
    (∀ x ∈ live, g.base_ptr ≤ x.1 ∧ x.1 + x.2 ≤ g.base_ptr + PAGESIZE) ∧
    live.Pairwise Disjoint ∧
    g.toPage.Records g.base_ptr MINALLOC live ∧
    (∀ n, 0 < n → MINALLOC ∣ n → ∃ ret g', Returns (alloc n) g ret g') ∧
    (∀ ptr, IsBlock g ptr → ∃ g', Returns (dealloc ptr) g () g') ∧
    (∀ ptr, IsBlock g ptr → (∀ x ∈ live, x.1 ≠ ptr) → Returns (dealloc ptr) g () g) ∧
    ∀ ptrs : List ℤ, (∀ p ∈ ptrs, IsBlock g p) → (∀ x ∈ live, x.1 ∈ ptrs) →
      ∃ g', Returns (ptrs.forM dealloc) g () g' ∧
        ∀ g₀, Initial mmap g₀ → g'.toPage = g₀.toPage := by
  obtain ⟨h, hinv⟩ := inv_of_run hm hrun
  refine ⟨?_, ?_, ?_, ?_, ?_, ?_, ?_⟩
  · intro x hx
    rw [hinv.live_eq] at hx
    obtain ⟨r, hr, rfl⟩ := List.mem_map.1 hx
    exact bytes_inside (by decide) hr
  · rw [hinv.live_eq]
    exact (placed g.base_ptr).disjoint
  · rw [hinv.live_eq]
    exact Page.Rep.records (placed g.base_ptr) hinv.rep ()
  · intro n hn hd
    obtain ⟨ret, g', hret, -⟩ := (wp_alloc hinv.rep hn hd).total
    exact ⟨ret, g', hret⟩
  · intro ptr hptr
    obtain ⟨⟨⟩, g', hret, -⟩ := (hinv.wp_dealloc hptr).total
    exact ⟨g', hret⟩
  · intro ptr hptr hno
    obtain ⟨⟨⟩, g', hret, p, h', rfl, hinv'⟩ := (hinv.wp_dealloc hptr).total
    rw [List.filter_eq_self.2 fun x hx => decide_eq_true (hno x hx)] at hinv'
    have hp : g.toPage = p := hinv.unique hinv' rfl
    rwa [← hp] at hret
  · intro ptrs hptrs hall
    obtain ⟨⟨⟩, g', hret, p, h', rfl, hinv'⟩ := (hinv.wp_forM hptrs).total
    refine ⟨_, hret, fun g₀ hg₀ => ?_⟩
    have hnil : (live.filter fun x => x.1 ∉ ptrs) = [] :=
      List.filter_eq_nil_iff.2 fun x hx => by simpa using hall x hx
    rw [hnil] at hinv'
    have hrep₀ := (rep_of_initial hm hg₀).2
    have hlive : h'.live = [] := List.map_eq_nil_iff.1 hinv'.live_eq.symm
    exact congrFun (hinv'.rep.unique hrep₀ hlive) ()

/-- A request for two blocks, and a deallocation inside of its region. -/
theorem live_regions_interior : ∃ g : Globals, Returns (dealloc 4104) g () g ∧
    g.toPage.Records g.base_ptr MINALLOC [(4096, 16)] := by
  have h : ∃ g, Returns (alloc 16) ⟨Page.fresh, 4096, 1⟩ 4096 g ∧ g.base_ptr = 4096 := by
    decide +kernel
  obtain ⟨g, hg, hb⟩ := h
  have hm : MmapOk fun _ => 4096 := fun _ => Or.inr (show (0 : ℤ) < 4096 by decide)
  have r₀ : (system fun _ => 4096).Run [] (⟨Page.fresh, 4096, 1⟩, []) :=
    .init ⟨initial_iff.2 ⟨0, by decide, rfl⟩, rfl⟩
  have h₁ : (system fun _ => 4096).step (⟨Page.fresh, 4096, 1⟩, []) (.alloc 16 4096)
      (g, [(4096, 16)]) := ⟨⟨by decide, by decide⟩, hg, rfl⟩
  have r₁ := r₀.step h₁
  obtain ⟨-, -, hrec, -, -, hno, -⟩ := live_regions hm r₁
  refine ⟨g, hno 4104 ?_ (by decide), hrec⟩
  rw [IsBlock, hb]
  decide

end Malloc.Alloc

/-
  The calls of an allocator, the regions its clients hold, and the abstract allocator:
  a heap of live regions.
-/
import OSModules.Lib.CInt
import OSModules.Lib.Runs
import OSModules.Malloc.Page

namespace Malloc

open Runs Prog Regions CInt

/-- A call and, for `alloc`, the pointer it returned. -/
inductive Call
  | alloc (req_len ret : ℤ)
  | dealloc (ptr : ℤ)
  deriving DecidableEq, Repr

/-- An allocator as a transition system: the calls that return. -/
def calls {σ : Type} (init : σ → Prop) (alloc : ℤ → Program Fault σ ℤ)
    (dealloc : ℤ → Program Fault σ Unit) : LTS σ Call where
  init := init
  step s c s' := match c with
    | .alloc req_len ret => Returns (alloc req_len) s ret s'
    | .dealloc ptr => Returns (dealloc ptr) s () s'

/-- The regions, as address and size, that were returned and not yet deallocated by their start
pointer. -/
def track (live : List (ℤ × ℤ)) : Call → List (ℤ × ℤ)
  | .alloc req_len ret => if ret = NULL then live else live ++ [(ret, req_len)]
  | .dealloc ptr => live.filter fun x => x.1 ≠ ptr

/-- As `track`, but with an entry for each call of `alloc`: pointers may repeat. -/
def hold (live : List (ℤ × ℤ)) : Call → List (ℤ × ℤ)
  | .alloc req_len ret => if ret = NULL then live else live ++ [(ret, req_len)]
  | .dealloc ptr => live.eraseP fun x => x.1 = ptr

/-- Requests of any size; deallocations of live pointers. -/
def AnySize (live : List (ℤ × ℤ)) : Call → Prop
  | .alloc req_len _ => InInt req_len
  | .dealloc ptr => ∃ x ∈ live, x.1 = ptr

/-- An allocator and, as a history variable, what its clients hold. -/
def clients {σ : Type} (init : σ → Prop) (alloc : ℤ → Program Fault σ ℤ)
    (dealloc : ℤ → Program Fault σ Unit) : LTS (σ × List (ℤ × ℤ)) Call :=
  ((calls init alloc dealloc).history [] fun live _ => hold live).guard fun s => AnySize s.2

/-- A request that is served, as a step of the clients. -/
theorem clients_alloc {σ : Type} {init : σ → Prop} {alloc : ℤ → Program Fault σ ℤ}
    {dealloc : ℤ → Program Fault σ Unit} {s s' : σ} {n ret : ℤ} (hn : InInt n) (hret : ret ≠ NULL)
    (h : Returns (alloc n) s ret s') (live : List (ℤ × ℤ)) :
    (clients init alloc dealloc).step (s, live) (.alloc n ret) (s', live ++ [(ret, n)]) :=
  ⟨hn, h, by simp [hold, hret]⟩

/-- What is held after a call was held before it, or returned by it. -/
theorem mem_hold {live : List (ℤ × ℤ)} {c : Call} {x : ℤ × ℤ} (hx : x ∈ hold live c) :
    x ∈ live ∨ x.1 ≠ NULL ∧ c = .alloc x.2 x.1 := by
  cases c with
  | alloc n ret =>
    rw [hold] at hx
    split at hx
    · exact Or.inl hx
    · next hne =>
      rcases List.mem_append.1 hx with hx | hx
      · exact Or.inl hx
      · rw [List.mem_singleton.1 hx]
        exact Or.inr ⟨hne, rfl⟩
  | dealloc ptr => exact Or.inl (List.mem_of_mem_eraseP hx)

/-- The index of a block of a page, from its address. -/
theorem block_idx {N : ℕ} {M : ℤ} (hM : 0 < M) (hpage : M * N = PAGESIZE) (b : ℤ) (i : Fin N) :
    (int32 (b + M * i - b)).tdiv M = (i : ℕ) := by
  have hlo : 0 ≤ M * (i : ℕ) := by positivity
  have hhi : M * (i : ℕ) ≤ M * N := mul_le_mul_of_nonneg_left (by exact_mod_cast i.2.le) hM.le
  rw [add_sub_cancel_left, int32_eq (by unfold InInt PAGESIZE at *; omega)]
  exact Int.mul_tdiv_cancel_left _ hM.ne'

/-- The bytes `x` cover the block of `M` bytes at `a`. -/
def Covers (x : ℤ × ℤ) (a M : ℤ) : Prop := x.1 ≤ a ∧ a + M ≤ x.1 + x.2

variable {κ : Type} {N : ℕ} {base : κ → ℤ} {M : ℤ}

/-- The arrays of the page at `b`, of blocks of `M` bytes, record the regions `live`. -/
structure Page.Records (p : Page N) (b M : ℤ) (live : List (ℤ × ℤ)) : Prop where
  busy : ∀ i : Fin N, p.is_free i = 0 ↔ ∃ x ∈ live, Covers x (b + M * i) M
  free : ∀ i : Fin N, p.is_free i = 1 ↔
    ∀ x ∈ live, ∀ a, Owns (b + M * i, M) a → ¬ Owns x a
  len : ∀ (i : Fin N) (n : ℤ), 0 < n → (p.alloc_blocks_len i = n ↔ (b + M * i, M * n) ∈ live)
  len_zero : ∀ i : Fin N, p.alloc_blocks_len i = 0 ↔ ∀ x ∈ live, x.1 ≠ b + M * i

/-! ## The abstract allocator -/

/-- What a call does to the heap: a request is refused, or served with a region that was free;
a deallocation at a block frees the region that starts there, if one does. -/
inductive Serves [DecidableEq κ] (base : κ → ℤ) (M : ℤ) : Heap κ N → Call → Heap κ N → Prop
  | refuse {h : Heap κ N} {n : ℤ} : Serves base M h (.alloc n NULL) h
  | serve {h : Heap κ N} (r : Region κ) (hpos : 0 < r.len) (hin : r.start + r.len ≤ N) (hr) :
      Serves base M h (.alloc (r.bytes base M).2 (r.bytes base M).1) (h.insert r hpos hin hr)
  | dealloc {h : Heap κ N} (k : κ) (i : Fin N) :
      Serves base M h (.dealloc (base k + M * i)) (h.free k i)

/-- What a client holds after a request is what the heap has. -/
theorem Serves.hold [DecidableEq κ] (hbase : ∀ k, ∀ i < N, base k + M * i ≠ NULL)
    {h h' : Heap κ N} {n ret : ℤ} (hs : Serves base M h (.alloc n ret) h') :
    hold (h.live.map (Region.bytes base M)) (.alloc n ret) =
      h'.live.map (Region.bytes base M) := by
  generalize hc : Call.alloc n ret = c at hs
  cases hs with
  | refuse =>
    cases hc
    rw [Malloc.hold, if_pos rfl]
  | serve r hpos hin hr =>
    cases hc
    have hne : (r.bytes base M).1 ≠ NULL := hbase r.arena r.start (by omega)
    rw [Malloc.hold, if_neg hne, Heap.insert, List.map_append]
    rfl
  | dealloc k i => cases hc

/-- The regions the clients hold are those of the heap. -/
theorem Serves.track [DecidableEq κ] (hp : Placed base M N) (hbase : ∀ k, 0 < base k)
    {h h' : Heap κ N} {c : Call} (hs : Serves base M h c h') :
    track (h.live.map (Region.bytes base M)) c = h'.live.map (Region.bytes base M) := by
  have hM := hp.pos
  have hne : ∀ k, ∀ i < N, base k + M * i ≠ NULL := by
    intro k i _
    have hk := hbase k
    have : 0 ≤ M * i := by positivity
    simp only [NULL]
    omega
  cases c with
  | alloc n ret => exact hs.hold hne
  | dealloc ptr =>
    cases hs with
    | dealloc k i => exact (hp.map_free i.2).symm

/-- If every call refines a step of the abstract allocator, then after a run the clients hold the
regions of its heap. -/
theorem live_of_run [DecidableEq κ] {σ : Type} {init : σ → Prop} {alloc : ℤ → Program Fault σ ℤ}
    {dealloc : ℤ → Program Fault σ Unit} {G : σ × List (ℤ × ℤ) → Call → Prop}
    (addr : σ → κ → ℤ) (I : σ → Heap κ N → Prop)
    (hI : ∀ s h, I s h → Placed (addr s) M N ∧ ∀ k, 0 < addr s k)
    (h₀ : ∀ s, init s → I s Heap.empty)
    (hstep : ∀ s h c s', I s h → G (s, h.live.map (Region.bytes (addr s) M)) c →
      (calls init alloc dealloc).step s c s' →
      ∃ h', I s' h' ∧ addr s' = addr s ∧ Serves (addr s) M h c h')
    {tr : List Call} {s : σ} {live : List (ℤ × ℤ)}
    (hrun : (((calls init alloc dealloc).history [] fun live _ => track live).guard G).Run
      tr (s, live)) : ∃ h, I s h ∧ live = h.live.map (Region.bytes (addr s) M) := by
  refine hrun.invariant
    (I := fun _ s => ∃ h, I s.1 h ∧ s.2 = h.live.map (Region.bytes (addr s.1) M)) ?_ ?_
  · rintro ⟨s, live⟩ ⟨hs, rfl⟩
    exact ⟨_, h₀ s hs, rfl⟩
  · rintro tr ⟨s, live⟩ c ⟨s', live'⟩ ⟨h, hs, hlive⟩ ⟨hc, hcall, rfl⟩
    have hlive : live = h.live.map (Region.bytes (addr s) M) := hlive
    subst hlive
    obtain ⟨h', hs', haddr, hserves⟩ := hstep s h c s' hs hc hcall
    obtain ⟨hp, hpos⟩ := hI s h hs
    refine ⟨h', hs', ?_⟩
    simp only [haddr]
    exact hserves.track hp hpos

/-! ## What the arrays say about the clients' regions -/

section
variable {pages : κ → Page N} {h : Heap κ N} (hp : Placed base M N)
include hp

theorem covers_iff {r : Region κ} (hr : r ∈ h.live) {k : κ} {i : Fin N} :
    Covers (r.bytes base M) (base k + M * i) M ↔ r.Mem k i := by
  have hM := hp.pos
  have hfirst : Owns (base k + M * i, M) (base k + M * i) := ⟨le_rfl, by simp [hM]⟩
  constructor
  · rintro ⟨h₁, h₂⟩
    exact (hp.owns_cell hr i.2 hfirst).1 ⟨h₁, by omega⟩
  · intro hri
    have hlast : Owns (base k + M * i, M) (base k + M * i + M - 1) :=
      ⟨by simp only; omega, by simp only; omega⟩
    have h₁ := (hp.owns_cell hr i.2 hfirst).2 hri
    have h₂ := (hp.owns_cell hr i.2 hlast).2 hri
    exact ⟨h₁.1, by have := h₂.2; omega⟩

variable [DecidableEq κ] (hrep : Page.Rep pages h)
include hrep

/-- The pages of a heap record the clients' regions. -/
theorem Page.Rep.records (k : κ) :
    (pages k).Records (base k) M (h.live.map (Region.bytes base M)) := by
  have hM := hp.pos
  refine ⟨fun i => ?_, fun i => ?_, fun i n hn => ?_, fun i => ?_⟩
  · rw [hrep.is_free_eq_zero]
    constructor
    · rintro ⟨r, hr, hri⟩
      exact ⟨_, List.mem_map_of_mem hr, (covers_iff hp hr).2 hri⟩
    · rintro ⟨x, hx, hxi⟩
      obtain ⟨r, hr, rfl⟩ := List.mem_map.1 hx
      exact ⟨r, hr, (covers_iff hp hr).1 hxi⟩
  · rw [hrep.is_free_eq_one]
    constructor
    · intro hno x hx a ha hxa
      obtain ⟨r, hr, rfl⟩ := List.mem_map.1 hx
      exact hno ⟨r, hr, (hp.owns_cell hr i.2 ha).1 hxa⟩
    · rintro hno ⟨r, hr, hri⟩
      have ha : Owns (base k + M * i, M) (base k + M * i) := ⟨le_rfl, by simp [hM]⟩
      exact hno _ (List.mem_map_of_mem hr) _ ha ((hp.owns_cell hr i.2 ha).2 hri)
  · rw [hrep.alloc_blocks_len, List.mem_map]
    constructor
    · intro hlen
      rcases h.lenAt_cases k i with ⟨r, hr, rfl, hs, hl⟩ | ⟨-, hl⟩
      · exact ⟨r, hr, by rw [Region.bytes, hs, ← hlen, hl]⟩
      · omega
    · rintro ⟨r, hr, hrn⟩
      obtain ⟨hr₁, hr₂⟩ := Prod.mk.inj hrn
      obtain ⟨hk, hs⟩ := hp.start_inj (h.start_lt hr) i.2 hr₁
      rw [← hk, ← hs, h.lenAt_start hr]
      exact Int.eq_of_mul_eq_mul_left hM.ne' hr₂
  · rw [hrep.alloc_blocks_len]
    constructor
    · intro hlen x hx hxi
      obtain ⟨r, hr, rfl⟩ := List.mem_map.1 hx
      obtain ⟨hk, hs⟩ := hp.start_inj (h.start_lt hr) i.2 hxi
      rw [← hk, ← hs, h.lenAt_start hr] at hlen
      have hpos := h.pos r hr
      omega
    · intro hno
      rw [Heap.lenAt_eq_zero, Nat.cast_zero]
      rintro r hr ⟨rfl, hs⟩
      exact hno _ (List.mem_map_of_mem hr) (by rw [Region.bytes, hs])

end

/-- A live region lies in the page of its arena. -/
theorem bytes_inside (hM : 0 < M) {h : Heap κ N} {r : Region κ} (hr : r ∈ h.live) :
    base r.arena ≤ (r.bytes base M).1 ∧
      (r.bytes base M).1 + (r.bytes base M).2 ≤ base r.arena + M * N := by
  have hin : M * (r.start + r.len) ≤ M * N :=
    mul_le_mul_of_nonneg_left (by exact_mod_cast h.inside r hr) hM.le
  have hlo : 0 ≤ M * r.start := by positivity
  rw [mul_add] at hin
  simp only [Region.bytes]
  omega

end Malloc

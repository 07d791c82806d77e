/-
  Where the pages of `ealloc.c` lie: the page that `dealloc` finds, and what becomes of a page that
  could not be mapped.
-/
import OSModules.Malloc.Growth

namespace Malloc.Ealloc

open Runs Prog CInt Malloc

/-- What `mmap` returns when it succeeds for every page: pages that are not null and do not
overlap. -/
structure Mappings (mmap : ℕ → ℤ) : Prop where
  aligned : ∀ k : Fin PAGES, (PAGESIZE : ℤ) ∣ mmap k
  pos : Succeeds mmap
  fits : ∀ k : Fin PAGES, mmap k + PAGESIZE ≤ 2 ^ 64
  apart : ∀ j k : Fin PAGES, j ≠ k → mmap j + PAGESIZE ≤ mmap k ∨ mmap k + PAGESIZE ≤ mmap j

variable {mmap : ℕ → ℤ} {g : Globals} {live : List (ℤ × ℤ)}

/-! ## The page that is found -/

/-- The index of a block in a page that is not its own is the index of a block exactly if the pages
are a multiple of 2 ^ 32 apart. -/
theorem inPage_blockOf {a b : ℤ} (ha : (PAGESIZE : ℤ) ∣ a) (hb : (PAGESIZE : ℤ) ∣ b)
    (i : Fin BLOCKS) : InPage (blockOf a (b + MINALLOC * i)) ↔ 2 ^ 32 ∣ b - a := by
  obtain ⟨c, rfl⟩ := ha
  obtain ⟨d, rfl⟩ := hb
  have hi : (i : ℕ) < 16 := i.2
  simp only [PAGESIZE, Nat.cast_ofNat, blockOf, InPage, BLOCKS]
  -- what the cast takes away is `2 ^ 32 * q`
  obtain ⟨q, hq⟩ : ∃ q, int32 (4096 * d + MINALLOC * i - 4096 * c) =
      MINALLOC * (16 * d + i - 16 * c - 16777216 * q) := by
    refine ⟨(4096 * d + MINALLOC * i - 4096 * c + 2147483648) / 4294967296, ?_⟩
    unfold int32 MINALLOC
    omega
  have hlo := inInt_int32 (4096 * d + MINALLOC * i - 4096 * c)
  rw [hq] at hlo ⊢
  rw [Int.mul_tdiv_cancel_left _ (by decide)]
  unfold InInt MINALLOC at hlo
  constructor
  · intro hin
    exact ⟨q, by omega⟩
  · rintro ⟨e, he⟩
    omega

/-- A pointer into a mapped page is found there exactly if no page before it is a multiple of 2 ^ 32
apart from it. -/
theorem findPage_iff (hm : Mappings mmap) (hg : Grown mmap g) {k : Fin PAGES}
    (hk : (k : ℕ) < g.mmaps) (i : Fin BLOCKS) :
    findPage g.base_ptr (mmap k + MINALLOC * i) (List.finRange PAGES) 0 =
      (((k : ℕ) : ℤ), ((i : ℕ) : ℤ)) ↔ ∀ j < k, ¬ 2 ^ 32 ∣ mmap k - mmap j := by
  obtain ⟨j, hjk, hjin, hno, hfind⟩ := hg.findPage_first hk i
  rw [hfind]
  constructor
  · intro heq j' hj'
    have hjk' : j = k := by
      have := congrArg Prod.fst heq
      exact Fin.ext (by simpa using this)
    subst hjk'
    have hno' := hno j' hj'
    rwa [inPage_blockOf (hm.aligned j') (hm.aligned j)] at hno'
  · intro hall
    have hjk' : j = k := by
      rcases hjk.lt_or_eq with hlt | heq
      · exact absurd ((inPage_blockOf (hm.aligned j) (hm.aligned k) i).1 hjin) (hall j hlt)
      · exact heq
    rw [hjk', blockOf_self]

/-- Where the addresses of pages are any that do not overlap: every live pointer is that of one block
of one mapped page, and `dealloc` finds these exactly if no page before that one is a multiple of
2 ^ 32 apart from it. -/
theorem page_lookup_iff (hm : Mappings mmap)
    (h : (clients Initial (alloc mmap) dealloc).Reachable (g, live)) {x : ℤ × ℤ} (hx : x ∈ live) :
    ∃ (k : Fin PAGES) (i : Fin BLOCKS), g.base_ptr k ≠ NULL ∧ x.1 = g.base_ptr k + MINALLOC * i ∧
      (∀ (k' : Fin PAGES) (i' : Fin BLOCKS), g.base_ptr k' ≠ NULL →
        x.1 = g.base_ptr k' + MINALLOC * i' → k' = k ∧ i' = i) ∧
      (findPage g.base_ptr x.1 (List.finRange PAGES) 0 = (((k : ℕ) : ℤ), ((i : ℕ) : ℤ)) ↔
        ∀ j < k, ¬ 2 ^ 32 ∣ g.base_ptr k - g.base_ptr j) := by
  have hok := hm.pos.mmapOk
  obtain ⟨hg, hheld⟩ := kept_of_reachable hok h
  obtain ⟨k, i, hk, hxi⟩ := hheld x hx
  have hbase := hg.base_ptr_eq hk
  refine ⟨k, i, (hg.base_ptr_ne hok).2 hk, by rw [hbase, hxi], ?_, ?_⟩
  · intro k' i' hk' hxi'
    have hbase' := hg.base_ptr_eq ((hg.base_ptr_ne hok).1 hk')
    have hi : (i : ℕ) < 16 := i.2
    have hi' : (i' : ℕ) < 16 := i'.2
    rw [hbase', hxi] at hxi'
    unfold MINALLOC at hxi'
    have hkk : k' = k := by
      by_contra hne
      have hapart := hm.apart k' k hne
      unfold PAGESIZE at hapart
      omega
    subst hkk
    exact ⟨rfl, Fin.ext (by omega)⟩
  · rw [hxi, findPage_iff hm hg hk i, hbase]
    refine forall₂_congr fun j hj => ?_
    rw [hg.base_ptr_eq (lt_trans hj hk)]

/-- Pages that are the same distance apart. -/
theorem mappings_spaced {d : ℤ} (hd : (PAGESIZE : ℤ) ∣ d) (hlo : PAGESIZE ≤ d) (hhi : d ≤ 2 ^ 32) :
    Mappings fun k => 4096 + d * k := by
  have hk : ∀ k : Fin PAGES, (k : ℕ) < 4 := fun k => k.2
  unfold PAGESIZE at *
  refine ⟨fun k => ?_, fun k => ?_, fun k => ?_, fun j k hne => ?_⟩
  · exact dvd_add (by simp [PAGESIZE]) (hd.mul_right _)
  · show (0 : ℤ) < 4096 + d * (k : ℕ)
    positivity
  · have := hk k
    show 4096 + d * ((k : ℕ) : ℤ) + 4096 ≤ 2 ^ 64
    nlinarith
  · show 4096 + d * ((j : ℕ) : ℤ) + 4096 ≤ 4096 + d * ((k : ℕ) : ℤ) ∨
      4096 + d * ((k : ℕ) : ℤ) + 4096 ≤ 4096 + d * ((j : ℕ) : ℤ)
    rcases lt_or_gt_of_ne fun h => hne (Fin.ext h) with hlt | hlt
    · left
      have : ((j : ℕ) : ℤ) + 1 ≤ (k : ℕ) := by exact_mod_cast hlt
      push_cast at hlo
      nlinarith
    · right
      have : ((k : ℕ) : ℤ) + 1 ≤ (j : ℕ) := by exact_mod_cast hlt
      push_cast at hlo
      nlinarith

/-- The first page full and a block on the second: two calls of `alloc`. -/
theorem reachable_second {m : ℕ → ℤ} {g₁ g₂ : Globals} {a b : ℤ} (ha : a ≠ NULL) (hb : b ≠ NULL)
    (h₁ : Returns (alloc m 4096) .init a g₁) (h₂ : Returns (alloc m 256) g₁ b g₂) :
    (clients Initial (alloc m) dealloc).Reachable (g₂, [(a, 4096), (b, 256)]) := by
  have r₀ : (clients Initial (alloc m) dealloc).Reachable (.init, []) := .init ⟨initial_init, rfl⟩
  have r₁ := r₀.step (clients_alloc (by decide) ha h₁ [])
  exact r₁.step (clients_alloc (by decide) hb h₂ _)

/-- Pages in a row: the block is found on the second one. -/
theorem lookup_row : ∃ g : Globals, g.base_ptr 1 = 8192 ∧
    findPage g.base_ptr 8192 (List.finRange PAGES) 0 = (1, 0) := by
  have h : ∃ g₁, Returns (alloc (fun k => 4096 + 4096 * k) 4096) .init 4096 g₁ ∧
      ∃ g₂, Returns (alloc (fun k => 4096 + 4096 * k) 256) g₁ 8192 g₂ ∧
        g₂.base_ptr 0 = 4096 ∧ g₂.base_ptr 1 = 8192 := by
    decide +kernel
  obtain ⟨g₁, h₁, g₂, h₂, hbase₀, hbase₁⟩ := h
  have hm : Mappings fun k => 4096 + 4096 * k :=
    mappings_spaced (by simp [PAGESIZE]) (by simp [PAGESIZE]) (by simp)
  have hr := reachable_second (by simp [NULL]) (by simp [NULL]) h₁ h₂
  obtain ⟨k, i, -, -, huniq, hiff⟩ := page_lookup_iff hm hr (x := (8192, 256)) (by simp)
  obtain ⟨rfl, rfl⟩ := huniq 1 ⟨0, by simp [BLOCKS]⟩ (by simp [hbase₁, NULL]) (by simp [hbase₁])
  refine ⟨g₂, hbase₁, hiff.2 fun j hj => ?_⟩
  have hj₁ : (j : ℕ) < 1 := hj
  obtain rfl : j = 0 := Fin.ext (Nat.lt_one_iff.1 hj₁)
  rw [hbase₀, hbase₁]
  norm_num

/-- Pages that are 2 ^ 32 apart: a block on the second one is taken for one on the first. -/
theorem lookup_far : Mappings (fun k => 4096 + 4294967296 * k) ∧ ∃ g : Globals,
    (clients Initial (alloc fun k => 4096 + 4294967296 * k) dealloc).Reachable
      (g, [(4096, 4096), (4294971392, 256)]) ∧
    g.base_ptr 0 = 4096 ∧ g.base_ptr 1 = 4294971392 ∧
    findPage g.base_ptr 4294971392 (List.finRange PAGES) 0 = (0, 0) := by
  have h : ∃ g₁, Returns (alloc (fun k => 4096 + 4294967296 * k) 4096) .init 4096 g₁ ∧
      ∃ g₂, Returns (alloc (fun k => 4096 + 4294967296 * k) 256) g₁ 4294971392 g₂ ∧
        g₂.base_ptr 0 = 4096 ∧ g₂.base_ptr 1 = 4294971392 ∧
        findPage g₂.base_ptr 4294971392 (List.finRange PAGES) 0 = (0, 0) := by
    decide +kernel
  obtain ⟨g₁, h₁, g₂, h₂, hbase₀, hbase₁, hfind⟩ := h
  refine ⟨mappings_spaced (by simp [PAGESIZE]) (by simp [PAGESIZE]) (by simp), g₂, ?_, hbase₀,
    hbase₁, hfind⟩
  exact reachable_second (by simp [NULL]) (by simp [NULL]) h₁ h₂

/-! ## Pages that are not mapped -/

theorem Returned.mono {g' : Globals} {c : Call} (h : Returned mmap g c) (hle : g.mmaps ≤ g'.mmaps) :
    Returned mmap g' c := by
  cases c with
  | alloc n ret =>
    intro hne
    obtain ⟨k, i, hk, hret⟩ := h hne
    exact ⟨k, i, hk.trans_le hle, hret⟩
  | dealloc ptr => trivial

/-- The calls of a run returned blocks of pages that were asked for until then. -/
theorem returned_of_run (hm : MmapOk mmap) {tr : List Call}
    (h : (clients Initial (alloc mmap) dealloc).Run tr (g, live)) :
    Kept mmap g live ∧ ∀ c ∈ tr, Returned mmap g c := by
  refine h.invariant (I := fun tr s => Kept mmap s.1 s.2 ∧ ∀ c ∈ tr, Returned mmap s.1 c) ?_ ?_
  · rintro ⟨g, live⟩ hinit
    exact ⟨kept_of_reachable hm (.init hinit), fun c hc => absurd hc List.not_mem_nil⟩
  · rintro tr ⟨g, live⟩ c s' ⟨hkept, hall⟩ hs
    obtain ⟨hkept', hle, hret⟩ := hkept.step hm hs
    refine ⟨hkept', fun d hd => ?_⟩
    rcases List.mem_append.1 hd with hd | hd
    · exact (hall d hd).mono hle
    · rw [List.mem_singleton.1 hd]
      exact hret

/-- One state leads to another. -/
abbrev Leads (mmap : ℕ → ℤ) : (s s' : Globals × List (ℤ × ℤ)) → Prop :=
  Relation.ReflTransGen fun s s' => ∃ c, (clients Initial (alloc mmap) dealloc).step s c s'

theorem Leads.kept (hm : MmapOk mmap) {s s' : Globals × List (ℤ × ℤ)} (h : Leads mmap s s')
    (hs : Kept mmap s.1 s.2) : Kept mmap s'.1 s'.2 ∧ s.1.mmaps ≤ s'.1.mmaps := by
  induction h with
  | refl => exact ⟨hs, le_rfl⟩
  | tail _ hstep ih =>
    obtain ⟨c, hc⟩ := hstep
    obtain ⟨hkept', hle, -⟩ := ih.1.step hm hc
    exact ⟨hkept', ih.2.trans hle⟩

/-- A run keeps what is asked of it where `mmap` fails, pointers into mapped pages and another try
for a page that could not be mapped, exactly if none of its calls of `mmap` fails. -/
theorem mmap_failures_iff (hm : MmapOk mmap) {tr : List Call}
    (h : (clients Initial (alloc mmap) dealloc).Run tr (g, live)) :
    ((∀ n ret, Call.alloc n ret ∈ tr → ret ≠ NULL → ∃ k : Fin PAGES, (k : ℕ) < g.mmaps ∧
        mmap k ≠ MAP_FAILED ∧ mmap k ≤ ret ∧ ret < mmap k + PAGESIZE ∧
        ret + n ≤ mmap k + PAGESIZE) ∧
      ∀ k, g.base_ptr k = MAP_FAILED → ∃ s', Leads mmap (g, live) s' ∧
        s'.1.base_ptr k ≠ MAP_FAILED ∧ s'.1.base_ptr k ≠ NULL) ↔
    ∀ k : Fin PAGES, (k : ℕ) < g.mmaps → mmap k ≠ MAP_FAILED := by
  obtain ⟨hkept, hret⟩ := returned_of_run hm h
  constructor
  · rintro ⟨-, hagain⟩ k hk hfail
    -- the page keeps the mark of the failure
    obtain ⟨s', hleads, hne, -⟩ := hagain k ((hkept.grown.base_ptr_eq hk).trans hfail)
    obtain ⟨hkept', hle⟩ := hleads.kept hm hkept
    exact hne ((hkept'.grown.base_ptr_eq (hk.trans_le hle)).trans hfail)
  · intro hall
    refine ⟨fun n ret hmem hne => ?_, fun k hfail => ?_⟩
    · obtain ⟨k, i, hk, rfl, hin⟩ := hret _ hmem hne
      have hi : (i : ℕ) < 16 := i.2
      refine ⟨k, hk, hall k hk, ?_, ?_, ?_⟩
      · unfold MINALLOC
        omega
      · unfold MINALLOC PAGESIZE
        omega
      · omega
    · have hk : (k : ℕ) < g.mmaps := by
        refine (hkept.grown.base_ptr_ne hm).1 ?_
        rw [hfail]
        simp [MAP_FAILED, NULL]
      exact absurd ((hkept.grown.base_ptr_eq hk).symm.trans hfail) (hall k hk)

/-- One call of `alloc`. -/
theorem run_one {m : ℕ → ℤ} {g' : Globals} {a : ℤ} (ha : a ≠ NULL)
    (h : Returns (alloc m 256) .init a g') :
    (clients Initial (alloc m) dealloc).Run [.alloc 256 a] (g', [(a, 256)]) := by
  have r₀ : (clients Initial (alloc m) dealloc).Run [] (.init, []) := .init ⟨initial_init, rfl⟩
  exact r₀.step (clients_alloc (by decide) ha h [])

/-- Two calls of `mmap`, which do not fail: the second pointer is one into a page that is mapped. -/
theorem mmap_failures_none : ∃ g : Globals,
    (clients Initial (alloc fun k => 4096 * (k + 1)) dealloc).Run
      [.alloc 4096 4096, .alloc 256 8192] (g, [(4096, 4096), (8192, 256)]) ∧
    ∃ k : Fin PAGES, (k : ℕ) < g.mmaps ∧ (4096 : ℤ) * ((k : ℕ) + 1) ≤ 8192 ∧
      (8192 : ℤ) < 4096 * ((k : ℕ) + 1) + PAGESIZE := by
  have h : ∃ g₁, Returns (alloc (fun k => 4096 * (k + 1)) 4096) .init 4096 g₁ ∧
      ∃ g₂, Returns (alloc (fun k => 4096 * (k + 1)) 256) g₁ 8192 g₂ ∧ g₂.mmaps = 2 := by
    decide +kernel
  obtain ⟨g₁, h₁, g₂, h₂, -⟩ := h
  have hm : MmapOk fun k => 4096 * (k + 1) := fun k =>
    Or.inr (show (0 : ℤ) < 4096 * ((k : ℕ) + 1) by omega)
  have r₀ : (clients Initial (alloc fun k => 4096 * (k + 1)) dealloc).Run [] (.init, []) :=
    .init ⟨initial_init, rfl⟩
  have r₁ := r₀.step (clients_alloc (by decide) (by decide) h₁ [])
  have r₂ := r₁.step (clients_alloc (by decide) (by decide) h₂ _)
  have hall : ∀ k : Fin PAGES, (k : ℕ) < g₂.mmaps → (4096 : ℤ) * ((k : ℕ) + 1) ≠ MAP_FAILED := by
    intro k _
    unfold MAP_FAILED
    omega
  obtain ⟨k, hk, -, hlo, hhi, -⟩ :=
    ((mmap_failures_iff hm r₂).2 hall).1 256 8192 (by simp) (by decide)
  exact ⟨g₂, r₂, k, hk, hlo, hhi⟩

/-- The results of `mmap` where only its first call fails. -/
def failsOnce (k : ℕ) : ℤ := if k = 0 then MAP_FAILED else 4096 * k

/-- The first call of `mmap` fails: `alloc` returns -1, which is in no page, and the page stays as it
is. -/
theorem failed_page_served : MmapOk failsOnce ∧ ∃ g : Globals,
    (clients Initial (alloc failsOnce) dealloc).Run [.alloc 256 (-1)] (g, [(-1, 256)]) ∧
    (-1 ≠ NULL ∧ ∀ k, failsOnce k ≠ MAP_FAILED →
      ¬ (failsOnce k ≤ -1 ∧ -1 < failsOnce k + PAGESIZE)) ∧
    g.base_ptr 0 = MAP_FAILED ∧
    ∀ s', Leads failsOnce (g, [(-1, 256)]) s' → s'.1.base_ptr 0 = MAP_FAILED := by
  have hm : MmapOk failsOnce := by
    intro k
    rw [failsOnce]
    split
    · exact Or.inl rfl
    · right
      omega
  have h : ∃ g₁, Returns (alloc failsOnce 256) .init (-1) g₁ ∧ g₁.mmaps = 1 := by
    decide +kernel
  obtain ⟨g₁, h₁, hone⟩ := h
  have hrun := run_one (by simp [NULL]) h₁
  have hkept := (returned_of_run hm hrun).1
  have hzero : ((0 : Fin PAGES) : ℕ) < g₁.mmaps := by
    rw [hone]
    exact Nat.one_pos
  refine ⟨hm, g₁, hrun, ⟨by simp [NULL], fun k hk => ?_⟩, hkept.grown.base_ptr_eq hzero, ?_⟩
  · rw [failsOnce] at hk ⊢
    split at hk
    · exact absurd rfl hk
    · next hne =>
      rw [if_neg hne]
      omega
  · intro s' hleads
    obtain ⟨hkept', hle⟩ := hleads.kept hm hkept
    exact hkept'.grown.base_ptr_eq (hzero.trans_le hle)

end Malloc.Ealloc

/-
  Best fit: the search of both allocators finds the last of the shortest maximal stretches of
  free blocks that are long enough.
-/
import OSModules.Lib.Stretches
import OSModules.Malloc.Alloc
import OSModules.Malloc.Ealloc

namespace Malloc

open Prog CInt Stretches

variable {N : ℕ}

namespace Page

/-- A block of the page that is free. -/
def Free (is_free : Fin N → ℤ) (j : ℕ) : Prop := ∃ h : j < N, is_free ⟨j, h⟩ = 1

/-- There is no start if there are no `b` free blocks in a row, else the start is that of the last
of the shortest maximal stretches of at least `b` free blocks. -/
structure BestFit (is_free : Fin N → ℤ) (b : ℕ) (start : ℤ) : Prop where
  none : start = -1 ↔ ¬ ∃ i, Stretch (Free is_free) i b
  some : start ≠ -1 → ∃ i len : ℕ, start = i ∧ Best (Free is_free) b i len

variable {is_free : Fin N → ℤ} {b : ℕ}

theorem Free.lt {j : ℕ} (h : Free is_free j) : j < N := h.1

/-- The inner loop measures the stretch to its end. -/
theorem stretch_runLen (is_free : Fin N → ℤ) (i : ℕ) :
    Stretch (Free is_free) i (runLen is_free i) ∧ ¬ Free is_free (i + runLen is_free i) := by
  fun_induction runLen is_free i with
  | case1 i h hi ih =>
    obtain ⟨hstretch, hend⟩ := ih
    refine ⟨fun j hij hj => ?_, ?_⟩
    · rcases hij.eq_or_lt with rfl | hlt
      · exact ⟨h, hi⟩
      · exact hstretch j hlt (by omega)
    · rwa [show i + (runLen is_free (i + 1) + 1) = i + 1 + runLen is_free (i + 1) by omega]
  | case2 i h hi =>
    refine ⟨fun j hij hj => by omega, ?_⟩
    rintro ⟨_, hfree⟩
    exact hi hfree
  | case3 i h =>
    refine ⟨fun j hij hj => by omega, ?_⟩
    rintro ⟨hlt, -⟩
    exact h hlt

/-- No stretch goes on over the left edge of block `i`. -/
def Edge (is_free : Fin N → ℤ) (i : ℕ) : Prop :=
  ∀ j, j + 1 = i → Free is_free j → ¬ Free is_free i

theorem maximal_runLen {i : ℕ} (hi : Free is_free i) (hedge : Edge is_free i) :
    Maximal (Free is_free) i (runLen is_free i) := by
  obtain ⟨hstretch, hend⟩ := stretch_runLen is_free i
  obtain ⟨hlt, hfree⟩ := hi
  refine ⟨runLen_pos hlt hfree, hstretch, fun j hj hjfree => ?_, hend⟩
  exact hedge j hj hjfree ⟨hlt, hfree⟩

/-- What the search knows of the maximal stretches that start before block `i`. -/
inductive Seen (is_free : Fin N → ℤ) (b i : ℕ) : (min_free_slot free_start_idx : ℤ) → Prop
  | none : (∀ i' len', Maximal (Free is_free) i' len' → i' < i → ¬ b ≤ len') →
      Seen is_free b i PAGESIZE (-1)
  | some {s len : ℕ} : Maximal (Free is_free) s len → b ≤ len →
      (∀ i' len', Maximal (Free is_free) i' len' → i' < i → b ≤ len' →
        len ≤ len' ∧ (len' = len → i' ≤ s)) → Seen is_free b i len s

/-- Of the maximal stretches that start before the end of one of them, all but this one start
before it. -/
theorem before_end {i i' len' : ℕ} (hmax : Maximal (Free is_free) i (runLen is_free i))
    (h' : Maximal (Free is_free) i' len') (hlt : i' < i + runLen is_free i) :
    i' < i ∨ i' = i ∧ len' = runLen is_free i := by
  rcases lt_trichotomy i' i with hi | rfl | hi
  · exact Or.inl hi
  · exact Or.inr ⟨rfl, h'.length_unique hmax⟩
  · exact (hmax.not_inside h' hi hlt).elim

theorem seen_search (hN : N ≤ PAGESIZE) (i : ℕ) {min_free_slot start : ℤ}
    (hedge : Edge is_free i) (h : Seen is_free b i min_free_slot start) :
    ∃ m, Seen is_free b N m (search is_free b i min_free_slot start) := by
  fun_induction search is_free b i min_free_slot start with
  | case1 i min start hlt hi _ len hfit ih =>
    have hmax := maximal_runLen ⟨hlt, hi⟩ hedge
    refine ih ?_ (.some hmax (by exact_mod_cast hfit.1) fun i' len' h' hlt' hb => ?_)
    · intro j hj hjfree
      exact hmax.right
    · rcases before_end hmax h' hlt' with hi' | ⟨rfl, rfl⟩
      · refine ⟨?_, fun _ => hi'.le⟩
        cases h with
        | none hno => exact absurd hb (hno i' len' h' hi')
        | some _ _ hbest =>
          have hle := (hbest i' len' h' hi' hb).1
          have hmin := hfit.2
          omega
      · exact ⟨le_rfl, fun _ => le_rfl⟩
  | case2 i min start hlt hi _ len hfit ih =>
    have hmax := maximal_runLen ⟨hlt, hi⟩ hedge
    refine ih (fun j hj hjfree => hmax.right) ?_
    have hlen := runLen_le is_free hlt.le
    cases h with
    | none hno =>
      refine .none fun i' len' h' hlt' hb => ?_
      rcases before_end hmax h' hlt' with hi' | ⟨rfl, rfl⟩
      · exact hno i' len' h' hi' hb
      · exact hfit ⟨by exact_mod_cast hb, by omega⟩
    | some hs hbs hbest =>
      refine .some hs hbs fun i' len' h' hlt' hb => ?_
      rcases before_end hmax h' hlt' with hi' | ⟨rfl, rfl⟩
      · exact hbest i' len' h' hi' hb
      · have hshort : ¬ (len : ℤ) ≤ _ := fun hle => hfit ⟨by exact_mod_cast hb, hle⟩
        constructor <;> omega
  | case3 i min start hlt hi ih =>
    have hno : ¬ Free is_free i := fun hf => hi hf.2
    have hother : ∀ i' len', Maximal (Free is_free) i' len' → i' < i + 1 → i' < i := by
      intro i' len' h' hlt'
      have hne : i' ≠ i := by
        rintro rfl
        exact hno (h'.holds i' le_rfl (by have := h'.pos; omega))
      omega
    refine ih (fun j hj hjfree => ?_) ?_
    · obtain rfl : j = i := by omega
      exact absurd hjfree hno
    · cases h with
      | none hall => exact .none fun i' len' h' hlt' => hall i' len' h' (hother i' len' h' hlt')
      | some hs hbs hbest =>
        exact .some hs hbs fun i' len' h' hlt' => hbest i' len' h' (hother i' len' h' hlt')
  | case4 i min start hge =>
    have hall : ∀ i' len', Maximal (Free is_free) i' len' → i' < i := by
      intro i' len' h'
      have := (h'.holds i' le_rfl (by have := h'.pos; omega)).lt
      omega
    cases h with
    | none hno => exact ⟨_, .none fun i' len' h' _ => hno i' len' h' (hall i' len' h')⟩
    | some hs hbs hbest =>
      exact ⟨_, .some hs hbs fun i' len' h' _ => hbest i' len' h' (hall i' len' h')⟩

theorem bestFit_get_free_start_idx (hN : N ≤ PAGESIZE) (hb : 1 ≤ b) :
    BestFit is_free b (get_free_start_idx is_free b) := by
  have h₀ : Seen is_free b 0 PAGESIZE (-1) :=
    .none fun i' len' _ hlt => absurd hlt (Nat.not_lt_zero _)
  obtain ⟨m, hm⟩ := seen_search hN 0 (fun j hj => by omega) h₀
  rw [get_free_start_idx]
  generalize search is_free b 0 PAGESIZE (-1) = start at hm
  have hin : ∀ i' len', Maximal (Free is_free) i' len' → i' < N := by
    intro i' len' h'
    exact (h'.holds i' le_rfl (by have := h'.pos; omega)).lt
  cases hm with
  | none hno =>
    refine ⟨⟨fun _ => ?_, fun _ => rfl⟩, fun h => absurd rfl h⟩
    rintro ⟨i, hi⟩
    obtain ⟨i', len', hmax, hle, hlen⟩ := exists_maximal (fun j hj => hj.lt) hi hb
    exact hno i' len' hmax (hin i' len' hmax) (by omega)
  | @some s len hs hbs hbest =>
    refine ⟨⟨fun hneg => by omega, fun hno => ?_⟩, fun _ => ⟨s, len, rfl, hs, hbs, ?_, ?_⟩⟩
    · exact absurd ⟨s, hs.holds.mono le_rfl (by omega)⟩ hno
    · intro i' len' h' hb'
      exact (hbest i' len' h' (hin i' len' h') hb').1
    · intro i' h'
      exact (hbest i' len h' (hin i' len h') hbs).2 rfl

/-- A search for no blocks, or less, finds what a search for one block does. -/
theorem search_of_le_one {c : ℤ} (hc : c ≤ 1) (i : ℕ) (min_free_slot start : ℤ) :
    search is_free c i min_free_slot start = search is_free 1 i min_free_slot start := by
  fun_induction search is_free 1 i min_free_slot start with
  | case1 i _ _ hlt hi hpos len hfit ih =>
    rw [search, dif_pos hlt, dif_pos hi]
    exact (if_pos ⟨hc.trans hfit.1, hfit.2⟩).trans ih
  | case2 i _ _ hlt hi hpos len hfit ih =>
    rw [search, dif_pos hlt, dif_pos hi]
    refine (if_neg fun h => hfit ⟨?_, h.2⟩).trans ih
    exact_mod_cast hpos
  | case3 i _ _ hlt hi ih =>
    rw [search, dif_pos hlt, dif_neg hi]
    exact ih
  | case4 i _ _ hge =>
    rw [search, dif_neg hge]

theorem get_free_start_idx_of_le_one {c : ℤ} (hc : c ≤ 1) :
    get_free_start_idx is_free c = get_free_start_idx is_free 1 := search_of_le_one hc 0 PAGESIZE (-1)

/-- A search for any number of blocks fails exactly if there are not as many free blocks in a row,
or none at all. -/
theorem get_free_start_idx_eq_neg_one (hN : N ≤ PAGESIZE) (c : ℤ) :
    get_free_start_idx is_free c = -1 ↔ ¬ ∃ i, Stretch (Free is_free) i (max 1 c).toNat := by
  rcases le_total c 1 with hc | hc
  · rw [get_free_start_idx_of_le_one hc, max_eq_left hc]
    exact (bestFit_get_free_start_idx hN (b := 1) le_rfl).none
  · lift c to ℕ using by omega
    rw [max_eq_right hc]
    exact (bestFit_get_free_start_idx hN (by exact_mod_cast hc)).none

/-! ## Deallocations in a row -/

/-- Regions of the page, from block `lo` up to block `hi`, each of which starts where the one
before it ends. -/
inductive Adjacent (alloc_blocks_len : Fin N → ℤ) : ℕ → List (Fin N) → ℕ → Prop
  | nil {lo : ℕ} : Adjacent alloc_blocks_len lo [] lo
  | cons {i : Fin N} {len hi : ℕ} {blocks : List (Fin N)} : alloc_blocks_len i = len → 0 < len →
      i + len ≤ N → Adjacent alloc_blocks_len (i + len) blocks hi →
      Adjacent alloc_blocks_len i (i :: blocks) hi

section
variable {alloc_blocks_len : Fin N → ℤ} {lo hi : ℕ} {blocks : List (Fin N)}

theorem Adjacent.le_of_mem (h : Adjacent alloc_blocks_len lo blocks hi) :
    ∀ i ∈ blocks, lo ≤ i := by
  induction h with
  | nil =>
    intro i hi
    exact absurd hi List.not_mem_nil
  | cons _ _ _ _ ih =>
    intro k hk
    rcases List.mem_cons.1 hk with rfl | hk
    · exact le_rfl
    · have := ih k hk
      omega

theorem Adjacent.nodup (h : Adjacent alloc_blocks_len lo blocks hi) : blocks.Nodup := by
  induction h with
  | nil => exact List.nodup_nil
  | @cons i len _ _ _ hpos _ hrest ih =>
    refine List.nodup_cons.2 ⟨fun hmem => ?_, ih⟩
    have := hrest.le_of_mem i hmem
    omega

theorem Adjacent.inside (h : Adjacent alloc_blocks_len lo blocks hi) :
    ∀ i ∈ blocks, i + alloc_blocks_len i ≤ N := by
  induction h with
  | nil =>
    intro i hi
    exact absurd hi List.not_mem_nil
  | cons hlen _ hin _ ih =>
    intro k hk
    rcases List.mem_cons.1 hk with rfl | hk
    · rw [hlen]
      exact_mod_cast hin
    · exact ih k hk

/-- The regions cover the blocks between. -/
theorem Adjacent.exists_mem (h : Adjacent alloc_blocks_len lo blocks hi) (j : ℕ) (hlo : lo ≤ j)
    (hhi : j < hi) : ∃ i ∈ blocks, i ≤ j ∧ (j : ℤ) < i + alloc_blocks_len i := by
  induction h with
  | nil => omega
  | @cons i len _ _ hlen _ _ _ ih =>
    by_cases hj : j < i + len
    · exact ⟨i, List.mem_cons_self, hlo, by omega⟩
    · obtain ⟨k, hk, hkj⟩ := ih (by omega) hhi
      exact ⟨k, List.mem_cons_of_mem i hk, hkj⟩

theorem Adjacent.hi_le (h : Adjacent alloc_blocks_len lo blocks hi) (hlo : lo ≤ N) : hi ≤ N := by
  induction h with
  | nil => exact hlo
  | cons _ _ hin _ ih => exact ih hin

end

/-- Programs that release the blocks of a page, one after the other, leave all of their regions
free. -/
theorem wp_forM_release {σ : Type} {V : σ → Page N} {J : σ → Prop}
    {f : Fin N → Program Fault σ Unit} {E : Fault → Prop} {p : Page N} {blocks : List (Fin N)}
    (hf : ∀ i ∈ blocks, ∀ s, J s → i + (V s).alloc_blocks_len i ≤ N →
      wp (f i) s E fun _ s' => J s' ∧
        V s' = ((V s).withLen i 0).filled i (i + (V s).alloc_blocks_len i) 1)
    (hnodup : blocks.Nodup)
    (hin : ∀ i ∈ blocks, i + p.alloc_blocks_len i ≤ N) {s : σ} (hJ : J s) (hp : V s = p) :
    wp (blocks.forM f) s E fun _ s' => J s' ∧ ∀ i ∈ blocks, ∀ j : Fin N, i ≤ j →
      (j : ℤ) < i + p.alloc_blocks_len i → (V s').is_free j = 1 := by
  -- the lengths of the regions still to come are those of `p`
  refine (wp_forM (I := fun rest s => J s ∧ rest.Nodup ∧ (∀ i ∈ rest, i ∈ blocks ∧
    (V s).alloc_blocks_len i = p.alloc_blocks_len i) ∧ ∀ i ∈ blocks, i ∉ rest → ∀ j : Fin N,
      i ≤ j → (j : ℤ) < i + p.alloc_blocks_len i → (V s).is_free j = 1) ?_ ?_).imp ?_
  · rintro i rest s ⟨hJ, hnodup, hrest, hdone⟩
    obtain ⟨hno, hnodup⟩ := List.nodup_cons.1 hnodup
    obtain ⟨hi, hlen⟩ := hrest i List.mem_cons_self
    refine (hf i hi s hJ (by rw [hlen]; exact hin i hi)).imp ?_
    rintro ⟨⟩ s' ⟨hJ', hs'⟩
    refine ⟨hJ', hnodup, fun k hk => ?_, fun k hk hkrest j hkj hj => ?_⟩
    · have hki : k ≠ i := by
        rintro rfl
        exact hno hk
      obtain ⟨hkb, hklen⟩ := hrest k (List.mem_cons_of_mem i hk)
      rw [hs', filled_alloc_blocks_len, withLen_alloc_blocks_len, Function.update_of_ne hki]
      exact ⟨hkb, hklen⟩
    · rw [hs', filled_is_free, withLen_is_free]
      by_cases hki : k = i
      · subst hki
        rw [hlen, if_pos ⟨by exact_mod_cast hkj, hj⟩]
      · split
        · rfl
        · exact hdone k hk (by simp [hki, hkrest]) j hkj hj
  · exact ⟨hJ, hnodup, fun i hi => ⟨hi, by rw [hp]⟩, fun i hi hno => absurd hi hno⟩
  · rintro ⟨⟩ s' ⟨hJ', -, -, hdone⟩
    exact ⟨hJ', fun i hi => hdone i hi List.not_mem_nil⟩

/-- Blocks that adjacent regions have left free are found for any request that they fit. -/
theorem get_free_start_idx_of_adjacent (hN : N ≤ PAGESIZE) {p : Page N} {lo hi : ℕ}
    {blocks : List (Fin N)} (h : Adjacent p.alloc_blocks_len lo blocks hi)
    (hfree : ∀ i ∈ blocks, ∀ j : Fin N, i ≤ j → (j : ℤ) < i + p.alloc_blocks_len i →
      is_free j = 1) (hb : 1 ≤ b) (hfit : lo + b ≤ hi) : get_free_start_idx is_free b ≠ -1 := by
  intro hnone
  have hlo : lo ≤ N := by
    cases h with
    | nil => omega
    | @cons i => exact i.2.le
  refine (bestFit_get_free_start_idx hN hb).none.1 hnone ⟨lo, fun j hlj hj => ?_⟩
  obtain ⟨i, hi, hij, hj'⟩ := h.exists_mem j hlj (by omega)
  have hjN : j < N := by
    have := h.hi_le hlo
    omega
  exact ⟨hjN, hfree i hi ⟨j, hjN⟩ hij hj'⟩

end Page

/-! ## The two allocators -/

/-- `dealloc` of `alloc.c` releases the block it is called for. -/
theorem Alloc.wp_dealloc_release {g : Alloc.Globals} {E : Fault → Prop} (i : Fin Alloc.BLOCKS)
    (hin : i + g.alloc_blocks_len i ≤ Alloc.BLOCKS) :
    wp (Alloc.dealloc (g.base_ptr + Alloc.MINALLOC * i)) g E fun _ g' =>
      g'.base_ptr = g.base_ptr ∧
      g'.toPage = (g.toPage.withLen i 0).filled i (i + g.alloc_blocks_len i) 1 := by
  rw [Alloc.dealloc, wp_bind, wp_get, Alloc.onPage, wp_zoom, block_idx (by decide) (by decide)]
  exact Page.wp_release hin ⟨rfl, rfl⟩

/-- `dealloc` of `ealloc.c` releases the block that it finds. -/
theorem Ealloc.wp_dealloc_release {g : Ealloc.Globals} {E : Fault → Prop} {k : Fin Ealloc.PAGES}
    {ptr : ℤ} {i : Fin Ealloc.BLOCKS}
    (hfind : Ealloc.findPage g.base_ptr ptr (List.finRange Ealloc.PAGES) 0 =
      (((k : ℕ) : ℤ), ((i : ℕ) : ℤ)))
    (hin : i + (g.page k).alloc_blocks_len i ≤ Ealloc.BLOCKS) :
    wp (Ealloc.dealloc ptr) g E fun _ g' => g'.base_ptr = g.base_ptr ∧
      g'.page k = ((g.page k).withLen i 0).filled i (i + (g.page k).alloc_blocks_len i) 1 := by
  rw [Ealloc.dealloc, wp_bind, wp_get, hfind, wp_bind]
  refine wp_index k rfl ?_
  rw [Ealloc.onPage, wp_zoom]
  refine Page.wp_release hin ⟨rfl, ?_⟩
  rw [Ealloc.page_setPage, Function.update_self]

/-- In both allocators the search is a best fit, the last of those that are as short, and it fails
only if there is no room. Adjacent regions are one run of free blocks after deallocations in any
order; in `ealloc.c`, if these find the page. -/
theorem best_fit :
    (∀ (is_free : Fin Alloc.BLOCKS → ℤ) (b : ℕ), 1 ≤ b →
      Page.BestFit is_free b (Page.get_free_start_idx is_free b)) ∧
    (∀ (g : Ealloc.Globals) (k : Fin Ealloc.PAGES) (req_len : ℤ) (b : ℕ), 1 ≤ b → ∃ start,
      Returns (Ealloc.get_free_start_idx k req_len b) g start g ∧
        Page.BestFit (g.is_free k) b start) ∧
    (∀ (g : Alloc.Globals) (lo hi : ℕ) (blocks order : List (Fin Alloc.BLOCKS)),
      Page.Adjacent g.alloc_blocks_len lo blocks hi → order.Perm blocks →
      ∃ g', Returns (order.forM fun i => Alloc.dealloc (g.base_ptr + Alloc.MINALLOC * i)) g () g' ∧
        ∀ b : ℕ, 1 ≤ b → lo + b ≤ hi → Page.get_free_start_idx g'.is_free b ≠ -1) ∧
    ∀ (g : Ealloc.Globals) (k : Fin Ealloc.PAGES) (lo hi : ℕ)
      (blocks order : List (Fin Ealloc.BLOCKS)),
      Page.Adjacent (g.alloc_blocks_len k) lo blocks hi → order.Perm blocks →
      (∀ i ∈ blocks, Ealloc.findPage g.base_ptr (g.base_ptr k + Ealloc.MINALLOC * i)
        (List.finRange Ealloc.PAGES) 0 = (((k : ℕ) : ℤ), ((i : ℕ) : ℤ))) →
      ∃ g', Returns (order.forM fun i => Ealloc.dealloc (g.base_ptr k + Ealloc.MINALLOC * i))
          g () g' ∧
        ∀ b : ℕ, 1 ≤ b → lo + b ≤ hi → Page.get_free_start_idx (g'.is_free k) b ≠ -1 := by
  refine ⟨?_, ?_, ?_, ?_⟩
  · intro is_free b hb
    exact Page.bestFit_get_free_start_idx (by simp [Alloc.BLOCKS, PAGESIZE]) hb
  · intro g k req_len b hb
    exact ⟨_, rfl, Page.bestFit_get_free_start_idx (by simp [Ealloc.BLOCKS, PAGESIZE]) hb⟩
  · intro g lo hi blocks order hadj hperm
    have hwp := Page.wp_forM_release (E := fun _ => False) (V := Alloc.Globals.toPage)
      (J := fun g' => g'.base_ptr = g.base_ptr)
      (f := fun i => Alloc.dealloc (g.base_ptr + Alloc.MINALLOC * i)) ?_
      (hperm.nodup_iff.2 hadj.nodup) (fun i hi => hadj.inside i (hperm.mem_iff.1 hi)) rfl rfl
    · obtain ⟨⟨⟩, g', hret, -, hfree⟩ := hwp.total
      exact ⟨g', hret, fun b => Page.get_free_start_idx_of_adjacent
        (by simp [Alloc.BLOCKS, PAGESIZE]) hadj fun i hi => hfree i (hperm.mem_iff.2 hi)⟩
    · intro i _ g' hJ hin
      rw [← hJ]
      exact Alloc.wp_dealloc_release i hin
  · intro g k lo hi blocks order hadj hperm hfind
    have hwp := Page.wp_forM_release (E := fun _ => False) (V := fun g' : Ealloc.Globals => g'.page k)
      (J := fun g' => g'.base_ptr = g.base_ptr)
      (f := fun i => Ealloc.dealloc (g.base_ptr k + Ealloc.MINALLOC * i)) ?_
      (hperm.nodup_iff.2 hadj.nodup) (fun i hi => hadj.inside i (hperm.mem_iff.1 hi)) rfl rfl
    · obtain ⟨⟨⟩, g', hret, -, hfree⟩ := hwp.total
      exact ⟨g', hret, fun b => Page.get_free_start_idx_of_adjacent
        (by simp [Ealloc.BLOCKS, PAGESIZE]) hadj fun i hi => hfree i (hperm.mem_iff.2 hi)⟩
    · intro i hi g' hJ hin
      have hfind' := hfind i (hperm.mem_iff.1 hi)
      rw [← hJ] at hfind' ⊢
      exact Ealloc.wp_dealloc_release hfind' hin

end Malloc

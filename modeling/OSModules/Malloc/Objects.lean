/-
  What clients read and write through their pointers: both allocators give them objects that do not
  share memory.
-/
import OSModules.Lib.Contents
import OSModules.Malloc.Fragmentation

namespace Malloc

open Runs Prog Regions CInt

/-- What a client does: it calls the allocator, or accesses a byte at an offset from a pointer. -/
inductive Act
  | call (c : Call)
  | write (ptr off : ℤ) (v : UInt8)
  | read (ptr off : ℤ) (v : UInt8)

/-- The offset is one of the region that `ptr` points to. -/
def InBounds (live : List (ℤ × ℤ)) (ptr off : ℤ) : Prop :=
  ∃ x ∈ live, x.1 = ptr ∧ 0 ≤ off ∧ off < x.2

/-- Clients of an allocator and the memory of the process. `keeps` says what becomes of the memory in a
call. Clients access only bytes of live regions. -/
def withMemory {σ : Type} (A : LTS (σ × List (ℤ × ℤ)) Call)
    (keeps : σ → σ → (ℤ → UInt8) → (ℤ → UInt8) → Prop) :
    LTS ((σ × List (ℤ × ℤ)) × (ℤ → UInt8)) Act where
  init s := A.init s.1
  step s act s' := match act with
    | .call c => A.step s.1 c s'.1 ∧ keeps s.1.1 s'.1.1 s.2 s'.2
    | .write ptr off v => InBounds s.1.2 ptr off ∧
        s' = (s.1, Function.update s.2 (ptr + off) v)
    | .read ptr off v => InBounds s.1.2 ptr off ∧ v = s.2 (ptr + off) ∧ s' = s

section
variable {σ : Type} {A : LTS (σ × List (ℤ × ℤ)) Call}
  {keeps : σ → σ → (ℤ → UInt8) → (ℤ → UInt8) → Prop} {s s' : σ × List (ℤ × ℤ)}
  {mem mem' : ℤ → UInt8} {ptr off : ℤ} {v : UInt8}

theorem withMemory_call {c : Call} (h : A.step s c s') (hmem : keeps s.1 s'.1 mem mem') :
    (withMemory A keeps).step (s, mem) (.call c) (s', mem') := ⟨h, hmem⟩

theorem withMemory_write (hin : InBounds s.2 ptr off) (v : UInt8) :
    (withMemory A keeps).step (s, mem) (.write ptr off v)
      (s, Function.update mem (ptr + off) v) := ⟨hin, rfl⟩

theorem withMemory_read (hin : InBounds s.2 ptr off) (hv : v = mem (ptr + off)) :
    (withMemory A keeps).step (s, mem) (.read ptr off v) (s, mem) := ⟨hin, hv, rfl⟩

end

/-- What clients see: a store of objects, each with contents of its own. A byte that was not written
since the request can have any value. -/
def objects : LTS (List (Object UInt8)) Act where
  init os := os = []
  step os act os' := match act with
    | .call (.alloc req_len ret) =>
        os' = if ret = NULL then os else os ++ [Object.fresh ret req_len]
    | .call (.dealloc ptr) => os' = os.eraseP fun o => o.ptr = ptr
    | .write ptr off v => (∃ o ∈ os, o.At ptr off) ∧ os' = writeTo os ptr off v
    | .read ptr off v => (∃ o ∈ os, o.At ptr off ∧ (o.contents off = none ∨ o.contents off = some v)) ∧
        os' = os

/-- The objects are those at the live pointers, and the memory holds what was written to them. -/
structure Shows (live : List (ℤ × ℤ)) (mem : ℤ → UInt8) (os : List (Object UInt8)) : Prop where
  live_eq : live = os.map Object.bytes
  agrees : Agrees mem os

variable {live live' : List (ℤ × ℤ)} {mem mem' : ℤ → UInt8} {os : List (Object UInt8)}

theorem Shows.exists_at (h : Shows live mem os) {ptr off : ℤ} (hin : InBounds live ptr off) :
    ∃ o ∈ os, o.At ptr off := by
  obtain ⟨x, hx, hptr, hoff⟩ := hin
  rw [h.live_eq] at hx
  obtain ⟨o, ho, rfl⟩ := List.mem_map.1 hx
  exact ⟨o, ho, hptr, hoff⟩

/-- A call, as the clients see it. -/
theorem Shows.call (h : Shows live mem os) (c : Call)
    (hkeep : ∀ x ∈ live, ∀ a, Owns x a → mem' a = mem a) :
    ∃ os', objects.step os (.call c) os' ∧ Shows (hold live c) mem' os' := by
  have hagrees : Agrees mem' os := by
    refine h.agrees.kept ?_
    intro o ho
    refine hkeep o.bytes ?_
    rw [h.live_eq]
    exact List.mem_map_of_mem ho
  cases c with
  | alloc n ret =>
    refine ⟨_, rfl, ?_, ?_⟩
    · rw [hold]
      split
      · exact h.live_eq
      · rw [List.map_append, ← h.live_eq]
        rfl
    · split
      · exact hagrees
      · exact hagrees.fresh ret n
  | dealloc ptr =>
    refine ⟨_, rfl, ?_, hagrees.of_subset fun o ho => List.mem_of_mem_eraseP ho⟩
    rw [hold, h.live_eq, List.eraseP_map]
    rfl

/-- If live regions are disjoint and calls keep what is in them, clients see a store of objects. -/
theorem objects_of_run {σ : Type} {A : LTS (σ × List (ℤ × ℤ)) Call}
    {keeps : σ → σ → (ℤ → UInt8) → (ℤ → UInt8) → Prop}
    (hinit : ∀ s, A.init s → s.2 = []) (hstep : ∀ s c s', A.step s c s' → s'.2 = hold s.2 c)
    (hdisj : ∀ s, A.Reachable s → s.2.Pairwise Disjoint)
    (hkeeps : ∀ s c s', A.Reachable s → A.step s c s' → ∀ mem mem', keeps s.1 s'.1 mem mem' →
      ∀ x ∈ s.2, ∀ a, Owns x a → mem' a = mem a)
    {tr : List Act} {s : (σ × List (ℤ × ℤ)) × (ℤ → UInt8)} (hrun : (withMemory A keeps).Run tr s) :
    ∃ os, objects.Run tr os ∧ s.1.2 = os.map Object.bytes := by
  have hmain : A.Reachable s.1 ∧ ∃ os, objects.Run tr os ∧ Shows s.1.2 s.2 os := by
    refine hrun.invariant (I := fun tr s => A.Reachable s.1 ∧
      ∃ os, objects.Run tr os ∧ Shows s.1.2 s.2 os) ?_ ?_
    · intro s hs
      exact ⟨.init hs, [], .init rfl, hinit s.1 hs, .nil⟩
    · rintro tr ⟨⟨g, live⟩, mem⟩ act ⟨⟨g', live'⟩, mem'⟩ ⟨hreach, os, hos, hshows⟩ hact
      cases act with
      | call c =>
        obtain ⟨hcall, hmem⟩ := hact
        obtain rfl : live' = hold live c := hstep _ c _ hcall
        obtain ⟨os', hos', hshows'⟩ := hshows.call c (hkeeps _ c _ hreach hcall mem mem' hmem)
        exact ⟨hreach.step hcall, os', hos.step hos', hshows'⟩
      | write ptr off v =>
        obtain ⟨hin, heq⟩ := hact
        cases heq
        obtain ⟨o, ho, hat⟩ := hshows.exists_at hin
        have hapart : (os.map Object.bytes).Pairwise Disjoint := by
          rw [← hshows.live_eq]
          exact hdisj _ hreach
        refine ⟨hreach, _, hos.step ⟨⟨o, ho, hat⟩, rfl⟩, ?_, hshows.agrees.writeTo hapart ho hat v⟩
        rw [bytes_writeTo]
        exact hshows.live_eq
      | read ptr off v =>
        obtain ⟨hin, rfl, heq⟩ := hact
        cases heq
        obtain ⟨o, ho, hat⟩ := hshows.exists_at hin
        refine ⟨hreach, os, hos.step ⟨⟨o, ho, hat, ?_⟩, rfl⟩, hshows⟩
        obtain ⟨rfl, hoff⟩ := hat
        cases hc : o.contents off with
        | none => exact Or.inl rfl
        | some w =>
          rw [hshows.agrees o ho off w ⟨rfl, hoff⟩ hc]
          exact Or.inr rfl
  obtain ⟨-, os, hos, hshows⟩ := hmain
  exact ⟨os, hos, hshows.live_eq⟩

/-! ## The two allocators -/

/-- The functions of `alloc.c` do not write to the page that it manages. -/
def Alloc.keeps (_ _ : Alloc.Globals) (mem mem' : ℤ → UInt8) : Prop := mem' = mem

/-- The functions of `ealloc.c` do not write to the pages that it manages. A page that `alloc` maps
is zero. -/
def Ealloc.keeps (g g' : Ealloc.Globals) (mem mem' : ℤ → UInt8) : Prop :=
  ∀ k a, g'.base_ptr k ≠ NULL → g'.base_ptr k ≤ a → a < g'.base_ptr k + PAGESIZE →
    mem' a = if g.base_ptr k = NULL then 0 else mem a

/-- Clients of `alloc.c` whose requests have a size. -/
def Alloc.sized (mmap : ℕ → ℤ) : LTS (Alloc.Globals × List (ℤ × ℤ)) Call :=
  (clients (Alloc.Initial mmap) Alloc.alloc Alloc.dealloc).guard fun s => Alloc.Sized s.1

/-- Clients of `ealloc.c` whose requests have a size. -/
def Ealloc.sized (mmap : ℕ → ℤ) : LTS (Ealloc.Globals × List (ℤ × ℤ)) Call :=
  (clients Ealloc.Initial (Ealloc.alloc mmap) Ealloc.dealloc).guard fun s => Ealloc.Sized s.1

/-- Calls keep what is in the live regions, which lie in mapped pages. -/
theorem Ealloc.kept_of_keeps {mmap : ℕ → ℤ} (hm : Ealloc.Layout mmap)
    {s s' : Ealloc.Globals × List (ℤ × ℤ)} (hs : (Ealloc.sized mmap).Reachable s) {c : Call}
    (hstep : (Ealloc.sized mmap).step s c s') (hmem : Ealloc.keeps s.1 s'.1 mem mem') {x : ℤ × ℤ}
    (hx : x ∈ s.2) {a : ℤ} (ha : Owns x a) : mem' a = mem a := by
  obtain ⟨g, live⟩ := s
  obtain ⟨h, hinv⟩ := Ealloc.inv_of_sized hm.mmapResults hs (hm.clear _)
  have hok := hm.mmapResults.mmapOk
  have hkept := Ealloc.kept_of_reachable hok hs.of_guard
  obtain ⟨hkept', hle, -⟩ := hkept.step hok hstep.2
  rw [hinv.live_eq] at hx
  obtain ⟨r, hr, rfl⟩ := List.mem_map.1 hx
  have hk := hinv.rep.mapped r hr
  have hbase : s'.1.base_ptr r.arena = mmap r.arena := hkept'.grown.base_ptr_eq (hk.trans_le hle)
  have hin : mmap r.arena ≤ (r.bytes (Ealloc.base mmap) Ealloc.MINALLOC).1 ∧
      (r.bytes (Ealloc.base mmap) Ealloc.MINALLOC).1 +
        (r.bytes (Ealloc.base mmap) Ealloc.MINALLOC).2 ≤ mmap r.arena + PAGESIZE :=
    bytes_inside (by decide) hr
  have hkeep := hmem r.arena a (by rw [hbase]; exact hok.ne_null _)
    (by rw [hbase]; exact hin.1.trans ha.1) (by rw [hbase]; exact ha.2.trans_le hin.2)
  rw [hkeep, if_neg]
  exact (hinv.rep.base_ptr_ne hok.ne_null).2 hk

/-- Whatever the clients of either allocator do with requests of a size, live pointers and offsets in
bounds, they see a store of objects that do not share memory. -/
theorem clients_see_objects {mmap mmap' : ℕ → ℤ} (hm : Alloc.MmapOk mmap)
    (hm' : Ealloc.Layout mmap') :
    (∀ tr s, (withMemory (Alloc.sized mmap) Alloc.keeps).Run tr s →
      ∃ os, objects.Run tr os ∧ s.1.2 = os.map Object.bytes) ∧
    ∀ tr s, (withMemory (Ealloc.sized mmap') Ealloc.keeps).Run tr s →
      ∃ os, objects.Run tr os ∧ s.1.2 = os.map Object.bytes := by
  constructor
  · intro tr s hrun
    refine objects_of_run (A := Alloc.sized mmap) (fun s hs => hs.2) (fun s c s' hs => hs.2.2.2) ?_ ?_ hrun
    · rintro ⟨g, live⟩ hs
      obtain ⟨-, h, hinv⟩ := Alloc.inv_of_sized hm hs
      rw [hinv.live_eq]
      exact (Alloc.placed g.base_ptr).disjoint
    · rintro s c s' - - mem mem' rfl x - a -
      rfl
  · intro tr s hrun
    refine objects_of_run (A := Ealloc.sized mmap') (fun s hs => hs.2) (fun s c s' hs => hs.2.2.2) ?_ ?_ hrun
    · rintro ⟨g, live⟩ hs
      obtain ⟨h, hinv⟩ := Ealloc.inv_of_sized hm'.mmapResults hs (hm'.clear _)
      rw [hinv.live_eq]
      exact hm'.placed.disjoint
    · intro s c s' hs hstep mem mem' hmem x hx a ha
      exact Ealloc.kept_of_keeps hm' hs hstep hmem hx ha

/-- A byte that is written to the third block of a region of `alloc.c`, and read; and one of
`ealloc.c`, with a request in between for which a page is mapped. -/
theorem clients_see_objects_byte :
    (∃ os, objects.Run [.call (.alloc 32 4096), .write 4096 17 7, .read 4096 17 7] os ∧
      os.map Object.bytes = [(4096, 32)]) ∧
    ∃ os, objects.Run [.call (.alloc 256 4096), .write 4096 255 7, .call (.alloc 4096 8192),
      .read 4096 255 7] os ∧ os.map Object.bytes = [(4096, 256), (8192, 4096)] := by
  have h : ∃ g₁, Returns (Alloc.alloc 32) ⟨Page.fresh, 4096, 1⟩ 4096 g₁ ∧ g₁.mmaps = 1 := by
    decide +kernel
  have h' : ∃ g₁, Returns (Ealloc.alloc (fun k => 4096 * (k + 1)) 256) .init 4096 g₁ ∧
      ∃ g₂, Returns (Ealloc.alloc (fun k => 4096 * (k + 1)) 4096) g₁ 8192 g₂ ∧
        g₁.base_ptr 0 ≠ NULL ∧ ∀ k ≠ 0, g₂.base_ptr k = NULL ∨ g₂.base_ptr k = 8192 := by
    decide +kernel
  obtain ⟨g₁, h₁, -⟩ := h
  obtain ⟨g₁', h₁', g₂', h₂', hfirst, hothers⟩ := h'
  have hm : Alloc.MmapOk fun _ => 4096 := fun _ => Or.inr (show (0 : ℤ) < 4096 by decide)
  obtain ⟨hobjects, hobjects'⟩ := clients_see_objects hm Ealloc.layout_row
  constructor
  · have hin : InBounds [(4096, 32)] 4096 17 := ⟨_, List.mem_cons_self, rfl, by decide, by decide⟩
    have r₀ : (withMemory (Alloc.sized fun _ => 4096) Alloc.keeps).Run []
        ((⟨Page.fresh, 4096, 1⟩, []), fun _ => 0) :=
      .init ⟨Alloc.initial_iff.2 ⟨0, by decide, rfl⟩, rfl⟩
    have r₁ := r₀.step (withMemory_call
      (Alloc.sized_alloc (by decide) (by decide) (by decide) h₁ []) rfl)
    have r₂ := r₁.step (withMemory_write hin 7)
    have r₃ := r₂.step (withMemory_read (v := 7) hin (by simp))
    obtain ⟨os, hos, hlive⟩ := hobjects _ _ r₃
    exact ⟨os, hos, hlive.symm⟩
  · have hin : InBounds [(4096, 256)] 4096 255 := ⟨_, List.mem_cons_self, rfl, by decide, by decide⟩
    have hin' : InBounds [(4096, 256), (8192, 4096)] 4096 255 :=
      ⟨_, List.mem_cons_self, rfl, by decide, by decide⟩
    have hzero : Ealloc.keeps .init g₁' (fun _ => 0) fun _ => 0 :=
      fun _ _ _ _ _ => (ite_self _).symm
    -- the page that is mapped lies behind the byte
    have hkeep : Ealloc.keeps g₁' g₂' (Function.update (fun _ => 0) (4096 + 255) 7)
        (Function.update (fun _ => 0) (4096 + 255) 7) := by
      intro k a hk hlo _
      split
      · next hnull =>
        have hne : k ≠ 0 := by
          rintro rfl
          exact hfirst hnull
        have hbase := (hothers k hne).resolve_left hk
        exact Function.update_of_ne (by omega) _ _
      · rfl
    have r₀ : (withMemory (Ealloc.sized fun k => 4096 * (k + 1)) Ealloc.keeps).Run []
        ((.init, []), fun _ => 0) := .init ⟨Ealloc.initial_init, rfl⟩
    have r₁ := r₀.step (withMemory_call
      (Ealloc.sized_alloc (by decide) (by decide) (by decide) h₁' []) hzero)
    have r₂ := r₁.step (withMemory_write hin 7)
    have r₃ := r₂.step (withMemory_call
      (Ealloc.sized_alloc (by decide) (by decide) (by decide) h₂' _) hkeep)
    have r₄ := r₃.step (withMemory_read (v := 7) hin' (by simp))
    obtain ⟨os, hos, hlive⟩ := hobjects' _ _ r₄
    exact ⟨os, hos, hlive.symm⟩

end Malloc

/-
  What masters do to the circular buffer. While no master comes to its section after the last
  item is stored, items are stored in free slots and consumed in order; a single master never
  comes there.
-/
import OSModules.MasterWorker.Basic

namespace MasterWorker

open Runs Monitor

variable {T : Type} {a : Args} {role : T → Role} {spurious : Prop} {t : T} {p : Loc}
  {s s' : Shared T}

/-- No item is stored in a slot whose item was not consumed. -/
def NeverOverwrites (l : List (Line T)) : Prop :=
  Along (fun pre x => ∀ (i : ℤ) k t, x = .produced i k t → held pre k = none) l

/-- The first `total_items` items that are consumed are 0, 1, 2, …, each of which was produced. -/
def ConsumesInOrder (a : Args) (l : List (Line T)) : Prop :=
  Along (fun pre x => ∀ (i : ℤ) k t, x = .consumed i k t → ((consumed pre).length : ℤ) < a.total_items →
    i = (consumed pre).length ∧ i ∈ produced pre) l

/-! ## Masters that stop in time -/

section
variable {f : ℕ → Option ℤ} {lo hi n : ℕ}
  (h : ∀ k i, f k = some i ↔ ∃ c : ℕ, (lo ≤ c ∧ c < hi) ∧ k = c % n ∧ i = c)
include h

/-- The next number goes to a slot that none of the others is in. -/
theorem slots_store (hle : lo ≤ hi) (hroom : hi < lo + n) (k : ℕ) (i : ℤ) :
    Function.update f (hi % n) (some (hi : ℤ)) k = some i ↔
      ∃ c : ℕ, (lo ≤ c ∧ c < hi + 1) ∧ k = c % n ∧ i = c := by
  by_cases hk : k = hi % n
  · subst hk
    rw [Function.update_self, Option.some.injEq]
    constructor
    · rintro rfl
      exact ⟨hi, ⟨hle, Nat.lt_succ_self _⟩, rfl, rfl⟩
    · rintro ⟨c, ⟨hlo, hc⟩, hmod, rfl⟩
      rw [eq_of_mod_eq hmod (by omega) (by omega)]
  · rw [Function.update_of_ne hk, h]
    constructor
    · rintro ⟨c, ⟨hlo, hc⟩, hmod, hic⟩
      exact ⟨c, ⟨hlo, by omega⟩, hmod, hic⟩
    · rintro ⟨c, ⟨hlo, hc⟩, hmod, hic⟩
      refine ⟨c, ⟨hlo, ?_⟩, hmod, hic⟩
      have hne : c ≠ hi := by
        rintro rfl
        exact hk hmod
      omega

/-- The first number leaves its slot. -/
theorem slots_take (hwindow : hi ≤ lo + n) (k : ℕ) (i : ℤ) :
    Function.update f (lo % n) none k = some i ↔
      ∃ c : ℕ, (lo + 1 ≤ c ∧ c < hi) ∧ k = c % n ∧ i = c := by
  by_cases hk : k = lo % n
  · subst hk
    rw [Function.update_self]
    constructor
    · exact nofun
    · rintro ⟨c, ⟨hlo, hc⟩, hmod, -⟩
      have heq := eq_of_mod_eq hmod (by omega) (by omega)
      omega
  · rw [Function.update_of_ne hk, h]
    constructor
    · rintro ⟨c, ⟨hlo, hc⟩, hmod, hic⟩
      refine ⟨c, ⟨?_, hc⟩, hmod, hic⟩
      have hne : c ≠ lo := by
        rintro rfl
        exact hk hmod
      omega
    · rintro ⟨c, ⟨hlo, hc⟩, hmod, hic⟩
      exact ⟨c, ⟨by omega, hc⟩, hmod, hic⟩

end

/-- The items in the buffer are those produced and not consumed, each in its slot; and nothing is
taken from the empty buffer before all items are produced. -/
structure InOrder (a : Args) (s : Shared T) : Prop where
  counters : Counters a s
  total : s.item_to_produce ≤ a.total_items.toNat
  order : s.item_to_consume ≤ s.item_to_produce ∨ a.total_items ≤ s.item_to_produce
  window : s.item_to_produce ≤ s.item_to_consume + a.max_buf_size
  slots : ∀ k i, held s.printed k = some i ↔ ∃ c : ℕ,
    (s.item_to_consume ≤ c ∧ c < s.item_to_produce) ∧ k = c % a.max_buf_size ∧ i = c
  buffer : ∀ c, s.item_to_consume ≤ c → c < s.item_to_produce → s.buffer (c % a.max_buf_size) = c
  free : NeverOverwrites s.printed
  first : ConsumesInOrder a s.printed

theorem InOrder.init (h : Init s) : InOrder a s := by
  have hc := Counters.init (a := a) h
  obtain ⟨buffer, rfl⟩ := h
  refine ⟨hc, Nat.zero_le _, Or.inl le_rfl, Nat.zero_le _, ?_, ?_, .nil, .nil⟩
  · intro k i
    constructor
    · exact nofun
    · rintro ⟨c, ⟨-, hc⟩, -⟩
      exact absurd hc (Nat.not_lt_zero c)
  · intro c _ hc
    exact absurd hc (Nat.not_lt_zero c)

/-- Another item goes to a free slot. -/
theorem InOrder.store (h : InOrder a s) (hlt : (s.item_to_produce : ℤ) < a.total_items)
    (hgo : ¬ (s.curr_buf_size = a.max_buf_size ∧ s.item_to_produce < a.total_items)) (t : T) :
    InOrder a (store a t s) := by
  have hcurr := h.counters.curr
  have hwindow := h.window
  have horder : s.item_to_consume ≤ s.item_to_produce :=
    h.order.resolve_right (not_le.2 hlt)
  have hroom : s.item_to_produce < s.item_to_consume + a.max_buf_size := by
    by_contra hfull
    exact hgo ⟨by omega, hlt⟩
  refine ⟨h.counters.store t, ?_, ?_, ?_, ?_, ?_, ?_, ?_⟩
  · show s.item_to_produce + 1 ≤ _
    omega
  · show s.item_to_consume ≤ s.item_to_produce + 1 ∨ _
    exact Or.inl (by omega)
  · show s.item_to_produce + 1 ≤ _
    exact hroom
  · intro k i
    show _ ↔ ∃ c : ℕ, (s.item_to_consume ≤ c ∧ c < s.item_to_produce + 1) ∧ _
    rw [held_store, h.counters.add]
    exact slots_store h.slots horder hroom k i
  · intro c (hle : s.item_to_consume ≤ c) (hc : c < s.item_to_produce + 1)
    show Function.update s.buffer s.add _ _ = _
    rw [h.counters.add]
    by_cases hcp : c = s.item_to_produce
    · rw [hcp, Function.update_self]
    · rw [Function.update_of_ne, h.buffer c hle (by omega)]
      intro hmod
      exact hcp (eq_of_mod_eq hmod (by omega) (by omega))
  · refine h.free.snoc ?_
    rintro i k u ⟨⟩
    -- a slot that holds an item is in use
    cases hheld : held s.printed s.add with
    | none => rfl
    | some j =>
      obtain ⟨c, ⟨hle, hc⟩, hmod, -⟩ := (h.slots _ _).1 hheld
      rw [h.counters.add] at hmod
      have heq := eq_of_mod_eq hmod (by omega) (by omega)
      omega
  · refine h.first.snoc ?_
    rintro i k u ⟨⟩

/-- The next item is taken, or a free slot is read when all items are produced. -/
theorem InOrder.take (h : InOrder a s)
    (hgo : ¬ (s.curr_buf_size = 0 ∧ s.item_to_consume < a.total_items)) (t : T) :
    InOrder a (take a t s) := by
  have hcurr := h.counters.curr
  have hwindow := h.window
  have hnext : (s.item_to_consume : ℤ) < a.total_items → s.item_to_consume < s.item_to_produce := by
    intro hlt
    have hne : s.curr_buf_size ≠ 0 := fun hzero => hgo ⟨hzero, hlt⟩
    rcases h.order with horder | hend
    · omega
    · omega
  refine ⟨h.counters.take t, h.total, ?_, ?_, ?_, ?_, ?_, ?_⟩
  · show s.item_to_consume + 1 ≤ s.item_to_produce ∨ _
    by_cases hlt : (s.item_to_consume : ℤ) < a.total_items
    · exact Or.inl (hnext hlt)
    · refine Or.inr ?_
      show a.total_items ≤ s.item_to_produce
      rcases h.order with horder | hend
      · omega
      · exact hend
  · show _ ≤ s.item_to_consume + 1 + _
    exact h.window.trans (by omega)
  · intro k i
    show _ ↔ ∃ c : ℕ, (s.item_to_consume + 1 ≤ c ∧ c < s.item_to_produce) ∧ _
    rw [held_take, h.counters.rem]
    exact slots_take h.slots hwindow k i
  · intro c (hle : s.item_to_consume + 1 ≤ c) (hc : c < s.item_to_produce)
    exact h.buffer c (by omega) hc
  · refine h.free.snoc ?_
    rintro i k u ⟨⟩
  · refine h.first.snoc ?_
    rintro i k u ⟨⟩ hlt
    rw [h.counters.consumed] at hlt ⊢
    have hlt' := hnext hlt
    refine ⟨?_, ?_⟩
    · rw [h.counters.rem]
      exact h.buffer _ le_rfl hlt'
    · rw [h.counters.rem, h.buffer _ le_rfl hlt', h.counters.produced]
      exact List.mem_map.2 ⟨_, List.mem_range.2 hlt', rfl⟩

/-- Turns keep the order while masters come to their sections in time. -/
theorem InOrder.effect (h : InOrder a s) (he : Effect a role t p s s')
    (hlt : role t = .master → p = .enter ∨ p = .loop → (s.item_to_produce : ℤ) < a.total_items) :
    InOrder a s' := by
  cases he with
  | none => exact h
  | store hrole hp hgo => exact h.store (hlt hrole hp) hgo t
  | take _ _ hgo => exact h.take hgo t

variable [DecidableEq T]

/-- No master comes to its section when all items are produced. -/
def MastersInTime (a : Args) (role : T → Role) (s : Config T (Shared T) Cond Loc) (l : Label T) :
    Prop :=
  ∀ t, l = .turn t → role t = .master → s.thread t = .run .enter ∨ s.thread t = .run .loop →
    (s.shared.item_to_produce : ℤ) < a.total_items

theorem inOrder_step {s s' : Config T (Shared T) Cond Loc} {l : Label T} (h : InOrder a s.shared)
    (htime : MastersInTime a role s l) (hstep : (threads a role spurious).step s l s') :
    InOrder a s'.shared := by
  rcases step_effect hstep with hs | ⟨t, p, rfl, ht, he⟩
  · rwa [hs]
  · refine h.effect he ?_
    intro hrole hp
    refine htime t rfl hrole ?_
    rw [ht]
    exact hp.imp (congrArg _) (congrArg _)

/-- At most `total_items` items are produced, which fit into the buffer. -/
def ProducesInBounds (a : Args) (s : Shared T) : Prop :=
  (produced s.printed).length ≤ a.total_items.toNat ∧ s.curr_buf_size ≤ a.max_buf_size ∧
    NeverOverwrites s.printed

omit [DecidableEq T] in
theorem InOrder.producesInBounds (h : InOrder a s) : ProducesInBounds a s := by
  refine ⟨?_, ?_, h.free⟩
  · rw [h.counters.produced]
    simpa using h.total
  · have hwindow := h.window
    rw [h.counters.curr]
    omega

omit [DecidableEq T] in
/-- A master goes to its section, or to sleep, when not all items are produced. -/
theorem code_busy {s : Shared T} {o : Section T} (hrole : role t = .master)
    (ho : o ∈ code a role t p s) (hbusy : Busy o.thread) :
    (o.shared.item_to_produce : ℤ) < a.total_items := by
  rw [code, hrole] at ho
  rcases round_cases ho with ⟨-, rfl⟩ | ⟨-, rfl⟩ | ⟨-, rfl⟩
  · by_contra hend
    simp only [if_neg hend] at hbusy
    exact absurd (busy_run.1 hbusy) (by simp)
  · split at hbusy
    · next hwait => rw [if_pos hwait]; exact hwait.2
    · exact absurd (busy_run.1 hbusy) (by simp)
  · exact absurd (busy_run.1 hbusy) (by simp)

/-- A single master does not come to its section when all items are produced. -/
theorem inOrder_of_single (hone : ∀ t u, role t = .master → role u = .master → t = u)
    {s : Config T (Shared T) Cond Loc} (hs : (threads a role spurious).Reachable s) :
    InOrder a s.shared ∧ ∀ t, role t = .master → Busy (s.thread t) →
      (s.shared.item_to_produce : ℤ) < a.total_items := by
  refine hs.invariant (I := fun s => InOrder a s.shared ∧ ∀ t, role t = .master →
    Busy (s.thread t) → (s.shared.item_to_produce : ℤ) < a.total_items) ?_ ?_
  · rintro s ⟨hinit, hstart⟩
    refine ⟨.init hinit, ?_⟩
    intro t _ hbusy
    rw [hstart t] at hbusy
    exact absurd (busy_run.1 hbusy) (by simp)
  · rintro s l s' ⟨horder, hbusy⟩ hstep
    have htime : MastersInTime a role s l := by
      rintro t - hrole (hp | hp)
      · exact hbusy t hrole (Or.inl hp)
      · exact hbusy t hrole (Or.inr (Or.inl hp))
    refine ⟨inOrder_step horder htime hstep, ?_⟩
    intro u hu hub
    rcases hstep.thread u with ⟨hturn, hother⟩ | ⟨p, o, ho, -, -, hshared, hthread⟩
    · -- a thread that another one's step leaves busy was busy
      have hlt : (s.shared.item_to_produce : ℤ) < a.total_items := by
        rcases hother with hsame | ⟨c, p, hsleep, -⟩
        · rw [hsame] at hub
          exact hbusy u hu hub
        · exact hbusy u hu (Or.inr (Or.inr ⟨c, p, hsleep⟩))
      rcases step_effect hstep with hs | ⟨t, p, rfl, ht, he⟩
      · rwa [hs]
      · generalize s'.shared = x at he
        cases he with
        | none => exact hlt
        | store hrole =>
          obtain rfl := hone t u hrole hu
          exact absurd rfl hturn
        | take => exact hlt
    · rw [hthread] at hub
      rw [hshared]
      exact code_busy hu ho hub

/-- With one master, the items 0, 1, 2, … are produced in order and no more than `total_items`, none
of them is overwritten, and the first `total_items` that are consumed are 0, 1, 2, …, each after it
was produced. -/
theorem single_master_in_order (a : Args) (role : T → Role) (spurious : Prop)
    (hone : ∀ t u, role t = .master → role u = .master → t = u)
    {s : Config T (Shared T) Cond Loc} (hs : (threads a role spurious).Reachable s) :
    (∃ n : ℕ, n ≤ a.total_items.toNat ∧ produced s.shared.printed = (List.range n).map (↑)) ∧
      NeverOverwrites s.shared.printed ∧ ConsumesInOrder a s.shared.printed := by
  obtain ⟨horder, -⟩ := inOrder_of_single hone hs
  exact ⟨⟨_, horder.total, horder.counters.produced⟩, horder.free, horder.first⟩

/-- One master and two workers: one of them waits, is woken for nothing and waits again, and takes
the second item. -/
theorem single_master_in_order_two_workers :
    ∃ s : Config (Fin 3) (Shared (Fin 3)) Cond Loc, produced s.shared.printed = [0, 1] ∧
      consumed s.shared.printed = [0, 1] ∧ NeverOverwrites s.shared.printed ∧
      ConsumesInOrder ⟨2, 1, one_pos⟩ s.shared.printed := by
  let a : Args := ⟨2, 1, one_pos⟩
  let role : Fin 3 → Role := fun t => if t = 0 then .master else .worker
  have h₀ : (threads a role True).Reachable ⟨⟨0, 0, 0, 0, 0, fun _ => 0, []⟩, fun _ => .run .test⟩ :=
    .init ⟨⟨_, rfl⟩, fun _ => rfl⟩
  have h₁ := h₀.step (.turn (t := 1) rfl List.mem_cons_self .nil)
  have h₂ := h₁.step (.turn (t := 1) (o := ⟨_, [], .asleep .is_empty .loop⟩) rfl
    List.mem_cons_self .nil)
  have h₃ := h₂.step (.spurious (t := 1) trivial rfl)
  have h₄ := h₃.step (.turn (t := 1) (o := ⟨_, [], .asleep .is_empty .loop⟩) rfl
    List.mem_cons_self .nil)
  have h₅ := h₄.step (.turn (t := 0) rfl List.mem_cons_self .nil)
  have h₆ := h₅.step (.turn (t := 0) (o := ⟨store a 0 _, [], .run .signal⟩) rfl
    List.mem_cons_self .nil)
  have h₇ := h₆.step (.turn (t := 0) rfl List.mem_cons_self (.signal (t := 1) rfl .nil))
  -- the other worker is first, and the master goes on
  have h₈ := h₇.step (.turn (t := 2) rfl List.mem_cons_self .nil)
  have h₉ := h₈.step (.turn (t := 2) (o := ⟨take a 2 _, [], .run .signal⟩) rfl
    List.mem_cons_self .nil)
  have h₁₀ := h₉.step (.turn (t := 0) rfl List.mem_cons_self .nil)
  have h₁₁ := h₁₀.step (.turn (t := 0) (o := ⟨store a 0 _, [], .run .signal⟩) rfl
    List.mem_cons_self .nil)
  have h₁₂ := h₁₁.step (.turn (t := 1) (o := ⟨take a 1 _, [], .run .signal⟩) rfl
    List.mem_cons_self .nil)
  obtain ⟨-, hfree, hfirst⟩ := single_master_in_order a role True (by decide) h₁₂
  exact ⟨_, by decide, by decide, hfree, hfirst⟩

end MasterWorker

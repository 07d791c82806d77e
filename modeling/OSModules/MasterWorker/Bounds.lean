/-
  How far masters and workers go beyond the number of items, and how long they run. When the
  last item is handled, each other thread of the kind may be on its way to one item more.
-/
import OSModules.MasterWorker.Stuck

namespace MasterWorker

open Runs Monitor

variable {T : Type} {a : Args} {role : T → Role} {spurious : Prop} {t : T} {p : Loc} {r : Role}

/-- How many items the threads of a kind handled. -/
def Shared.handled (s : Shared T) : Role → ℕ
  | .master => s.item_to_produce
  | .worker => s.item_to_consume

/-- How many items `n` threads of a kind handle at most. -/
def most (a : Args) (n : ℕ) : ℕ := if 0 < a.total_items then a.total_items.toNat + (n - 1) else 0

theorem left_iff {s : Shared T} : Left a s r ↔ (s.handled r : ℤ) < a.total_items := by
  cases r <;> rfl

theorem Blocked.left {s : Shared T} (h : Blocked a s r) : Left a s r := by
  cases r with
  | master => exact h.2
  | worker => exact h.2

theorem handled_act (s : Shared T) (t : T) (q : Role) :
    (r.act a t s).handled q = s.handled q + if q = r then 1 else 0 := by
  cases r <;> cases q <;> rfl

/-- A master that goes on when all items are produced does so whatever the buffer holds, and so does
a worker. -/
structure Window (a : Args) (s : Shared T) : Prop where
  counters : Counters a s
  above : s.item_to_produce ≤ s.item_to_consume + a.max_buf_size ∨
    a.total_items ≤ s.item_to_consume + a.max_buf_size
  below : s.item_to_consume ≤ s.item_to_produce ∨ a.total_items ≤ s.item_to_produce

theorem Window.act {s : Shared T} (h : Window a s) (hgo : ¬ Blocked a s r) (t : T) :
    Window a (r.act a t s) := by
  have hcurr := h.counters.curr
  have habove := h.above
  have hbelow := h.below
  cases r with
  | master =>
    refine ⟨h.counters.store t, ?_, ?_⟩
    · show s.item_to_produce + 1 ≤ s.item_to_consume + _ ∨ a.total_items ≤ s.item_to_consume + _
      simp only [Blocked] at hgo
      omega
    · show s.item_to_consume ≤ s.item_to_produce + 1 ∨ a.total_items ≤ ((s.item_to_produce + 1 : ℕ) : ℤ)
      omega
  | worker =>
    refine ⟨h.counters.take t, ?_, ?_⟩
    · show s.item_to_produce ≤ s.item_to_consume + 1 + _ ∨
        a.total_items ≤ ((s.item_to_consume + 1 : ℕ) : ℤ) + _
      omega
    · show s.item_to_consume + 1 ≤ s.item_to_produce ∨ a.total_items ≤ (s.item_to_produce : ℤ)
      simp only [Blocked] at hgo
      omega

variable [DecidableEq T] [Fintype T] {s s' : Config T (Shared T) Cond Loc}

instance : DecidablePred Busy
  | .run _ => decidable_of_iff _ busy_run.symm
  | .asleep c p => isTrue (Or.inr (Or.inr ⟨c, p, rfl⟩))

theorem busy_asleep (c : Cond) (p : Loc) : Busy (.asleep c p) := Or.inr (Or.inr ⟨c, p, rfl⟩)

theorem busy_loop : Busy (.run .loop) := Or.inr (Or.inl rfl)

theorem not_busy_test : ¬ Busy (.run .test) := by
  rw [busy_run]
  simp

theorem not_busy_signal : ¬ Busy (.run .signal) := by
  rw [busy_run]
  simp

theorem not_busy_finished : ¬ Busy (.run .finished) := by
  rw [busy_run]
  simp

/-- How many threads of a kind are in their sections or asleep. -/
def busy (role : T → Role) (r : Role) (f : T → Thread Cond Loc) : ℕ :=
  count (fun t x => role t = r ∧ Busy x) f

omit [DecidableEq T] in
theorem busy_lt_number {f : T → Thread Cond Loc} (hr : role t = r) (ht : ¬ Busy (f t)) :
    busy role r f < number role r := by
  rw [busy, count, number, Finset.card_filter]
  refine Finset.sum_lt_sum (fun u _ => ?_) ⟨t, Finset.mem_univ t, ?_⟩
  · split_ifs with h₁ h₂
    · exact le_rfl
    · exact absurd h₁.1 h₂
    · exact Nat.zero_le _
    · exact le_rfl
  · rw [if_neg fun h => ht h.2, if_pos hr]
    exact one_pos

/-- The threads of a kind together handle no more items than they may: those that are busy when
nothing is left are counted. -/
structure Late (a : Args) (role : T → Role) (s : Config T (Shared T) Cond Loc) : Prop where
  window : Window a s.shared
  room : ∀ r, Left a s.shared r ∨ s.shared.handled r + busy role r s.thread ≤ most a (number role r)

theorem Late.init (h : (threads a role spurious).init s) : Late a role s := by
  obtain ⟨hinit, hstart⟩ := h
  have hcounters := Counters.init (a := a) hinit
  obtain ⟨buffer, hs⟩ := hinit
  refine ⟨⟨hcounters, ?_, ?_⟩, ?_⟩
  · rw [hs]
    exact Or.inl (Nat.zero_le _)
  · rw [hs]
    exact Or.inl le_rfl
  · intro r
    have hzero : s.shared.handled r = 0 := by
      rw [hs]
      cases r <;> rfl
    have hbusy : busy role r s.thread = 0 := by
      rw [busy, count_eq_zero]
      rintro t ⟨-, ht⟩
      rw [hstart t] at ht
      exact absurd (busy_run.1 ht) (by simp)
    rw [left_iff, hzero, hbusy]
    by_cases hpos : 0 < a.total_items
    · exact Or.inl hpos
    · exact Or.inr (Nat.zero_le _)

/-- A turn changes how many threads of its kind are busy, and no more. -/
theorem busy_turn (hs : (threads a role spurious).Reachable s) {o : Section T}
    {g : T → Thread Cond Loc} (ht : s.thread t = .run p) (hw : Wakes o.wakes s.thread g) (r : Role) :
    busy role r (Function.update g t o.thread) + (if role t = r ∧ Busy (.run p) then 1 else 0) =
      busy role r s.thread + if role t = r ∧ Busy o.thread then 1 else 0 := by
  refine hw.count_update (q := fun t x => role t = r ∧ Busy x) ?_ ht o.thread
  intro u c q hu
  obtain ⟨-, rfl⟩ := asleep_at_loop hs hu
  simp only [busy_asleep, busy_loop]

omit [DecidableEq T] in
/-- A thread that handles no item leaves the bound as it is. -/
theorem Late.same (h : Late a role s) {f : T → Thread Cond Loc}
    (hle : ∀ r, ¬ Left a s.shared r → busy role r f ≤ busy role r s.thread) :
    Late a role ⟨s.shared, f⟩ := by
  refine ⟨h.window, fun r => ?_⟩
  by_cases hleft : Left a s.shared r
  · exact Or.inl hleft
  · exact Or.inr ((Nat.add_le_add_left (hle r hleft) _).trans ((h.room r).resolve_left hleft))

theorem Late.step (hs : (threads a role spurious).Reachable s) (h : Late a role s) {l : Label T}
    (hstep : (threads a role spurious).step s l s') : Late a role s' := by
  cases hstep with
  | @spurious t c p _ ht =>
    obtain ⟨-, rfl⟩ := asleep_at_loop hs ht
    refine h.same fun r _ => ?_
    have hbusy := count_update (q := fun t x => role t = r ∧ Busy x) s.thread t (.run .loop)
    simp only [ht, busy_asleep, busy_loop] at hbusy
    exact (Nat.add_right_cancel hbusy).le
  | @turn t p o g ht ho hw =>
    have hbusy := busy_turn hs ht hw
    rw [code_eq rfl] at ho
    rcases round_cases ho with ⟨rfl, rfl⟩ | ⟨hp, rfl⟩ | ⟨rfl, rfl⟩
    · -- the test of the outer loop
      refine h.same fun r hleft => ?_
      have hle := hbusy r
      by_cases hr : role t = r
      · subst hr
        simp only [if_neg hleft] at hle ⊢
        simp only [not_busy_test, not_busy_finished] at hle
        exact (Nat.add_right_cancel hle).le
      · simp only [hr, false_and, if_false, add_zero] at hle
        exact hle.le
    · have hb : Busy (.run p) := busy_run.2 hp
      by_cases hblocked : Blocked a s.shared (role t)
      · -- it falls asleep
        simp only [if_pos hblocked, hb, busy_asleep] at hbusy ⊢
        exact h.same fun r _ => (Nat.add_right_cancel (hbusy r)).le
      · -- it handles an item
        simp only [if_neg hblocked, hb, not_busy_signal, and_true, and_false, if_false] at hbusy ⊢
        refine ⟨h.window.act hblocked t, fun r => ?_⟩
        have heq := hbusy r
        have hroom := h.room r
        simp only [left_iff, handled_act, most] at hroom ⊢
        by_cases hr : role t = r
        · have hlt : busy role r (Function.update g t (.run .signal)) < number role r := by
            refine busy_lt_number hr ?_
            rw [Function.update_self]
            exact not_busy_signal
          rw [if_pos hr] at heq
          rw [if_pos hr.symm]
          split_ifs at hroom ⊢ <;> omega
        · rw [if_neg hr] at heq
          rw [if_neg (Ne.symm hr)]
          simp only [add_zero] at heq ⊢
          rw [heq]
          exact hroom
    · -- the signal
      simp only [not_busy_signal, not_busy_test] at hbusy
      exact h.same fun r _ => (Nat.add_right_cancel (hbusy r)).le

theorem late_of_reachable (hs : (threads a role spurious).Reachable s) : Late a role s :=
  hs.induct (I := Late a role) (fun _ => .init) fun _ _ _ hs h hstep => h.step hs hstep

omit [DecidableEq T] in
theorem Late.handled_le (h : Late a role s) (r : Role) :
    s.shared.handled r ≤ most a (number role r) := by
  rcases h.room r with hleft | hle
  · rw [left_iff] at hleft
    rw [most, if_pos (by omega)]
    omega
  · omega

theorem overshoot_le (a : Args) (role : T → Role) (spurious : Prop)
    (hs : (threads a role spurious).Reachable s) :
    (produced s.shared.printed).length ≤ most a (number role .master) ∧
      (consumed s.shared.printed).length ≤ most a (number role .worker) ∧
      -((number role .worker - 1 : ℕ) : ℤ) ≤ s.shared.curr_buf_size ∧
      s.shared.curr_buf_size ≤ a.max_buf_size + (number role .master - 1 : ℕ) := by
  have h := late_of_reachable hs
  have hproduced := h.window.counters.produced
  have hlen : (produced s.shared.printed).length = s.shared.item_to_produce := by simp [hproduced]
  have hcurr := h.window.counters.curr
  have habove := h.window.above
  have hbelow := h.window.below
  have hmaster : s.shared.item_to_produce ≤ _ := h.handled_le .master
  have hworker : s.shared.item_to_consume ≤ _ := h.handled_le .worker
  rw [hlen, h.window.counters.consumed]
  refine ⟨hmaster, hworker, ?_, ?_⟩
  · unfold most at hworker
    split_ifs at hworker <;> omega
  · unfold most at hmaster
    split_ifs at hmaster <;> omega

/-! ## The bounds are reached -/

/-- The threads of `G` passed the test of their outer loops. -/
def entering (G : Finset T) (t : T) : Thread Cond Loc := if t ∈ G then .run .enter else .run .test

omit [Fintype T] in
theorem update_entering_insert {G : Finset T} :
    Function.update (entering G) t (.run .enter) = entering (insert t G) := by
  ext1 u
  by_cases hut : u = t
  · subst hut
    rw [Function.update_self, entering, if_pos (Finset.mem_insert_self u G)]
  · simp only [Function.update_of_ne hut, entering, Finset.mem_insert, hut, false_or]

omit [Fintype T] in
theorem update_entering_test {G : Finset T} (ht : t ∉ G) :
    Function.update (entering (insert t G)) t (.run .test) = entering G := by
  ext1 u
  by_cases hut : u = t
  · subst hut
    rw [Function.update_self, entering, if_neg ht]
  · simp only [Function.update_of_ne hut, entering, Finset.mem_insert, hut, false_or]

omit [Fintype T] in
theorem not_asleep_entering {G : Finset T} : ¬ Asleep (entering G t) := by
  unfold entering
  split <;> exact not_asleep_run _

omit [Fintype T] in
/-- Threads pass the test one after the other. -/
theorem Reach.enter_all {s : Shared T} (h : Reach a role s (entering ∅)) {G : Finset T}
    (hleft : ∀ t ∈ G, Left a s (role t)) : Reach a role s (entering G) := by
  induction G using Finset.induction_on with
  | empty => exact h
  | insert t G ht ih =>
    have hprev := ih fun u hu => hleft u (Finset.mem_insert_of_mem hu)
    rw [← update_entering_insert]
    exact hprev.move (.enter (if_neg ht) (hleft t (Finset.mem_insert_self t G)))

omit [Fintype T] in
/-- Each of them handles an item, though only one is left. -/
theorem Reach.act_all {s : Shared T} {G : Finset T} (h : Reach a role s (entering G))
    (hG : ∀ t ∈ G, role t = r) (hgo : ¬ Blocked a s r) (hlast : a.total_items ≤ s.handled r + 1) :
    ∃ s', Reach a role s' (entering ∅) ∧ s'.handled r = s.handled r + G.card ∧
      ∀ q ≠ r, s'.handled q = s.handled q := by
  induction G using Finset.induction_on generalizing s with
  | empty => exact ⟨s, h, rfl, fun _ _ => rfl⟩
  | insert t G ht ih =>
    have hr := hG t (Finset.mem_insert_self t G)
    subst hr
    have hact := h.move (.act (t := t) (Or.inl (if_pos (Finset.mem_insert_self t G))) hgo)
    have hlost := hact.move (.lost (t := t) (Function.update_self _ _ _) ?_)
    · rw [Function.update_idem, update_entering_test ht] at hlost
      have hnext := handled_act (a := a) (r := role t) s t
      have hself := hnext (role t)
      rw [if_pos rfl] at hself
      -- nothing is left
      have hend : ¬ Left a ((role t).act a t s) (role t) := by
        rw [left_iff, hself]
        omega
      obtain ⟨s', h', hcount, hother⟩ := ih hlost (fun u hu => hG u (Finset.mem_insert_of_mem hu))
        (fun hblocked => hend hblocked.left) (by omega)
      refine ⟨s', h', ?_, fun q hq => ?_⟩
      · rw [hcount, hself, Finset.card_insert_of_notMem ht, Nat.add_right_comm, Nat.add_assoc]
      · rw [hother q hq, hnext q, if_neg hq, add_zero]
    · intro u hu
      rw [Function.update_of_ne (ne_of_other hu)]
      exact not_asleep_entering

omit [Fintype T] in
/-- A master and a worker handle one item after the other. -/
theorem one_by_one {m w : T} (hm : role m = .master) (hw : role w = .worker) (n : ℕ)
    (hn : n ≤ a.total_items) :
    ∃ s, Reach a role s (sleeping role ∅) ∧ s.item_to_produce = n ∧ s.item_to_consume = n := by
  induction n with
  | zero => exact ⟨_, Reach.init, rfl, rfl⟩
  | succ n ih =>
    obtain ⟨s, h, hproduce, hconsume⟩ := ih (by omega)
    have hcurr := h.curr
    have hmax := a.pos
    have hstore := h.act_lost (Finset.notMem_empty m) (by rw [hm]; simp only [Left]; omega)
      (by rw [hm]; simp only [Blocked]; omega) (by simp)
    have htake := hstore.act_lost (Finset.notMem_empty w)
      (by rw [hm, hw]; simp only [Left, Role.act, store]; omega)
      (by rw [hm, hw]; simp only [Blocked, Role.act, store]; omega) (by simp)
    rw [hm, hw] at htake
    exact ⟨_, htake, congrArg (· + 1) hproduce, congrArg (· + 1) hconsume⟩

/-- All masters pass the test before the last item is stored, and all workers before it is taken. -/
theorem overshoot_attained (hpos : 0 < a.total_items) (hm : ∃ t, role t = .master)
    (hw : ∃ t, role t = .worker) : ∃ s, (threads a role False).Reachable s ∧
      (produced s.shared.printed).length = most a (number role .master) ∧
      (consumed s.shared.printed).length = most a (number role .worker) := by
  obtain ⟨m, hm⟩ := hm
  obtain ⟨w, hw⟩ := hw
  have hcard (t : T) : 0 < number role (role t) := Finset.card_pos.2 ⟨t, by simp⟩
  have hmasters := hcard m
  have hworkers := hcard w
  rw [hm] at hmasters
  rw [hw] at hworkers
  have hmax := a.pos
  have hall (r : Role) : ∀ t ∈ Finset.univ.filter fun t => role t = r, role t = r :=
    fun t ht => (Finset.mem_filter.1 ht).2
  obtain ⟨s, h, hproduce, hconsume⟩ := one_by_one (a := a) hm hw (a.total_items.toNat - 1) (by omega)
  have hcurr := h.curr
  -- the masters
  have h₁ : Reach a role s (entering ∅) := h
  obtain ⟨s₂, h₂, hproduce₂, hother₂⟩ := (h₁.enter_all fun t ht => by
    rw [hall .master t ht, Left]; omega).act_all (hall .master) (by simp only [Blocked]; omega)
    (by simp only [Shared.handled]; omega)
  have hconsume₂ : s₂.item_to_consume = s.item_to_consume := hother₂ .worker (by decide)
  -- the workers
  have hcurr₂ := h₂.curr
  simp only [Shared.handled] at hproduce₂
  rw [← number] at hproduce₂
  obtain ⟨s₃, h₃, hconsume₃, hother₃⟩ := (h₂.enter_all fun t ht => by
    rw [hall .worker t ht, Left]; omega).act_all (hall .worker) (by simp only [Blocked]; omega)
    (by simp only [Shared.handled]; omega)
  have hproduce₃ : s₃.item_to_produce = s₂.item_to_produce := hother₃ .master (by decide)
  simp only [Shared.handled] at hconsume₃
  rw [← number] at hconsume₃
  have hcounters : Counters a s₃ := counters_of_reachable h₃
  refine ⟨_, h₃, ?_, ?_⟩
  · show (produced s₃.printed).length = _
    rw [hcounters.produced, List.length_map, List.length_range, most, if_pos hpos]
    omega
  · show (consumed s₃.printed).length = _
    rw [hcounters.consumed, most, if_pos hpos]
    omega

/-- What a thread has left to do, but for the items: a signal wakes one thread. -/
def toDo : Thread Cond Loc → ℕ
  | .run p => place p
  | .asleep _ p => place p - 1
where
  /-- The same at a place. -/
  place : Loc → ℕ
    | .test => 2
    | .enter => 1
    | .loop => 1
    | .signal => 4
    | .finished => 0

/-- The items that can still be handled. -/
def itemsToDo (a : Args) (role : T → Role) (s : Shared T) : ℕ :=
  4 * (most a (number role .master) - s.handled .master +
    (most a (number role .worker) - s.handled .worker))

omit [DecidableEq T] in
/-- In a turn a thread does a part of what it has left to do. -/
theorem toDo_of_turn {s : Shared T} {o : Section T} (ho : o ∈ code a role t p s)
    (hmost : ∀ r, o.shared.handled r ≤ most a (number role r)) :
    itemsToDo a role o.shared + toDo o.thread + cost T o.wakes + 1 ≤
      itemsToDo a role s + toDo (.run p) := by
  rw [code_eq rfl] at ho
  rcases round_cases ho with ⟨rfl, rfl⟩ | ⟨hp, rfl⟩ | ⟨rfl, rfl⟩
  · split <;> simp [toDo, toDo.place, cost]
  · have hplace : toDo (.run p) = 1 := by rcases hp with rfl | rfl <;> rfl
    by_cases hblocked : Blocked a s (role t)
    · simp only [if_pos hblocked, hplace]
      exact le_rfl
    · simp only [if_neg hblocked] at hmost ⊢
      have hmaster := hmost .master
      have hworker := hmost .worker
      rw [hplace]
      simp only [itemsToDo, handled_act, toDo, toDo.place, cost] at hmaster hworker ⊢
      cases hr : role t with
      | master =>
        simp only [hr, if_true, reduceCtorEq, if_false] at hmaster hworker ⊢
        omega
      | worker =>
        simp only [hr, if_true, reduceCtorEq, if_false] at hmaster hworker ⊢
        omega
  · exact Nat.le_refl (_ + 4)

/-- A run without spurious wake-ups is bounded. -/
theorem length_le {tr : List (Label T)} (h : (threads a role False).Run tr s) :
    tr.length ≤ 4 * (most a (number role .master) + most a (number role .worker)) +
      2 * Fintype.card T := by
  have hle := length_add_total_le (n := 4 * (most a (number role .master) +
    most a (number role .worker))) (r := toDo) (itemsToDo a role) ?_ ?_ ?_ h
  · simp only [toDo, toDo.place] at hle
    omega
  · intro c p
    simp only [toDo]
    omega
  · rintro s ⟨buffer, rfl⟩
    exact le_rfl
  · intro s hs t p ht o ho
    refine toDo_of_turn ho fun r => ?_
    obtain ⟨g, hg⟩ := Wakes.exists o.wakes s.thread
    exact (late_of_reachable (hs.step (.turn ht ho hg))).handled_le r

omit [DecidableEq T] [Fintype T] in
theorem code_ne_nil (s : Shared T) (t : T) (p : Loc) (hp : p ≠ .finished) :
    code a role t p s ≠ [] := by
  rw [code_eq rfl]
  cases p with
  | finished => exact absurd rfl hp
  | _ => exact List.cons_ne_nil _ _

omit [DecidableEq T] [Fintype T] in
theorem length_printed (l : List (Line T)) :
    l.length = (produced l).length + (consumed l).length := by
  induction l with
  | nil => rfl
  | cons x l ih =>
    cases x with
    | produced =>
      simp only [produced, consumed, List.filterMap_cons, List.length_cons] at ih ⊢
      omega
    | consumed =>
      simp only [produced, consumed, List.filterMap_cons, List.length_cons] at ih ⊢
      omega

/-- What holds when the masters and workers of a configuration without deadlocks are done. -/
structure Done (a : Args) (role : T → Role) (s : Config T (Shared T) Cond Loc) : Prop where
  finished : ∀ t, s.thread t = .run .finished
  /-- All items are consumed, each of them once. -/
  consumed : (consumed s.shared.printed).length = a.total_items.toNat
  once : ConsumesOnce s.shared.printed
  produced : a.total_items.toNat ≤ (produced s.shared.printed).length ∧
    (produced s.shared.printed).length ≤ a.total_items.toNat + (number role .master - 1)

theorem done_of_stuck (hm : ∃ t, role t = .master) (henough : Enough a role)
    (hs : (threads a role False).Reachable s) (hstuck : ∀ l s', ¬ (threads a role False).step s l s') :
    Done a role s := by
  have hfinished := finished_of_stuck (fun t p _ => code_ne_nil s.shared t p) hstuck
    (not_deadlock_of_enough hm henough hs)
  have hlate := late_of_reachable hs
  have hcounters := hlate.window.counters
  have hmaster : s.shared.item_to_produce ≤ _ := hlate.handled_le .master
  have hworker : s.shared.item_to_consume ≤ _ := hlate.handled_le .worker
  have hproduced : (produced s.shared.printed).length = s.shared.item_to_produce := by
    rw [hcounters.produced, List.length_map, List.length_range]
  by_cases hpos : 0 < a.total_items
  · obtain ⟨hone, hroom⟩ := henough.resolve_left (not_le.2 hpos)
    obtain ⟨w, hw⟩ := Finset.card_eq_one.1 hone
    have hwork : ∀ t, role t = .worker ↔ t = w := by
      intro t
      have ht := Finset.ext_iff.1 hw t
      simpa using ht
    have hlive := live_of_reachable hwork hm hpos hroom hs
    obtain ⟨m, hm⟩ := hm
    have hendm := hlive.finished m (hfinished m)
    have hendw := hlive.finished w (hfinished w)
    rw [hm, Left] at hendm
    rw [(hwork w).2 rfl, Left] at hendw
    rw [most, if_pos hpos] at hmaster hworker
    rw [hone] at hworker
    refine ⟨hfinished, ?_, hlive.remaining.once, ?_⟩
    · rw [hcounters.consumed]
      omega
    · rw [hproduced]
      omega
  · rw [most, if_neg hpos] at hmaster hworker
    have hconsumed := hcounters.consumed
    have hnil : s.shared.printed = [] := by
      rw [← List.length_eq_zero_iff, length_printed]
      omega
    refine ⟨hfinished, ?_, ?_, ?_⟩
    · rw [hcounters.consumed]
      omega
    · rw [hnil]
      exact .nil
    · rw [hproduced]
      omega

end MasterWorker

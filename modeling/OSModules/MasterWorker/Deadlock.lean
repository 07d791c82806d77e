/-
  When masters and workers can all fall asleep. A thread that sleeps when the work runs out is
  woken only by a thread of the other kind that still has to act: this is sure for one worker,
  and for at most one master more than the buffer has slots.
-/
import OSModules.MasterWorker.Moves
import OSModules.MasterWorker.Workers

namespace MasterWorker

open Runs Monitor

variable {T : Type} [DecidableEq T] [Fintype T] {a : Args} {role : T → Role} {w : T}
  {s s' : Shared T} {f g : T → Thread Cond Loc} {t : T}

/-- How many threads there are of a kind. -/
def number (role : T → Role) (r : Role) : ℕ := (Finset.univ.filter fun t => role t = r).card

/-- How many masters sleep. -/
def sleepers (role : T → Role) (f : T → Thread Cond Loc) : ℕ :=
  count (fun t x => role t = .master ∧ Asleep x) f

/-- The worker has still to signal. -/
def pending (w : T) (f : T → Thread Cond Loc) : ℕ := if f w = .run .signal then 1 else 0

theorem sleepers_update (role : T → Role) (f : T → Thread Cond Loc) (t : T) (x : Thread Cond Loc) :
    sleepers role (Function.update f t x) + (if role t = .master ∧ Asleep (f t) then 1 else 0) =
      sleepers role f + if role t = .master ∧ Asleep x then 1 else 0 :=
  count_update (q := fun t x => role t = .master ∧ Asleep x) f t x

omit [DecidableEq T] in
theorem sleepers_le (role : T → Role) (f : T → Thread Cond Loc) : sleepers role f ≤ number role .master := by
  rw [sleepers, count, number, Finset.card_filter]
  refine Finset.sum_le_sum fun t _ => ?_
  split_ifs with h₁ h₂
  · exact le_rfl
  · exact absurd h₁.1 h₂
  · exact Nat.zero_le _
  · exact le_rfl

omit [Fintype T] in
theorem pending_update_of_ne (ht : t ≠ w) (x : Thread Cond Loc) :
    pending w (Function.update f t x) = pending w f := by
  rw [pending, pending, Function.update_of_ne (Ne.symm ht)]

/-- One worker. -/
structure Live (a : Args) (role : T → Role) (w : T) (s : Shared T) (f : T → Thread Cond Loc) :
    Prop where
  remaining : Remaining a s
  left : Busy (f w) → (s.item_to_consume : ℤ) < a.total_items
  finished : ∀ t, f t = .run .finished → ¬ Left a s (role t)
  /-- Each master that sleeps will be signalled by the worker when the production is over. -/
  room : (sleepers role f : ℤ) ≤ s.item_to_produce + 1 - s.item_to_consume + pending w f ∧
    (sleepers role f : ℤ) ≤ a.total_items - s.item_to_consume + pending w f
  /-- A worker that sleeps waits for a master's signal, or for an item. -/
  awaited : Asleep (f w) → s.item_to_produce = s.item_to_consume ∨
    ∃ t, role t = .master ∧ f t = .run .signal
  /-- Masters that all sleep wait for the worker's signal, or for a free slot. -/
  full : (∀ t, role t = .master → Asleep (f t)) → (s.item_to_produce : ℤ) < a.total_items →
    s.item_to_produce = s.item_to_consume + a.max_buf_size ∨ f w = .run .signal

omit [Fintype T] [DecidableEq T] in
theorem master_of_ne (hw : ∀ t, role t = .worker ↔ t = w) (ht : t ≠ w) : role t = .master := by
  cases hr : role t with
  | master => rfl
  | worker => exact absurd ((hw t).1 hr) ht

omit [DecidableEq T] in
/-- A live state is no deadlock. -/
theorem Live.not_deadlock (hw : ∀ t, role t = .worker ↔ t = w) (h : Live a role w s f) : ¬ Deadlock .finished f := by
  intro hdead
  have hpos := a.pos
  have hsignal : ∀ t, f t ≠ .run .signal := fun t ht => by cases hdead.finished ht
  have hzero : pending w f = 0 := if_neg (hsignal w)
  by_cases hfw : f w = .run .finished
  · -- everything is consumed, so no master sleeps
    have hend := h.finished w hfw
    rw [(hw w).2 rfl] at hend
    obtain ⟨t, ht⟩ := hdead.1
    obtain ⟨c, p, hsleep⟩ := hdead.2 t ht
    have hne : t ≠ w := by
      rintro rfl
      exact ht hfw
    have hcount : 0 < sleepers role f := count_pos.2 ⟨t, master_of_ne hw hne, by rw [hsleep]; trivial⟩
    have hroom := h.room.2
    simp only [Left, not_lt] at hend
    omega
  · obtain ⟨c, p, hsleep⟩ := hdead.2 w hfw
    have hleft := h.left (Or.inr (Or.inr ⟨c, p, hsleep⟩))
    have hempty : s.item_to_produce = s.item_to_consume := by
      refine (h.awaited (by rw [hsleep]; trivial)).resolve_right ?_
      rintro ⟨t, -, ht⟩
      exact hsignal t ht
    -- the buffer is empty and not everything is produced, so the masters sleep
    have hall : ∀ t, role t = .master → Asleep (f t) := by
      intro t ht
      by_cases hft : f t = .run .finished
      · have hend := h.finished t hft
        rw [ht] at hend
        simp only [Left, not_lt] at hend
        omega
      · obtain ⟨c, p, hsleep⟩ := hdead.2 t hft
        rw [hsleep]
        trivial
    rcases h.full hall (by omega) with hfull | hw
    · omega
    · exact hsignal w hw

/-! ## Moves of one worker and the masters -/

omit [Fintype T] in
theorem pending_update_self (x : Thread Cond Loc) :
    pending w (Function.update f w x) = if x = .run .signal then 1 else 0 := by
  rw [pending, Function.update_self]

omit [Fintype T] in
theorem finished_update {Q : T → Prop} {x : Thread Cond Loc} (h : ∀ u, f u = .run .finished → Q u)
    (hx : x = .run .finished → Q t) : ∀ u, Function.update f t x u = .run .finished → Q u := by
  intro u hu
  by_cases hut : u = t
  · subst hut
    rw [Function.update_self] at hu
    exact hx hu
  · rw [Function.update_of_ne hut] at hu
    exact h u hu

omit [Fintype T] in
/-- If all masters sleep after a step of the worker, they slept before. -/
theorem asleep_of_update (hw : ∀ t, role t = .worker ↔ t = w) {x : Thread Cond Loc}
    (h : ∀ t, role t = .master → Asleep (Function.update f w x t)) :
    ∀ t, role t = .master → Asleep (f t) := by
  intro u hu
  have hsleep := h u hu
  rwa [Function.update_of_ne] at hsleep
  rintro rfl
  rw [(hw u).2 rfl] at hu
  cases hu

omit [Fintype T] in
/-- A master goes on to signal unless it takes the step itself. -/
theorem signal_update {x : Thread Cond Loc} (ht : f t ≠ .run .signal)
    (h : ∃ u, role u = .master ∧ f u = .run .signal) :
    ∃ u, role u = .master ∧ Function.update f t x u = .run .signal := by
  obtain ⟨u, hu, hsignal⟩ := h
  refine ⟨u, hu, ?_⟩
  rw [Function.update_of_ne, hsignal]
  rintro rfl
  exact ht hsignal

/-- A thread goes from one place to another, neither of them before a signal. -/
theorem Live.run (hw : ∀ t, role t = .worker ↔ t = w) (h : Live a role w s f) {p q : Loc}
    (ht : f t = .run p) (hp : p ≠ .signal) (hq : q ≠ .signal)
    (hleft : Busy (.run q) → Left a s (role t)) (hend : q = .finished → ¬ Left a s (role t)) :
    Live a role w s (Function.update f t (.run q)) := by
  have hsignal : f t ≠ .run .signal := by
    rw [ht]
    exact fun heq => hp (Thread.run.inj heq)
  have hsleepers := sleepers_update role f t (.run q)
  simp only [ht, not_asleep_run, and_false, if_false, add_zero] at hsleepers
  have hfinished := finished_update (x := .run q) h.finished fun hx => hend (Thread.run.inj hx)
  by_cases htw : t = w
  · subst htw
    have hrole := (hw t).2 rfl
    have hpending : pending t (Function.update f t (.run q)) = pending t f := by
      rw [pending_update_self, pending, if_neg hsignal, if_neg fun h => hq (Thread.run.inj h)]
    refine ⟨h.remaining, ?_, hfinished, ?_, ?_, ?_⟩
    · intro hbusy
      rw [Function.update_self] at hbusy
      rw [hrole] at hleft
      exact hleft hbusy
    · rw [hsleepers, hpending]
      exact h.room
    · intro hsleep
      rw [Function.update_self] at hsleep
      exact hsleep.elim
    · intro hall hlt
      exact Or.inl ((h.full (asleep_of_update hw hall) hlt).resolve_right hsignal)
  · have hwt : Function.update f t (.run q) w = f w := Function.update_of_ne (Ne.symm htw) _ _
    refine ⟨h.remaining, ?_, hfinished, ?_, ?_, ?_⟩
    · rw [hwt]
      exact h.left
    · rw [hsleepers, pending_update_of_ne htw]
      exact h.room
    · rw [hwt]
      exact fun hsleep => (h.awaited hsleep).imp id (signal_update hsignal)
    · intro hall
      have hsleep := hall t (master_of_ne hw htw)
      rw [Function.update_self] at hsleep
      exact hsleep.elim

/-- The worker waits. -/
theorem Live.wait_worker (hw : ∀ t, role t = .worker ↔ t = w) (h : Live a role w s f)
    (hsignal : f w ≠ .run .signal) (hblocked : Blocked a s .worker) {c : Cond} :
    Live a role w s (Function.update f w (.asleep c .loop)) := by
  have hrole := (hw w).2 rfl
  have hsleepers := sleepers_update role f w (.asleep c .loop)
  simp only [hrole, reduceCtorEq, false_and, if_false, add_zero] at hsleepers
  have hcurr := h.remaining.counters.curr
  have hzero : pending w f = 0 := if_neg hsignal
  refine ⟨h.remaining, fun _ => hblocked.2, finished_update h.finished nofun, ?_, ?_, ?_⟩
  · rw [hsleepers, pending_update_self, if_neg nofun, ← hzero]
    exact h.room
  · intro _
    have hempty := hblocked.1
    exact Or.inl (by omega)
  · intro hall hlt
    exact Or.inl ((h.full (asleep_of_update hw hall) hlt).resolve_right hsignal)

/-- A master waits, which is one of those that the worker has still to signal. -/
theorem Live.wait_master (h : Live a role w s f)
    (hroom : a.total_items ≤ a.max_buf_size ∨ number role .master ≤ a.max_buf_size + 1)
    (htw : t ≠ w) (hsignal : f t ≠ .run .signal) (hblocked : Blocked a s .master) {c : Cond} :
    Live a role w s (Function.update f t (.asleep c .loop)) := by
  have hwt : Function.update f t (.asleep c .loop) w = f w := Function.update_of_ne (Ne.symm htw) _ _
  have hcurr := h.remaining.counters.curr
  obtain ⟨hfull, hlt⟩ := hblocked
  refine ⟨h.remaining, ?_, finished_update h.finished nofun, ?_, ?_, ?_⟩
  · rw [hwt]
    exact h.left
  · have hle := sleepers_le role (Function.update f t (.asleep c .loop))
    rcases hroom with htotal | hnumber
    · omega
    · rw [pending_update_of_ne htw]
      omega
  · rw [hwt]
    exact fun hsleep => (h.awaited hsleep).imp id (signal_update hsignal)
  · intro _ _
    exact Or.inl (by omega)

/-- A master stores an item, and is about to signal. -/
theorem Live.store (hw : ∀ t, role t = .worker ↔ t = w) (h : Live a role w s f)
    (htw : t ≠ w) (hrun : ¬ Asleep (f t)) (hblocked : ¬ Blocked a s .master) :
    Live a role w (store a t s) (Function.update f t (.run .signal)) := by
  have hwt : Function.update f t (.run .signal) w = f w := Function.update_of_ne (Ne.symm htw) _ _
  have hsleepers := sleepers_update role f t (.run .signal)
  rw [if_neg fun hq => hrun hq.2, if_neg fun hq => hq.2] at hsleepers
  have hproduce : (MasterWorker.store a t s).item_to_produce = s.item_to_produce + 1 := rfl
  have hconsume : (MasterWorker.store a t s).item_to_consume = s.item_to_consume := rfl
  refine ⟨h.remaining.store hblocked t, ?_, ?_, ?_, ?_, ?_⟩
  · rw [hwt]
    exact h.left
  · refine finished_update ?_ nofun
    intro u hu
    have hend := h.finished u hu
    cases hr : role u with
    | master =>
      rw [hr] at hend
      simp only [Left, hproduce] at hend ⊢
      omega
    | worker =>
      rw [hr] at hend
      exact hend
  · have hroom := h.room
    rw [pending_update_of_ne htw, hproduce, hconsume]
    omega
  · exact fun _ => Or.inr ⟨t, master_of_ne hw htw, Function.update_self _ _ _⟩
  · intro hall
    have hsleep := hall t (master_of_ne hw htw)
    rw [Function.update_self] at hsleep
    exact hsleep.elim

/-- The worker takes an item, and is about to signal. -/
theorem Live.take (hw : ∀ t, role t = .worker ↔ t = w) (h : Live a role w s f)
    (hbusy : Busy (f w)) (hsignal : f w ≠ .run .signal) (hblocked : ¬ Blocked a s .worker) :
    Live a role w (take a w s) (Function.update f w (.run .signal)) := by
  have hrole := (hw w).2 rfl
  have hsleepers := sleepers_update role f w (.run .signal)
  simp only [hrole, reduceCtorEq, false_and, if_false, add_zero] at hsleepers
  have hproduce : (MasterWorker.take a w s).item_to_produce = s.item_to_produce := rfl
  have hconsume : (MasterWorker.take a w s).item_to_consume = s.item_to_consume + 1 := rfl
  have hzero : pending w f = 0 := if_neg hsignal
  refine ⟨h.remaining.take (h.left hbusy) hblocked w, ?_, ?_, ?_, ?_, ?_⟩
  · rw [Function.update_self]
    exact fun hbusy => absurd (busy_run.1 hbusy) (by simp)
  · refine finished_update ?_ nofun
    intro u hu
    have hend := h.finished u hu
    cases hr : role u with
    | master =>
      rw [hr] at hend
      exact hend
    | worker =>
      rw [hr] at hend
      simp only [Left, hconsume] at hend ⊢
      omega
  · have hroom := h.room
    rw [hsleepers, pending_update_self, if_pos rfl, hproduce, hconsume]
    omega
  · rw [Function.update_self]
    exact fun hsleep => hsleep.elim
  · exact fun _ _ => Or.inr (Function.update_self _ _ _)

/-- The worker signals, to a master that sleeps or to nobody. -/
theorem Live.signal_worker (hw : ∀ t, role t = .worker ↔ t = w) (h : Live a role w s f)
    (hsleepers : (sleepers role g : ℤ) ≤ s.item_to_produce + 1 - s.item_to_consume ∧
      (sleepers role g : ℤ) ≤ a.total_items - s.item_to_consume)
    (hfinished : ∀ u, g u = .run .finished → f u = .run .finished)
    (hawake : ∃ u, role u = .master ∧ ¬ Asleep (g u)) :
    Live a role w s (Function.update g w (.run .test)) := by
  have hrole := (hw w).2 rfl
  have hcount := sleepers_update role g w (.run .test)
  simp only [hrole, reduceCtorEq, false_and, if_false, add_zero] at hcount
  refine ⟨h.remaining, ?_, ?_, ?_, ?_, ?_⟩
  · rw [Function.update_self]
    exact fun hbusy => absurd (busy_run.1 hbusy) (by simp)
  · exact finished_update (fun u hu => h.finished u (hfinished u hu)) nofun
  · rw [hcount, pending_update_self, if_neg nofun]
    simpa using hsleepers
  · rw [Function.update_self]
    exact fun hsleep => hsleep.elim
  · intro hall
    obtain ⟨u, hu, hrun⟩ := hawake
    exact absurd (asleep_of_update hw hall u hu) hrun

/-- A master signals, to the worker if it sleeps. -/
theorem Live.signal_master (hw : ∀ t, role t = .worker ↔ t = w) (h : Live a role w s f)
    (htw : t ≠ w) (hsignal : f t = .run .signal) {x : Thread Cond Loc}
    (hx : x = f w ∨ x = .run .loop) (hbusy : x = .run .loop → Busy (f w))
    (hawake : ¬ Asleep x) (hpending : x = .run .loop → f w ≠ .run .signal) :
    Live a role w s (Function.update (Function.update f w x) t (.run .test)) := by
  have hwt : Function.update (Function.update f w x) t (.run .test) w = x := by
    rw [Function.update_of_ne (Ne.symm htw), Function.update_self]
  have hft : Function.update f w x t = .run .signal := by
    rw [Function.update_of_ne htw, hsignal]
  have hcount := sleepers_update role (Function.update f w x) t (.run .test)
  have hcountw := sleepers_update role f w x
  simp only [hft, not_asleep_run, and_false, if_false, add_zero] at hcount
  simp only [(hw w).2 rfl, reduceCtorEq, false_and, if_false, add_zero] at hcountw
  refine ⟨h.remaining, ?_, ?_, ?_, ?_, ?_⟩
  · rw [hwt]
    intro hb
    rcases hx with rfl | rfl
    · exact h.left hb
    · exact h.left (hbusy rfl)
  · refine finished_update (finished_update h.finished ?_) (by simp)
    rintro rfl
    rcases hx with hx | hx
    · exact h.finished w hx.symm
    · cases hx
  · have hp : pending w (Function.update (Function.update f w x) t (.run .test)) = pending w f := by
      rw [pending, pending, hwt]
      rcases hx with rfl | rfl
      · rfl
      · rw [if_neg (by simp), if_neg (hpending rfl)]
    rw [hcount, hcountw, hp]
    exact h.room
  · rw [hwt]
    exact fun hsleep => absurd hsleep hawake
  · intro hall
    have hsleep := hall t (master_of_ne hw htw)
    rw [Function.update_self] at hsleep
    exact hsleep.elim

/-- Every move of one worker and the masters. -/
theorem Live.move (hw : ∀ t, role t = .worker ↔ t = w) (hm : ∃ t, role t = .master)
    (hpos : 0 < a.total_items)
    (hroom : a.total_items ≤ a.max_buf_size ∨ number role .master ≤ a.max_buf_size + 1)
    (h : Live a role w s f) (hmove : Move a role t s f s' g) : Live a role w s' g := by
  have hbusy : f t = .run .enter ∨ f t = .run .loop → Busy (f t) ∧ f t ≠ .run .signal ∧
      ¬ Asleep (f t) := by
    rintro (ht | ht)
    · rw [ht]
      exact ⟨Or.inl rfl, nofun, id⟩
    · rw [ht]
      exact ⟨Or.inr (Or.inl rfl), nofun, id⟩
  cases hmove with
  | enter ht hleft => exact h.run hw ht nofun nofun (fun _ => hleft) nofun
  | finish ht hend =>
    refine h.run hw ht nofun nofun ?_ fun _ => hend
    exact fun hbusy => absurd (busy_run.1 hbusy) (by simp)
  | wait ht hblocked =>
    obtain ⟨-, hsignal, -⟩ := hbusy ht
    by_cases htw : t = w
    · subst htw
      rw [(hw t).2 rfl] at hblocked
      exact h.wait_worker hw hsignal hblocked
    · rw [master_of_ne hw htw] at hblocked
      exact h.wait_master hroom htw hsignal hblocked
  | act ht hgo =>
    obtain ⟨hb, hsignal, hrun⟩ := hbusy ht
    by_cases htw : t = w
    · subst htw
      rw [(hw t).2 rfl] at hgo ⊢
      exact h.take hw hb hsignal hgo
    · rw [master_of_ne hw htw] at hgo ⊢
      exact h.store hw htw hrun hgo
  | @wake u ht hother hu =>
    by_cases htw : t = w
    · subst htw
      rw [(hw t).2 rfl] at hother
      have hcount := sleepers_update role f u (.run .loop)
      rw [hu, if_pos ⟨hother, trivial⟩, if_neg fun hq => hq.2] at hcount
      have hroom := h.room
      rw [pending, if_pos ht] at hroom
      refine h.signal_worker hw ?_ ?_ ⟨u, hother, ?_⟩
      · omega
      · intro v hv
        exact finished_update (Q := fun v => f v = .run .finished) (x := .run .loop) (fun _ h => h)
          nofun v hv
      · rw [Function.update_self]
        exact id
    · rw [master_of_ne hw htw] at hother
      obtain rfl := (hw u).1 hother
      refine h.signal_master hw htw ht (Or.inr rfl) (fun _ => ?_) id (fun _ => ?_)
      · exact Or.inr (Or.inr ⟨_, _, hu⟩)
      · rw [hu]
        exact nofun
  | lost ht hno =>
    by_cases htw : t = w
    · subst htw
      rw [(hw t).2 rfl] at hno
      have hzero : sleepers role f = 0 := by
        rw [sleepers, count_eq_zero]
        exact fun u hu => hno u hu.1 hu.2
      have horder := h.remaining.order
      have htotal := h.remaining.total
      refine h.signal_worker hw ?_ (fun _ hu => hu) ?_
      · rw [hzero]
        omega
      · obtain ⟨u, hu⟩ := hm
        exact ⟨u, hu, hno u hu⟩
    · rw [master_of_ne hw htw] at hno
      have hlive := h.signal_master hw htw ht (x := f w) (Or.inl rfl)
        (fun hx => Or.inr (Or.inl hx)) (hno w ((hw w).2 rfl)) (fun hx => by rw [hx]; exact nofun)
      rwa [Function.update_eq_self] at hlive

/-! ## Runs -/

/-- There is nothing to do, or one worker, and a buffer for all items or for all masters but one. -/
def Enough (a : Args) (role : T → Role) : Prop :=
  a.total_items ≤ 0 ∨ (number role .worker = 1 ∧
    (a.total_items ≤ a.max_buf_size ∨ number role .master ≤ a.max_buf_size + 1))

theorem live_of_reachable (hw : ∀ t, role t = .worker ↔ t = w) (hm : ∃ t, role t = .master)
    (hpos : 0 < a.total_items)
    (hroom : a.total_items ≤ a.max_buf_size ∨ number role .master ≤ a.max_buf_size + 1)
    {s : Config T (Shared T) Cond Loc} (hs : (threads a role False).Reachable s) :
    Live a role w s.shared s.thread := by
  refine hs.induct (I := fun s => Live a role w s.shared s.thread) ?_ ?_
  · rintro ⟨s, f⟩ ⟨hinit, hstart⟩
    have hremaining := Remaining.init (a := a) hinit
    obtain ⟨buffer, hs⟩ := hinit
    obtain rfl : s = _ := hs
    obtain rfl : f = fun _ => .run .test := funext hstart
    have hzero : sleepers role (fun _ => .run .test) = 0 := by
      rw [sleepers, count_eq_zero]
      exact fun u hu => hu.2
    refine ⟨hremaining, ?_, nofun, ?_, ?_, ?_⟩
    · exact fun hbusy => absurd (busy_run.1 hbusy) (by simp)
    · rw [hzero, pending, if_neg nofun]
      simp only [Nat.cast_zero]
      omega
    · exact fun hsleep => hsleep.elim
    · intro hall
      obtain ⟨t, ht⟩ := hm
      exact (hall t ht).elim
  · intro s l s' hreach h hstep
    obtain ⟨t, hmove⟩ := move_of_step hreach hstep
    exact h.move hw hm hpos hroom hmove

omit [Fintype T] in
/-- With nothing to do, threads only test that. -/
theorem test_or_finished (hend : a.total_items ≤ 0) {s : Config T (Shared T) Cond Loc}
    (hs : (threads a role False).Reachable s) :
    ∀ t, s.thread t = .run .test ∨ s.thread t = .run .finished := by
  refine hs.induct (I := fun s => ∀ t, s.thread t = .run .test ∨ s.thread t = .run .finished) ?_ ?_
  · rintro s ⟨-, hstart⟩ t
    exact Or.inl (hstart t)
  · intro s l s' hreach h hstep
    obtain ⟨t, hmove⟩ := move_of_step hreach hstep
    have hno : ∀ p, s.thread t = .run p → p = .test ∨ p = .finished := by
      intro p hp
      rcases h t with ht | ht
      · rw [hp] at ht
        exact Or.inl (Thread.run.inj ht)
      · rw [hp] at ht
        exact Or.inr (Thread.run.inj ht)
    generalize s'.thread = g at hmove
    generalize s'.shared = x at hmove
    cases hmove with
    | enter _ hleft =>
      cases hr : role t with
      | master =>
        rw [hr] at hleft
        simp only [Left] at hleft
        omega
      | worker =>
        rw [hr] at hleft
        simp only [Left] at hleft
        omega
    | finish =>
      intro u
      by_cases hut : u = t
      · subst hut
        exact Or.inr (Function.update_self _ _ _)
      · rw [Function.update_of_ne hut]
        exact h u
    | wait ht =>
      rcases ht with ht | ht <;> rcases hno _ ht with hp | hp <;> cases hp
    | act ht =>
      rcases ht with ht | ht <;> rcases hno _ ht with hp | hp <;> cases hp
    | wake ht => rcases hno _ ht with hp | hp <;> cases hp
    | lost ht => rcases hno _ ht with hp | hp <;> cases hp

theorem not_deadlock_of_enough (hm : ∃ t, role t = .master) (henough : Enough a role)
    {s : Config T (Shared T) Cond Loc} (hs : (threads a role False).Reachable s) :
    ¬ Deadlock .finished s.thread := by
  by_cases hpos : 0 < a.total_items
  · obtain ⟨hone, hroom⟩ := henough.resolve_left (not_le.2 hpos)
    obtain ⟨w, hw⟩ := Finset.card_eq_one.1 hone
    have hworker : ∀ t, role t = .worker ↔ t = w := by
      intro t
      have ht := Finset.ext_iff.1 hw t
      simpa using ht
    exact (live_of_reachable hworker hm hpos hroom hs).not_deadlock hworker
  · intro hdead
    obtain ⟨t, ht⟩ := hdead.1
    rcases test_or_finished (not_lt.1 hpos) hs t with htest | hfin
    · cases hdead.finished htest
    · exact ht hfin

end MasterWorker

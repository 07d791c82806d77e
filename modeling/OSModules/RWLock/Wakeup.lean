/-
  What a sleeping reader or writer waits for, and what a lock has to do so that no wake-up
  is lost.
-/
import OSModules.RWLock.Basic

namespace RWLock

open Runs Monitor

variable {T S : Type}

/-- A sleeping reader waits for a writer that holds the lock, or for the writers that queue. A
sleeping writer waits for a holder of the lock, or for a woken writer. -/
structure Awaited (role : T → Role) (n : ℤ) (queue : Prop) (f : T → Thread Cond Loc) : Prop where
  reader : ∀ t p, f t = .asleep .read_phase p →
    (∃ u, role u = .writer ∧ f u = .run .holding) ∨ queue
  writer : ∀ t p, f t = .asleep .write_phase p →
    n ≠ 0 ∨ ∃ u, role u = .writer ∧ f u = .run .loop

/-- A section of `Lock` wakes nobody. A reader waits while the counter is -1 or writers queue, a
writer only while the counter is not 0; and only an admitted writer ends a queue. -/
structure Queues (cnt : S → ℤ) (queue : S → Prop) (s : S) (r : Role) (o : Section S) : Prop where
  wakes : o.wakes = []
  reader : ∀ p, o.thread = .asleep .read_phase p → cnt s = -1 ∨ queue o.shared
  writer : r = .writer → cnt o.shared ≠ 0
  queue : queue s → queue o.shared ∨ (r = .writer ∧ o.thread = .run .holding)

/-- The last reader signals the writers; a writer signals the queue if there is one, and wakes the
readers if there is none. -/
structure HandsOver (cnt : S → ℤ) (queue : S → Prop) (F : Functions S) : Prop where
  lock : ∀ r s, Queues cnt queue s r (F.Lock r s)
  loop : ∀ r s, Queues cnt queue s r (F.Loop r s)
  last_reader : ∀ s, cnt (F.Unlock .reader s).shared = 0 →
    .signal .write_phase ∈ (F.Unlock .reader s).wakes
  reader_queue : ∀ s, queue s → queue (F.Unlock .reader s).shared
  to_writer : ∀ s, .signal .write_phase ∈ (F.Unlock .writer s).wakes ∨ ¬ queue s
  to_readers : ∀ s, .broadcast .read_phase ∈ (F.Unlock .writer s).wakes ∨
    queue (F.Unlock .writer s).shared

variable [DecidableEq T] {cnt : S → ℤ} {queue : S → Prop} {F : Functions S} {role : T → Role}
  {f g : T → Thread Cond Loc}

omit [DecidableEq T] in
theorem ne_of_place {t u : T} {p q : Loc} (ht : f t = .run p) (hu : f u = .run q) (hpq : q ≠ p) :
    u ≠ t := by
  rintro rfl
  rw [ht] at hu
  cases hu
  exact hpq rfl

/-- A turn in `Lock` keeps what sleepers wait for. -/
theorem Awaited.enter {s : S} {t : T} {p : Loc} {o : Section S}
    (hneg : cnt s = -1 → ∃ u, role u = .writer ∧ f u = .run .holding)
    (ha : Awaited role (cnt s) (queue s) f) (ho : Admits cnt s (role t) o)
    (hq : Queues cnt queue s (role t) o) (hw : Wakes o.wakes f g) (ht : f t = .run p)
    (hp : p ≠ .holding) :
    Awaited role (cnt o.shared) (queue o.shared) (Function.update g t o.thread) := by
  rw [hq.wakes] at hw
  obtain rfl : f = g := hw.of_nil.symm
  -- who holds the lock still holds it
  have hkeep : (∃ u, role u = .writer ∧ f u = .run .holding) →
      ∃ u, role u = .writer ∧ Function.update f t o.thread u = .run .holding := by
    rintro ⟨u, hur, hu⟩
    exact ⟨u, hur, hw.run_update (ne_of_place ht hu hp.symm) hu⟩
  constructor
  · intro v q hv
    rcases asleep_update hv with ⟨-, hx⟩ | ⟨-, hv⟩
    · rcases hq.reader q hx with hcnt | hqueue
      · exact Or.inl (hkeep (hneg hcnt))
      · exact Or.inr hqueue
    · rcases ha.reader v q hv with hold | hqueue
      · exact Or.inl (hkeep hold)
      · rcases hq.queue hqueue with hqueue | ⟨hrole, hx⟩
        · exact Or.inr hqueue
        · exact Or.inl ⟨t, hrole, by rw [Function.update_self, hx]⟩
  · intro v q hv
    cases hrole : role t with
    | writer => exact Or.inl (hq.writer hrole)
    | reader =>
      rw [hrole] at ho
      cases ho with
      | wait hcnt =>
        rcases asleep_update hv with ⟨-, hx⟩ | ⟨-, hv⟩
        · cases hx
        · rcases ha.writer v q hv with hne | ⟨u, hur, hu⟩
          · exact Or.inl (by rw [wait, hcnt]; exact hne)
          · refine Or.inr ⟨u, hur, hw.run_update ?_ hu⟩
            rintro rfl
            rw [hrole] at hur
            cases hur
      | reader hne hcnt =>
        refine Or.inl ?_
        simp only [unlock]
        omega

/-- A turn in `Unlock` keeps what sleepers wait for. -/
theorem Awaited.release {s : S} {t : T} (hF : Guards cnt F) (hH : HandsOver cnt queue F)
    (ha : Awaited role (cnt s) (queue s) f)
    (hsleep : ∀ t c p, f t = .asleep c p → c = phase (role t) ∧ p = .loop)
    (hqueue : ∀ t p, f t = .asleep .write_phase p → .signal .write_phase ∈
      (F.Unlock .writer s).wakes ∨ queue s)
    (ht : f t = .run .holding) (hw : Wakes (F.Unlock (role t) s).wakes f g) :
    Awaited role (cnt (F.Unlock (role t) s).shared) (queue (F.Unlock (role t) s).shared)
      (Function.update g t (F.Unlock (role t) s).thread) := by
  -- a signal to the writers makes a sleeping writer wait for a woken one
  have hsignal : .signal .write_phase ∈ (F.Unlock (role t) s).wakes → ∀ v q,
      g v = .asleep .write_phase q →
      ∃ u, role u = .writer ∧ Function.update g t (.run .idle) u = .run .loop := by
    intro hmem v q hv
    obtain ⟨u, q, hu, hgu⟩ := hw.of_signal hmem hv
    obtain ⟨hc, rfl⟩ := hsleep u _ q hu
    have hut : u ≠ t := by
      rintro rfl
      rw [ht] at hu
      cases hu
    refine ⟨u, ?_, by rw [Function.update_of_ne hut, hgu]⟩
    cases hur : role u with
    | reader => rw [hur] at hc; cases hc
    | writer => rfl
  rw [hF.unlock]
  generalize hrole : role t = r at hw hsignal ⊢
  cases r with
  | reader =>
    constructor
    · intro v q hv
      rcases ha.reader v q (hw.asleep (asleep_of_update_run hv)) with ⟨u, hur, hu⟩ | hqueue
      · refine Or.inl ⟨u, hur, hw.run_update ?_ hu⟩
        rintro rfl
        rw [hrole] at hur
        cases hur
      · exact Or.inr (hH.reader_queue s hqueue)
    · intro v q hv
      by_cases hcnt : cnt (F.Unlock .reader s).shared = 0
      · exact Or.inr (hsignal (hH.last_reader s hcnt) v q (asleep_of_update_run hv))
      · exact Or.inl hcnt
  | writer =>
    constructor
    · intro v q hv
      rcases hH.to_readers s with hmem | hqueue
      · exact absurd (asleep_of_update_run hv) (hw.of_broadcast hmem)
      · exact Or.inr hqueue
    · intro v q hv
      have hv := asleep_of_update_run hv
      rcases hH.to_writer s with hmem | hno
      · exact Or.inr (hsignal hmem v q hv)
      · rcases hqueue v q (hw.asleep hv) with hmem | hqueue
        · exact Or.inr (hsignal hmem v q hv)
        · exact absurd hqueue hno

omit [DecidableEq T] in
/-- Threads that neither go to sleep nor leave the lock keep what sleepers wait for. -/
theorem Awaited.keep {n : ℤ} {queue : Prop} (ha : Awaited role n queue f)
    (hasleep : ∀ u c p, g u = .asleep c p → f u = .asleep c p)
    (hrun : ∀ u p, p = .holding ∨ p = .loop → f u = .run p → g u = .run p) :
    Awaited role n queue g := by
  constructor
  · intro v q hv
    rcases ha.reader v q (hasleep v _ q hv) with ⟨u, hur, hu⟩ | hqueue
    · exact Or.inl ⟨u, hur, hrun u _ (Or.inl rfl) hu⟩
    · exact Or.inr hqueue
  · intro v q hv
    rcases ha.writer v q (hasleep v _ q hv) with hne | ⟨u, hur, hu⟩
    · exact Or.inl hne
    · exact Or.inr ⟨u, hur, hrun u _ (Or.inr rfl) hu⟩

/-! ## Runs -/

variable [Fintype T] {spurious : Prop}

/-- In a lock that hands over, sleepers wait for somebody, in every reachable state. -/
theorem awaited_of_reachable (hF : Guards cnt F) (hH : HandsOver cnt queue F)
    (hqueue : ∀ s, (threads F role spurious).Reachable s → ∀ t p,
      s.thread t = .asleep .write_phase p →
      .signal .write_phase ∈ (F.Unlock .writer s.shared).wakes ∨ queue s.shared)
    {s : Config T S Cond Loc} (hs : (threads F role spurious).Reachable s) :
    Awaited role (cnt s.shared) (queue s.shared) s.thread := by
  refine hs.induct (I := fun s => Awaited role (cnt s.shared) (queue s.shared) s.thread) ?_ ?_
  · rintro s ⟨-, hidle⟩
    constructor
    · intro t p ht
      rw [hidle t] at ht
      cases ht
    · intro t p ht
      rw [hidle t] at ht
      cases ht
  · intro s l s' hreach ha hstep
    have hneg := (exclusive_of_reachable hF hreach).writer_of_neg
    cases hstep with
    | @turn t p o g ht ho hw =>
      rcases client_cases ho with ⟨rfl, rfl⟩ | ⟨rfl, rfl⟩ | ⟨rfl, rfl⟩ | ⟨rfl, rfl⟩
      · exact ha.enter hneg (hF.lock _ _) (hH.lock _ _) hw ht (by decide)
      · refine ha.keep (fun u c p hu => hw.asleep (asleep_of_update_run hu)) ?_
        rintro u p (rfl | rfl) hu
        · exact hw.run_update (ne_of_place ht hu (by decide)) hu
        · exact hw.run_update (ne_of_place ht hu (by decide)) hu
      · exact ha.enter hneg (hF.loop _ _) (hH.loop _ _) hw ht (by decide)
      · exact ha.release hF hH (fun t c p ht => asleep_at_loop hF hreach ht)
          (hqueue s hreach) ht hw
    | @spurious t c p _ ht =>
      refine ha.keep (fun u c p hu => asleep_of_update_run hu) ?_
      intro u p _ hu
      refine Wakes.nil.run_update ?_ hu
      rintro rfl
      rw [ht] at hu
      cases hu

omit [DecidableEq T] in
/-- Sleepers that wait for somebody are not all that is left. -/
theorem not_deadlock {n : ℤ} {queue : Prop} (hex : Exclusive role n f)
    (ha : Awaited role n queue f)
    (hqueue : queue → ∃ t, (∃ p, f t = .asleep .write_phase p) ∨ f t = .run .loop) :
    ¬ Deadlock f := by
  intro hdead
  have hrun : ∀ u p, f u = .run p → p = .finished := fun u p => Monitor.Deadlock.finished hdead
  obtain ⟨⟨t, ht⟩, hall⟩ := hdead
  have hzero : ∀ r, holders role r f = 0 := by
    intro r
    rw [holders, count_eq_zero]
    rintro u ⟨-, hu⟩
    exact absurd (hrun u _ hu) (by decide)
  have hn : n = 0 := by
    unfold Exclusive at hex
    rw [hzero, hzero] at hex
    omega
  have hwriter : ∀ u p, f u ≠ .asleep .write_phase p := by
    intro u p hu
    rcases ha.writer u p hu with hne | ⟨v, -, hv⟩
    · exact hne hn
    · exact absurd (hrun v _ hv) (by decide)
  obtain ⟨c, p, hsleep⟩ := hall t ht
  cases c with
  | write_phase => exact hwriter t p hsleep
  | read_phase =>
    rcases ha.reader t p hsleep with ⟨u, -, hu⟩ | hq
    · exact absurd (hrun u _ hu) (by decide)
    · obtain ⟨u, ⟨q, hu⟩ | hu⟩ := hqueue hq
      · exact hwriter u q hu
      · exact absurd (hrun u _ hu) (by decide)

end RWLock

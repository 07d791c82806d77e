/-
  What the two reader-writer locks share: the threads that use a lock, what a lock has to
  do with its counter, and mutual exclusion.
-/
import OSModules.Lib.Monitor

namespace RWLock

open Runs Monitor

inductive Role
  | reader
  | writer
  deriving DecidableEq

/-- The condition variables of a lock. -/
inductive Cond
  | read_phase
  | write_phase
  deriving DecidableEq

/-- Where a thread is: before `Lock`, at the test of the loop of `Lock` after a wait, between `Lock`
and `Unlock`, or done. -/
inductive Loc
  | idle
  | loop
  | holding
  | finished
  deriving DecidableEq

/-- The fields of the lock that are not a mutex or a condition variable. -/
structure read_write_lock where
  resource_cnt : ℤ
  deriving DecidableEq

abbrev Section (S : Type) := Outcome S Cond Loc

/-- `pthread_cond_wait` in the loop of `Lock`. -/
def wait {S : Type} (s : S) (c : Cond) : Section S := ⟨s, [], .asleep c .loop⟩

/-- `pthread_mutex_unlock` at the end of `Lock` or `Unlock`. -/
def unlock {S : Type} (s : S) (ws : List (Wake Cond)) (p : Loc) : Section S := ⟨s, ws, .run p⟩

/-- The functions of a lock, as sections under its mutex. `Lock` has one section up to its first
wait, and one from each wait to the next. -/
structure Functions (S : Type) where
  Init : S → Prop
  Lock : Role → S → Section S
  Loop : Role → S → Section S
  Unlock : Role → S → Section S

variable {T S : Type}

/-- A thread repeats `Lock` and `Unlock`, and finishes when it likes, without the lock. -/
def client (F : Functions S) (role : T → Role) : Code T S Cond Loc
  | t, .idle, s => [F.Lock (role t) s, ⟨s, [], .run .finished⟩]
  | t, .loop, s => [F.Loop (role t) s]
  | t, .holding, s => [F.Unlock (role t) s]
  | _, .finished, _ => []

def threads [DecidableEq T] (F : Functions S) (role : T → Role) (spurious : Prop) :
    LTS (Config T S Cond Loc) (Label T) :=
  system F.Init .idle (client F role) spurious

/-- How many readers or writers hold the lock. -/
def holders [Fintype T] (role : T → Role) (r : Role) (f : T → Thread Cond Loc) : ℕ :=
  count (fun t x => role t = r ∧ x = .run .holding) f

/-- One writer holds the lock and the counter is -1, or only readers hold it and the counter is
their number. -/
def Exclusive [Fintype T] (role : T → Role) (cnt : ℤ) (f : T → Thread Cond Loc) : Prop :=
  (holders role .writer f = 1 ∧ holders role .reader f = 0 ∧ cnt = -1) ∨
    (holders role .writer f = 0 ∧ cnt = holders role .reader f)

/-- Some thread is not finished, and all threads that are not finished are asleep. -/
abbrev Deadlock (f : T → Thread Cond Loc) : Prop := Monitor.Deadlock .finished f

/-! ## What a lock has to do -/

def phase : Role → Cond
  | .reader => .read_phase
  | .writer => .write_phase

/-- A section of `Lock` waits, or lets a reader in if the counter is not -1, or a writer if it
is 0. -/
inductive Admits (cnt : S → ℤ) (s : S) : Role → Section S → Prop
  | wait {r s'} : cnt s' = cnt s → Admits cnt s r (wait s' (phase r))
  | reader {s'} : cnt s ≠ -1 → cnt s' = cnt s + 1 → Admits cnt s .reader (unlock s' [] .holding)
  | writer {s'} : cnt s = 0 → cnt s' = -1 → Admits cnt s .writer (unlock s' [] .holding)

/-- The counter `cnt` guards the lock. -/
structure Guards (cnt : S → ℤ) (F : Functions S) : Prop where
  init : ∀ s, F.Init s → cnt s = 0
  lock : ∀ r s, Admits cnt s r (F.Lock r s)
  loop : ∀ r s, Admits cnt s r (F.Loop r s)
  unlock : ∀ r s, (F.Unlock r s).thread = .run .idle
  unlock_reader : ∀ s, cnt (F.Unlock .reader s).shared = cnt s - 1
  unlock_writer : ∀ s, cnt (F.Unlock .writer s).shared = 0

variable {cnt : S → ℤ} {F : Functions S} {role : T → Role} {spurious : Prop}

/-- What a thread can do in a turn. -/
theorem client_cases {t : T} {p : Loc} {s : S} {o : Section S} (ho : o ∈ client F role t p s) :
    (p = .idle ∧ o = F.Lock (role t) s) ∨ (p = .idle ∧ o = ⟨s, [], .run .finished⟩) ∨
      (p = .loop ∧ o = F.Loop (role t) s) ∨ (p = .holding ∧ o = F.Unlock (role t) s) := by
  cases p with
  | idle =>
    rcases List.mem_cons.1 ho with ho | ho
    · exact Or.inl ⟨rfl, ho⟩
    · exact Or.inr (Or.inl ⟨rfl, List.mem_singleton.1 ho⟩)
  | loop => exact Or.inr (Or.inr (Or.inl ⟨rfl, List.mem_singleton.1 ho⟩))
  | holding => exact Or.inr (Or.inr (Or.inr ⟨rfl, List.mem_singleton.1 ho⟩))
  | finished => exact absurd ho List.not_mem_nil

theorem Admits.of_asleep {s : S} {r : Role} {o : Section S} (h : Admits cnt s r o) {c : Cond}
    {p : Loc} (ho : o.thread = .asleep c p) : c = phase r ∧ p = .loop := by
  cases h with
  | wait => cases ho; exact ⟨rfl, rfl⟩
  | reader => cases ho
  | writer => cases ho

variable [DecidableEq T]

/-- Readers wait for the read phase and writers for the write phase, in the loop of `Lock`. -/
theorem asleep_at_loop (hF : Guards cnt F) {s : Config T S Cond Loc}
    (hs : (threads F role spurious).Reachable s) {t : T} {c : Cond} {p : Loc}
    (ht : s.thread t = .asleep c p) : c = phase (role t) ∧ p = .loop := by
  refine asleep_of_reachable (A := fun t c p => c = phase (role t) ∧ p = .loop) ?_ hs ht
  intro t p s o ho c q hq
  rcases client_cases ho with ⟨-, rfl⟩ | ⟨-, rfl⟩ | ⟨-, rfl⟩ | ⟨-, rfl⟩
  · exact (hF.lock _ _).of_asleep hq
  · cases hq
  · exact (hF.loop _ _).of_asleep hq
  · rw [hF.unlock] at hq; cases hq

/-! ## Mutual exclusion -/

variable [Fintype T] {f g : T → Thread Cond Loc}

/-- How a turn changes the number of holders. -/
theorem holders_turn (role : T → Role) {ws : List (Wake Cond)} (hw : Wakes ws f g)
    (hloop : ∀ t c p, f t = .asleep c p → p = .loop) {t : T} {p : Loc} (ht : f t = .run p)
    (r : Role) (x : Thread Cond Loc) :
    holders role r (Function.update g t x) + (if role t = r ∧ p = .holding then 1 else 0) =
      holders role r f + if role t = r ∧ x = .run .holding then 1 else 0 := by
  have h := hw.count_update (q := fun t x => role t = r ∧ x = .run .holding) ?_ ht x
  · simpa only [holders, Thread.run.injEq] using h
  · intro u c q hu
    rw [hloop u c q hu]
    simp

/-- A wake-up changes nobody's hold. -/
theorem holders_spurious (hloop : ∀ t c p, f t = .asleep c p → p = .loop) {t : T} {c : Cond}
    {p : Loc} (ht : f t = .asleep c p) (r : Role) :
    holders role r (Function.update f t (.run p)) = holders role r f := by
  have h := count_update (q := fun t x => role t = r ∧ x = .run .holding) f t (.run p)
  rw [ht, hloop t c p ht] at h
  rw [hloop t c p ht]
  simpa [holders] using h

theorem Exclusive.admit {s : S} (hex : Exclusive role (cnt s) f) {t : T} {p : Loc} {o : Section S}
    (ho : Admits cnt s (role t) o) (hw : Wakes o.wakes f g)
    (hloop : ∀ t c p, f t = .asleep c p → p = .loop) (ht : f t = .run p) (hp : p ≠ .holding) :
    Exclusive role (cnt o.shared) (Function.update g t o.thread) := by
  have hr := holders_turn role hw hloop ht .reader o.thread
  have hwr := holders_turn role hw hloop ht .writer o.thread
  simp only [hp, and_false, if_false, add_zero] at hr hwr
  unfold Exclusive at hex ⊢
  rw [hr, hwr]
  generalize hrole : role t = r at ho
  cases ho with
  | wait hcnt => simpa [wait, hcnt] using hex
  | reader hne hcnt =>
    simp only [unlock, hcnt, and_true, if_true, reduceCtorEq, if_false, add_zero]
    omega
  | writer hzero hcnt =>
    simp only [unlock, hcnt, and_true, if_true, reduceCtorEq, if_false, add_zero]
    omega

theorem Exclusive.release (hF : Guards cnt F) {s : S} (hex : Exclusive role (cnt s) f) {t : T}
    (hw : Wakes (F.Unlock (role t) s).wakes f g) (hloop : ∀ t c p, f t = .asleep c p → p = .loop)
    (ht : f t = .run .holding) :
    Exclusive role (cnt (F.Unlock (role t) s).shared)
      (Function.update g t (F.Unlock (role t) s).thread) := by
  have hr := holders_turn role hw hloop ht .reader (F.Unlock (role t) s).thread
  have hwr := holders_turn role hw hloop ht .writer (F.Unlock (role t) s).thread
  unfold Exclusive at hex ⊢
  rw [hF.unlock] at hr hwr ⊢
  cases hrole : role t with
  | reader =>
    rw [hF.unlock_reader]
    simp only [hrole, and_true, if_true, reduceCtorEq, if_false, and_false, add_zero,
      Thread.run.injEq] at hr hwr
    omega
  | writer =>
    rw [hF.unlock_writer]
    simp only [hrole, and_true, if_true, reduceCtorEq, if_false, and_false, add_zero,
      Thread.run.injEq] at hr hwr
    omega

omit [DecidableEq T] in
/-- While the counter is -1, a writer holds the lock. -/
theorem Exclusive.writer_of_neg {n : ℤ} (hex : Exclusive role n f) (hn : n = -1) :
    ∃ u, role u = .writer ∧ f u = .run .holding := by
  have hpos : 0 < holders role .writer f := by
    unfold Exclusive at hex
    omega
  exact count_pos.1 hpos

omit [DecidableEq T] in
theorem Exclusive.neg_of_writer {n : ℤ} (hex : Exclusive role n f) {u : T}
    (hrole : role u = .writer) (hu : f u = .run .holding) : n = -1 := by
  have hpos : 0 < holders role .writer f := count_pos.2 ⟨u, hrole, hu⟩
  unfold Exclusive at hex
  omega

/-- A writer that holds the lock holds it alone. -/
theorem Exclusive.alone {n : ℤ} (hex : Exclusive role n f) {t u : T} (htu : t ≠ u)
    (hrole : role t = .writer) (ht : f t = .run .holding) : f u ≠ .run .holding := by
  intro hu
  have hwriter : 0 < holders role .writer f := count_pos.2 ⟨t, hrole, ht⟩
  cases hru : role u with
  | reader =>
    have hreader : 0 < holders role .reader f := count_pos.2 ⟨u, hru, hu⟩
    unfold Exclusive at hex
    omega
  | writer =>
    -- without `t` there is still a writer that holds the lock
    have hrest : 0 < holders role .writer (Function.update f t (.run .idle)) :=
      count_pos.2 ⟨u, hru, by rw [Function.update_of_ne htu.symm, hu]⟩
    have hone := count_update (q := fun t x => role t = .writer ∧ x = .run .holding) f t (.run .idle)
    rw [if_pos ⟨hrole, ht⟩, if_neg (by rintro ⟨-, h⟩; cases h)] at hone
    unfold Exclusive holders at hex
    unfold holders at hrest
    omega

/-- A lock that its counter guards excludes writers from everybody else, whatever the order of the
turns and the wake-ups. -/
theorem exclusive_of_reachable (hF : Guards cnt F) {s : Config T S Cond Loc}
    (hs : (threads F role spurious).Reachable s) : Exclusive role (cnt s.shared) s.thread := by
  refine hs.induct (I := fun s => Exclusive role (cnt s.shared) s.thread) ?_ ?_
  · rintro s ⟨hinit, hidle⟩
    have hzero : ∀ r, holders role r s.thread = 0 := by
      intro r
      rw [holders, count_eq_zero]
      rintro t ⟨-, ht⟩
      rw [hidle t] at ht
      cases ht
    exact Or.inr ⟨hzero _, by rw [hF.init _ hinit, hzero]; rfl⟩
  · intro s l s' hreach hex hstep
    have hloop : ∀ t c p, s.thread t = .asleep c p → p = .loop :=
      fun t c p ht => (asleep_at_loop hF hreach ht).2
    cases hstep with
    | @turn t p o g ht ho hw =>
      rcases client_cases ho with ⟨rfl, rfl⟩ | ⟨rfl, rfl⟩ | ⟨rfl, rfl⟩ | ⟨rfl, rfl⟩
      · exact hex.admit (hF.lock _ _) hw hloop ht (by decide)
      · have hr := holders_turn role hw hloop ht .reader (.run .finished)
        have hwr := holders_turn role hw hloop ht .writer (.run .finished)
        simp only [reduceCtorEq, and_false, if_false, add_zero, Thread.run.injEq] at hr hwr
        unfold Exclusive at hex ⊢
        rwa [hr, hwr]
      · exact hex.admit (hF.loop _ _) hw hloop ht (by decide)
      · exact hex.release hF hw hloop ht
    | @spurious t c p _ ht =>
      unfold Exclusive at hex ⊢
      simp only [holders_spurious hloop ht]
      exact hex

end RWLock

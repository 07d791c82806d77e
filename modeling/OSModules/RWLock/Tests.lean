/-
  `test-reader-pref.cpp` and `test-writer-pref.cpp`: every thread takes the lock once, and notes
  under a spin lock when it got it and when it gives it back.
-/
import OSModules.RWLock.ReaderPref
import OSModules.RWLock.WriterPref

namespace RWLock.Tests

open Runs Monitor

/-- Where a thread is in `Reader` or `Writer`: before the call of `Lock`, in its loop, before each
of the two sections of the spin lock, before the call of `Unlock`, or done. -/
inductive Place
  | lock
  | loop
  | acquire
  | release
  | unlock
  | finished
  deriving DecidableEq

/-- The lock, the counter, and the entries that the threads have in the arrays of times. -/
structure Shared (T S : Type) where
  lock : S
  idx : ℕ
  acquireTime : T → ℕ
  releaseTime : T → ℕ

/-- Where a thread goes on after a section of the lock. -/
def goesOn : Loc → Place
  | .idle => .finished
  | .loop => .loop
  | .holding => .acquire
  | .finished => .finished

variable {T S : Type}

/-- A section of the lock. -/
def Shared.call (s : Shared T S) (o : Section S) : Outcome (Shared T S) Cond Place :=
  ⟨{ s with lock := o.shared }, o.wakes, o.thread.map goesOn⟩

variable [DecidableEq T]

/-- `Reader` and `Writer` -/
def body (F : Functions S) (role : T → Role) : Code T (Shared T S) Cond Place
  | t, .lock, s => [s.call (F.Lock (role t) s.lock)]
  | t, .loop, s => [s.call (F.Loop (role t) s.lock)]
  | t, .acquire, s =>
    [⟨{ s with idx := s.idx + 1, acquireTime := Function.update s.acquireTime t s.idx }, [],
      .run .release⟩]
  | t, .release, s =>
    [⟨{ s with idx := s.idx + 1, releaseTime := Function.update s.releaseTime t s.idx }, [],
      .run .unlock⟩]
  | t, .unlock, s => [s.call (F.Unlock (role t) s.lock)]
  | _, .finished, _ => []

/-- The threads that `main` creates. -/
def tests (F : Functions S) (role : T → Role) (spurious : Prop) :
    LTS (Config T (Shared T S) Cond Place) (Label T) :=
  system (fun s => F.Init s.lock ∧ s.idx = 0) .lock (body F role) spurious

/-! ## The tests as clients of the lock -/

def Place.loc : Place → Loc
  | .lock => .idle
  | .loop => .loop
  | .acquire => .holding
  | .release => .holding
  | .unlock => .holding
  | .finished => .finished

/-- What a configuration of the tests is for the lock. -/
def client (s : Config T (Shared T S) Cond Place) : Config T S Cond Loc :=
  ⟨s.shared.lock, fun t => (s.thread t).map Place.loc⟩

variable {cnt : S → ℤ} {F : Functions S} {role : T → Role} {spurious : Prop}
  {s s' : Config T (Shared T S) Cond Place} {l : Label T}

omit [DecidableEq T] in
theorem map_of_admits {s : S} {r : Role} {o : Section S} (h : Admits cnt s r o) :
    (o.thread.map goesOn).map Place.loc = o.thread := by
  cases h <;> rfl

/-- What the threads of the tests do, threads that use the lock can do. -/
theorem client_reachable (hF : Guards cnt F) (hs : (tests F role spurious).Reachable s) :
    (threads F role spurious).Reachable (client s) := by
  refine hs.invariant (I := fun s => (threads F role spurious).Reachable (client s)) ?_ ?_
  · rintro s ⟨⟨hinit, -⟩, hstart⟩
    refine .init ⟨hinit, ?_⟩
    intro t
    change (s.thread t).map Place.loc = _
    rw [hstart t]
    rfl
  · intro s l s' hs hstep
    cases hstep with
    | @turn t p o g ht ho hw =>
      have hplace : (client s).thread t = .run p.loc := by
        change (s.thread t).map Place.loc = _
        rw [ht]
        rfl
      have hw' := hw.map (h := Place.loc)
      -- a section of `Lock`
      have hadmits : ∀ o', Admits cnt s.shared.lock (role t) o' →
          o' ∈ RWLock.client F role t p.loc s.shared.lock → o = s.shared.call o' →
          (threads F role spurious).Reachable
            (client ⟨o.shared, Function.update g t o.thread⟩) := by
        rintro o' hadmits ho' rfl
        have hnext := hs.step (.turn hplace ho' hw')
        have hsame := map_of_admits hadmits
        simp only [client, map_update, Shared.call, hsame] at hnext ⊢
        exact hnext
      -- a section of the spin lock
      have hstutter : o.shared.lock = s.shared.lock → o.wakes = [] →
          o.thread.map Place.loc = .run p.loc →
          (threads F role spurious).Reachable
            (client ⟨o.shared, Function.update g t o.thread⟩) := by
        intro hlock hwakes hthread
        rw [hwakes] at hw
        obtain rfl := hw.of_nil
        have hsame : client ⟨o.shared, Function.update s.thread t o.thread⟩ = client s := by
          simp only [client, map_update, hlock, hthread, ← hplace, Function.update_eq_self]
        rwa [hsame]
      cases p with
      | lock => exact hadmits _ (hF.lock _ _) List.mem_cons_self (List.mem_singleton.1 ho)
      | loop => exact hadmits _ (hF.loop _ _) List.mem_cons_self (List.mem_singleton.1 ho)
      | acquire =>
        obtain rfl := List.mem_singleton.1 ho
        exact hstutter rfl rfl rfl
      | release =>
        obtain rfl := List.mem_singleton.1 ho
        exact hstutter rfl rfl rfl
      | unlock =>
        obtain rfl := List.mem_singleton.1 ho
        -- the thread gives the lock back, and then is done
        have hnext := hs.step (.turn hplace List.mem_cons_self hw')
        have hdone := hnext.step (.turn (t := t) (p := .idle) (by
          simp only [Function.update_self]
          exact hF.unlock _ _) (List.mem_cons_of_mem _ List.mem_cons_self) .nil)
        simp only [Function.update_idem] at hdone
        simp only [client, map_update, Shared.call, hF.unlock, Thread.map_run] at hdone ⊢
        exact hdone
      | finished => exact absurd ho List.not_mem_nil
    | @spurious t c p hsp ht =>
      have hplace : (client s).thread t = .asleep c p.loc := by
        change (s.thread t).map Place.loc = _
        rw [ht]
        rfl
      have hnext := hs.step (.spurious hsp hplace)
      simp only [client, map_update, Thread.map_run] at hnext ⊢
      exact hnext

/-! ## What the times say -/

def Place.acquired : Place → Bool
  | .release | .unlock | .finished => true
  | _ => false

def Place.released : Place → Bool
  | .unlock | .finished => true
  | _ => false

theorem Place.acquired_of_released {p : Place} (h : p.released = true) : p.acquired = true := by
  cases p <;> first | rfl | cases h

/-- A writer that holds the lock holds it alone. -/
def Alone (role : T → Role) (pl : T → Place) : Prop :=
  ∀ t u, t ≠ u → role t = .writer ∨ role u = .writer → (pl t).loc = .holding →
    (pl u).loc ≠ .holding

/-- What the times and the counter say about threads at the places `pl`. -/
structure Times (role : T → Role) (s : Shared T S) (pl : T → Place) : Prop where
  acquired : ∀ t, (pl t).acquired = true → s.acquireTime t < s.idx
  released : ∀ t, (pl t).released = true →
    s.acquireTime t < s.releaseTime t ∧ s.releaseTime t < s.idx
  next : ∀ t, role t = .writer → pl t = .release → s.idx = s.acquireTime t + 1
  at_once : ∀ t, role t = .writer → (pl t).released = true →
    s.releaseTime t = s.acquireTime t + 1
  apart : ∀ t u, t ≠ u → role t = .writer ∨ role u = .writer → (pl t).released = true →
    (pl u).acquired = true → s.releaseTime t < s.acquireTime u ∨
      ((pl u).released = true ∧ s.releaseTime u < s.acquireTime t)

variable {r : Shared T S} {pl : T → Place} {t : T}

/-- A section of the lock changes no times. -/
theorem Times.call (h : Times role r pl) (lock : S) {p : Place}
    (hacq : p.acquired = (pl t).acquired) (hrel : p.released = (pl t).released)
    (hp : p ≠ .release) : Times role { r with lock := lock } (Function.update pl t p) := by
  have hacq' : ∀ u, (Function.update pl t p u).acquired = (pl u).acquired := by
    intro u
    by_cases hut : u = t
    · subst hut
      rw [Function.update_self, hacq]
    · rw [Function.update_of_ne hut]
  have hrel' : ∀ u, (Function.update pl t p u).released = (pl u).released := by
    intro u
    by_cases hut : u = t
    · subst hut
      rw [Function.update_self, hrel]
    · rw [Function.update_of_ne hut]
  constructor
  · intro u hu
    exact h.acquired u (by rwa [hacq'] at hu)
  · intro u hu
    exact h.released u (by rwa [hrel'] at hu)
  · intro u hrole hu
    by_cases hut : u = t
    · subst hut
      rw [Function.update_self] at hu
      exact absurd hu hp
    · rw [Function.update_of_ne hut] at hu
      exact h.next u hrole hu
  · intro u hrole hu
    exact h.at_once u hrole (by rwa [hrel'] at hu)
  · intro u v huv hrole hu hv
    rw [hrel'] at hu ⊢
    rw [hacq'] at hv
    exact h.apart u v huv hrole hu hv

/-- A thread notes when it has got the lock. -/
theorem Times.acquire (h : Times role r pl) (hone : Alone role pl) (ht : pl t = .acquire) :
    Times role { r with
      idx := r.idx + 1
      acquireTime := Function.update r.acquireTime t r.idx } (Function.update pl t .release) := by
  have hnot : (pl t).released ≠ true := by
    rw [ht]
    nofun
  constructor
  · intro u hu
    by_cases hut : u = t
    · subst hut
      simp only [Function.update_self]
      omega
    · simp only [Function.update_of_ne hut] at hu ⊢
      have := h.acquired u hu
      omega
  · intro u hu
    by_cases hut : u = t
    · subst hut
      rw [Function.update_self] at hu
      cases hu
    · simp only [Function.update_of_ne hut] at hu ⊢
      have := h.released u hu
      omega
  · intro u hrole hu
    by_cases hut : u = t
    · subst hut
      simp only [Function.update_self]
    · -- another writer cannot hold the lock
      rw [Function.update_of_ne hut] at hu
      exact absurd (by rw [ht]; rfl) (hone u t hut (Or.inl hrole) (by rw [hu]; rfl))
  · intro u hrole hu
    by_cases hut : u = t
    · subst hut
      rw [Function.update_self] at hu
      cases hu
    · simp only [Function.update_of_ne hut] at hu ⊢
      exact h.at_once u hrole hu
  · intro u v huv hrole hu hv
    have hut : u ≠ t := by
      rintro rfl
      rw [Function.update_self] at hu
      cases hu
    simp only [Function.update_of_ne hut] at hu ⊢
    by_cases hvt : v = t
    · subst hvt
      simp only [Function.update_self]
      exact Or.inl (h.released u hu).2
    · simp only [Function.update_of_ne hvt] at hv ⊢
      exact h.apart u v huv hrole hu hv

/-- A thread notes when it gives the lock back. -/
theorem Times.release (h : Times role r pl) (hone : Alone role pl) (ht : pl t = .release) :
    Times role { r with
      idx := r.idx + 1
      releaseTime := Function.update r.releaseTime t r.idx } (Function.update pl t .unlock) := by
  have hnot : (pl t).released ≠ true := by
    rw [ht]
    nofun
  have hacq : (pl t).acquired = true := by
    rw [ht]
    rfl
  constructor
  · intro u hu
    by_cases hut : u = t
    · subst hut
      have := h.acquired u hacq
      simp only
      omega
    · simp only [Function.update_of_ne hut] at hu ⊢
      have := h.acquired u hu
      omega
  · intro u hu
    by_cases hut : u = t
    · subst hut
      have := h.acquired u hacq
      simp only [Function.update_self]
      omega
    · simp only [Function.update_of_ne hut] at hu ⊢
      have := h.released u hu
      omega
  · intro u hrole hu
    by_cases hut : u = t
    · subst hut
      rw [Function.update_self] at hu
      cases hu
    · rw [Function.update_of_ne hut] at hu
      exact absurd (by rw [ht]; rfl) (hone u t hut (Or.inl hrole) (by rw [hu]; rfl))
  · intro u hrole hu
    by_cases hut : u = t
    · subst hut
      simp only [Function.update_self]
      exact h.next u hrole ht
    · simp only [Function.update_of_ne hut] at hu ⊢
      exact h.at_once u hrole hu
  · intro u v huv hrole hu hv
    by_cases hut : u = t
    · subst hut
      simp only [Function.update_self, Function.update_of_ne huv.symm] at hv ⊢
      -- the other one does not hold the lock, so it gave it back before this one got it
      have hv' : (pl v).released = true := by
        have := hone u v huv hrole (by rw [ht]; rfl)
        cases hpv : pl v with
        | finished => rfl
        | lock | loop | acquire => rw [hpv] at hv; cases hv
        | release | unlock => exact absurd (by rw [hpv]; rfl) this
      rcases h.apart v u huv.symm hrole.symm hv' hacq with hlt | ⟨hno, -⟩
      · exact Or.inr ⟨hv', hlt⟩
      · exact absurd hno hnot
    · simp only [Function.update_of_ne hut] at hu ⊢
      by_cases hvt : v = t
      · subst hvt
        rcases h.apart u v huv hrole hu hacq with hlt | ⟨hno, -⟩
        · exact Or.inl hlt
        · exact absurd hno hnot
      · simp only [Function.update_of_ne hvt] at hv ⊢
        exact h.apart u v huv hrole hu hv

/-! ## Runs -/

/-- The times of the threads that have given the lock back: a writer got it and gave it back with
nothing in between, and only the times of readers overlap. -/
def Separate (role : T → Role) (s : Config T (Shared T S) Cond Place) : Prop :=
  (∀ w, role w = .writer → (s.thread w).place.released = true →
    s.shared.releaseTime w = s.shared.acquireTime w + 1) ∧
  ∀ t u, t ≠ u → role t = .writer ∨ role u = .writer → (s.thread t).place.released = true →
    (s.thread u).place.released = true →
    s.shared.releaseTime t < s.shared.acquireTime u ∨
      s.shared.releaseTime u < s.shared.acquireTime t

/-- Threads that wait for the lock do so in the loop of `Lock`. -/
theorem run_of_holding (hF : Guards cnt F) (hs : (tests F role spurious).Reachable s)
    (ht : (s.thread t).place.loc = .holding) : (client s).thread t = .run .holding := by
  change (s.thread t).map Place.loc = _
  generalize hx : s.thread t = x at ht
  cases x with
  | run p => exact congrArg Thread.run ht
  | asleep c p =>
    have hsleep : (client s).thread t = .asleep c p.loc := by
      change (s.thread t).map Place.loc = _
      rw [hx]
      rfl
    have hloop := (asleep_at_loop hF (client_reachable hF hs) hsleep).2
    change p.loc = .holding at ht
    rw [ht] at hloop
    cases hloop

variable [Fintype T]

theorem alone_of_reachable (hF : Guards cnt F) (hs : (tests F role spurious).Reachable s) :
    Alone role fun t => (s.thread t).place := by
  have hex := exclusive_of_reachable hF (client_reachable hF hs)
  rintro t u htu hrole ht hu
  have ht := run_of_holding hF hs ht
  have hu := run_of_holding hF hs hu
  rcases hrole with hrole | hrole
  · exact hex.alone htu hrole ht hu
  · exact hex.alone htu.symm hrole hu ht

theorem times_of_reachable (hF : Guards cnt F) (hs : (tests F role spurious).Reachable s) :
    Times role s.shared fun t => (s.thread t).place := by
  refine hs.induct (I := fun s => Times role s.shared fun t => (s.thread t).place) ?_ ?_
  · rintro s ⟨-, hstart⟩
    simp only [hstart]
    constructor <;> nofun
  · intro s l s' hreach ih hstep
    have hone := alone_of_reachable hF hreach
    rcases hstep.place with ⟨hshared, hplace⟩ | ⟨t, p, o, ho, ht, hshared, hplace⟩
    · simp only [hshared, hplace]
      exact ih
    · rw [hshared, hplace]
      have hp : (s.thread t).place = p := by
        rw [ht]
        rfl
      -- a section of `Lock` lets the thread in or not
      have hadmits : ∀ r o', Admits cnt s.shared.lock r o' → p = .lock ∨ p = .loop →
          o = s.shared.call o' → Times role o.shared
            (Function.update (fun u => (s.thread u).place) t o.thread.place) := by
        rintro r o' ho' hp' rfl
        refine ih.call o'.shared ?_ ?_ ?_
        · rw [hp]
          rcases hp' with rfl | rfl <;> cases ho' <;> rfl
        · rw [hp]
          rcases hp' with rfl | rfl <;> cases ho' <;> rfl
        · cases ho' <;> nofun
      cases p with
      | lock => exact hadmits _ _ (hF.lock _ _) (Or.inl rfl) (List.mem_singleton.1 ho)
      | loop => exact hadmits _ _ (hF.loop _ _) (Or.inr rfl) (List.mem_singleton.1 ho)
      | acquire =>
        obtain rfl := List.mem_singleton.1 ho
        exact ih.acquire hone hp
      | release =>
        obtain rfl := List.mem_singleton.1 ho
        exact ih.release hone hp
      | unlock =>
        obtain rfl := List.mem_singleton.1 ho
        simp only [Shared.call, hF.unlock]
        exact ih.call _ (by rw [hp]; rfl) (by rw [hp]; rfl) nofun
      | finished => exact absurd ho List.not_mem_nil

omit [DecidableEq T] [Fintype T] in
theorem Times.separate (h : Times role s.shared fun t => (s.thread t).place) :
    Separate role s := by
  refine ⟨h.at_once, ?_⟩
  intro t u htu hrole ht hu
  rcases h.apart t u htu hrole ht (Place.acquired_of_released hu) with hlt | ⟨-, hlt⟩
  · exact Or.inl hlt
  · exact Or.inr hlt

/-- In every run of either test, whatever the order of the turns and the wake-ups. -/
theorem tests_separate (role : T → Role) :
    (∀ s, (tests ReaderPref.functions role True).Reachable s → Separate role s) ∧
      ∀ s, (tests WriterPref.functions role True).Reachable s → Separate role s :=
  ⟨fun _ hs => (times_of_reachable ReaderPref.guards hs).separate,
    fun _ hs => (times_of_reachable WriterPref.guards hs).separate⟩

/-- A reader and a writer, one after the other. -/
theorem tests_separate_reader_writer : ∃ s : Config Bool (Shared Bool read_write_lock) Cond Place,
    (∀ t, s.thread t = .run .finished) ∧
      Separate (fun b => cond b .reader .writer) s := by
  let role : Bool → Role := fun b => cond b .reader .writer
  have h₀ : (tests ReaderPref.functions role True).Reachable
      ⟨⟨⟨0⟩, 0, fun _ => 0, fun _ => 0⟩, fun _ => .run .lock⟩ := .init ⟨⟨⟨⟨0⟩, rfl⟩, rfl⟩, fun _ => rfl⟩
  have h₁ := h₀.step (.turn (t := true) rfl List.mem_cons_self .nil)
  have h₂ := h₁.step (.turn (t := true) rfl List.mem_cons_self .nil)
  have h₃ := h₂.step (.turn (t := true) rfl List.mem_cons_self .nil)
  have h₄ := h₃.step (.turn (t := true) rfl List.mem_cons_self
    (.lost (fun t p ht => by cases t <;> cases ht) .nil))
  have h₅ := h₄.step (.turn (t := false) rfl List.mem_cons_self .nil)
  have h₆ := h₅.step (.turn (t := false) rfl List.mem_cons_self .nil)
  have h₇ := h₆.step (.turn (t := false) rfl List.mem_cons_self .nil)
  have h₈ := h₇.step (.turn (t := false) rfl List.mem_cons_self
    (.broadcast (.lost (fun t p ht => by cases t <;> cases ht) .nil)))
  exact ⟨_, fun t => by cases t <;> rfl, (tests_separate role).1 _ h₈⟩

/-! ## Every run ends -/

/-- What a thread has left to do. The section of `Unlock` of a writer wakes up to one writer and
all readers. -/
def left (n : ℕ) : Thread Cond Place → ℕ
  | .run .lock => n + 6
  | .run .loop => n + 6
  | .run .acquire => n + 4
  | .run .release => n + 3
  | .run .unlock => n + 2
  | .run .finished => 0
  | .asleep _ _ => n + 5

theorem left_le (n : ℕ) (c : Cond) (p : Place) : left n (.run p) ≤ left n (.asleep c p) + 1 := by
  cases p <;> simp [left]

/-- `Lock` wakes nobody, and `Unlock` everybody once at most, and one more. -/
structure Frugal (F : Functions S) : Prop where
  lock : ∀ r s, (F.Lock r s).wakes = []
  loop : ∀ r s, (F.Loop r s).wakes = []
  unlock : ∀ r s, cost T (F.Unlock r s).wakes ≤ Fintype.card T + 1

omit [DecidableEq T] in
theorem left_of_admits {lock : S} {r : Role} {o : Section S} (ho : Admits cnt lock r o) (n : ℕ) :
    left n (o.thread.map goesOn) ≤ n + 5 := by
  cases ho <;> simp [left, goesOn, wait, unlock]

/-- In a turn a thread does a part of what it has left to do. -/
theorem left_of_turn (hF : Guards cnt F) (hfrugal : Frugal (T := T) F) {t : T} {p : Place}
    {s : Shared T S} {o : Outcome (Shared T S) Cond Place} (ho : o ∈ body F role t p s) :
    left (Fintype.card T) o.thread + cost T o.wakes + 1 ≤ left (Fintype.card T) (.run p) := by
  cases p with
  | lock =>
    obtain rfl := List.mem_singleton.1 ho
    have hleft := left_of_admits (hF.lock (role t) s.lock) (Fintype.card T)
    simp only [Shared.call, hfrugal.lock, cost]
    exact Nat.succ_le_succ hleft
  | loop =>
    obtain rfl := List.mem_singleton.1 ho
    have hleft := left_of_admits (hF.loop (role t) s.lock) (Fintype.card T)
    simp only [Shared.call, hfrugal.loop, cost]
    exact Nat.succ_le_succ hleft
  | acquire =>
    obtain rfl := List.mem_singleton.1 ho
    exact le_rfl
  | release =>
    obtain rfl := List.mem_singleton.1 ho
    exact le_rfl
  | unlock =>
    obtain rfl := List.mem_singleton.1 ho
    have hcost := hfrugal.unlock (role t) s.lock
    simp only [Shared.call, hF.unlock, Thread.map_run, goesOn, left]
    omega
  | finished => exact absurd ho List.not_mem_nil

/-- A run without spurious wake-ups is bounded. -/
theorem length_le (hF : Guards cnt F) (hfrugal : Frugal (T := T) F) {tr : List (Label T)}
    (h : (tests F role False).Run tr s) :
    tr.length ≤ Fintype.card T * (Fintype.card T + 6) := by
  have hle := length_add_total_le (n := 0) (fun _ => 0) (left_le (Fintype.card T))
    (fun _ _ => le_rfl) ?_ h
  · simp only [left] at hle
    omega
  · intro s _ t p _ o ho
    have := left_of_turn hF hfrugal ho
    omega

omit [Fintype T] in
theorem body_ne_nil (t : T) (p : Place) (hp : p ≠ .finished) (s : Shared T S) :
    body F role t p s ≠ [] := by
  cases p with
  | finished => exact absurd rfl hp
  | _ => exact List.cons_ne_nil _ _

omit [DecidableEq T] [Fintype T] in
/-- A deadlock of the tests is one of the threads that use the lock. -/
theorem deadlock_client (h : Monitor.Deadlock .finished s.thread) :
    RWLock.Deadlock (client s).thread := by
  obtain ⟨⟨t, ht⟩, hall⟩ := h
  have hsleep : ∀ u, s.thread u ≠ .run .finished → ∃ c p, (client s).thread u = .asleep c p := by
    intro u hu
    obtain ⟨c, p, hsleep⟩ := hall u hu
    refine ⟨c, p.loc, ?_⟩
    change (s.thread u).map Place.loc = _
    rw [hsleep]
    rfl
  refine ⟨⟨t, ?_⟩, ?_⟩
  · obtain ⟨c, p, hsleep⟩ := hsleep t ht
    rw [hsleep]
    nofun
  · intro u hu
    refine hsleep u ?_
    intro hfin
    refine hu ?_
    change (s.thread u).map Place.loc = _
    rw [hfin]
    rfl

/-! ## `main` -/

/-- The readers and the writers that `main` creates. -/
abbrev Threads (read_num_threads write_num_threads : ℕ) :=
  Fin (2 * read_num_threads) ⊕ Fin write_num_threads

def roles (n m : ℕ) : Threads n m → Role := Sum.elim (fun _ => .reader) fun _ => .writer

/-- `*max_element`, where there is an element. -/
def max_element (l : List ℕ) : ℕ := l.max?.getD 0

/-- `*min_element`, where there is an element. -/
def min_element (l : List ℕ) : ℕ := l.min?.getD 0

section

variable {n m : ℕ} (s : Shared (Threads n m) S)

def readerAcquireTime : List ℕ := List.ofFn fun i : Fin (2 * n) => s.acquireTime (.inl i)

def readerReleaseTime : List ℕ := List.ofFn fun i : Fin (2 * n) => s.releaseTime (.inl i)

def writerAcquireTime : List ℕ := List.ofFn fun i : Fin m => s.acquireTime (.inr i)

def writerReleaseTime : List ℕ := List.ofFn fun i : Fin m => s.releaseTime (.inr i)

/-- The check of both tests that a writer gave the lock back right after it got it. -/
def writers_check : String :=
  if ∃ i : Fin m, (s.releaseTime (.inr i) : ℤ) - s.acquireTime (.inr i) ≠ 1 then
    "No reader/ writer is allowed when a writer holds lock\n"
  else "PASSED\n"

/-- What `main` of `test-reader-pref.cpp` prints once it has joined the threads. -/
def main_reader_pref : String :=
  if n > 0 ∧ max_element (readerAcquireTime s) > min_element (readerReleaseTime s) then
    "Reader should not wait to acquire lock\n"
  else if n > 0 ∧ m > 0 ∧ min_element (writerAcquireTime s) < max_element (readerReleaseTime s) then
    "All readers get lock before any writer\n"
  else writers_check s

/-- What `main` of `test-writer-pref.cpp` prints once it has joined the threads. -/
def main_writer_pref : String :=
  if n > 0 ∧ max_element ((readerAcquireTime s).drop n) >
      min_element ((readerReleaseTime s).drop n) then
    "Reader should not wait to acquire lock in second half\n"
  else if n > 0 ∧ m > 0 ∧ min_element ((readerAcquireTime s).drop n) <
      max_element (writerReleaseTime s) then
    "Reader can not acquire lock when writer is holding a lock\n"
  else writers_check s

end

omit [DecidableEq T] [Fintype T] in
theorem Separate.writers_check {n m : ℕ} {s : Config (Threads n m) (Shared (Threads n m) S) Cond Place}
    (h : Separate (roles n m) s) (hfin : ∀ t, s.thread t = .run .finished) :
    writers_check s.shared = "PASSED\n" := by
  refine if_neg ?_
  rintro ⟨i, hi⟩
  have hone := h.1 (.inr i) rfl (by rw [hfin]; rfl)
  omega

omit [Fintype T] in
/-- Where nothing more can happen, all threads are done. -/
theorem finished_of_stuck (hF : Guards cnt F)
    (hlive : ∀ s, (threads F role spurious).Reachable s → ¬ RWLock.Deadlock s.thread)
    (hs : (tests F role spurious).Reachable s)
    (hstuck : ∀ l s', ¬ (tests F role spurious).step s l s') (t : T) :
    s.thread t = .run .finished :=
  Monitor.finished_of_stuck (fun t p _ hp => body_ne_nil t p hp s.shared) hstuck
    (fun hdead => hlive _ (client_reachable hF hs) (deadlock_client hdead)) t

omit [DecidableEq T] in
theorem readerPref_frugal : Frugal (T := T) ReaderPref.functions where
  lock r s := (ReaderPref.handsOver.lock r s).wakes
  loop r s := (ReaderPref.handsOver.loop r s).wakes
  unlock r s := by
    cases r with
    | reader =>
      change cost T (if _ then _ else _) ≤ _
      split <;> simp [cost]
    | writer =>
      change cost T [_, _] ≤ _
      simp [cost]

omit [DecidableEq T] in
theorem writerPref_frugal : Frugal (T := T) WriterPref.functions where
  lock r s := (WriterPref.handsOver.lock r s).wakes
  loop r s := (WriterPref.handsOver.loop r s).wakes
  unlock r s := by
    cases r with
    | reader =>
      change cost T (if _ then _ else _) ≤ _
      split <;> simp [cost]
    | writer =>
      change cost T (if _ then _ else _) ≤ _
      split <;> simp [cost]

theorem readerPref_live {s : Config T read_write_lock Cond Loc}
    (hs : (threads ReaderPref.functions role spurious).Reachable s) : ¬ RWLock.Deadlock s.thread :=
  not_deadlock (exclusive_of_reachable ReaderPref.guards hs) (ReaderPref.awaited hs) nofun

theorem writerPref_live {s : Config T WriterPref.Shared Cond Loc}
    (hs : (threads WriterPref.functions role spurious).Reachable s) :
    ¬ RWLock.Deadlock s.thread := by
  refine not_deadlock (exclusive_of_reachable WriterPref.guards hs) (WriterPref.awaited hs) ?_
  intro hq
  obtain ⟨t, -, ht | ht⟩ := (WriterPref.queue_iff hs).1 hq
  · exact ⟨t, Or.inl ⟨_, ht⟩⟩
  · exact ⟨t, Or.inr ht⟩

/-- Without spurious wake-ups both tests end: a run takes a bounded number of steps, and where
nothing more can happen all threads are done. Then `main` does not find a writer that was not
alone. -/
theorem tests_end (n m : ℕ) :
    (∀ tr s, (tests ReaderPref.functions (roles n m) False).Run tr s →
      tr.length ≤ (2 * n + m) * (2 * n + m + 6) ∧
      ((∀ l s', ¬ (tests ReaderPref.functions (roles n m) False).step s l s') →
        (∀ t, s.thread t = .run .finished) ∧
        main_reader_pref s.shared ∈ ["Reader should not wait to acquire lock\n",
          "All readers get lock before any writer\n", "PASSED\n"])) ∧
    ∀ tr s, (tests WriterPref.functions (roles n m) False).Run tr s →
      tr.length ≤ (2 * n + m) * (2 * n + m + 6) ∧
      ((∀ l s', ¬ (tests WriterPref.functions (roles n m) False).step s l s') →
        (∀ t, s.thread t = .run .finished) ∧
        main_writer_pref s.shared ∈ ["Reader should not wait to acquire lock in second half\n",
          "Reader can not acquire lock when writer is holding a lock\n", "PASSED\n"]) := by
  have hcard : Fintype.card (Threads n m) = 2 * n + m := by simp [Threads]
  constructor
  · intro tr s h
    refine ⟨hcard ▸ length_le ReaderPref.guards readerPref_frugal h, ?_⟩
    intro hstuck
    have hfin := finished_of_stuck ReaderPref.guards (fun _ hs => readerPref_live hs) ⟨tr, h⟩ hstuck
    refine ⟨hfin, ?_⟩
    have hsep := (times_of_reachable ReaderPref.guards ⟨tr, h⟩).separate.writers_check hfin
    rw [main_reader_pref, hsep]
    split
    · simp
    · split <;> simp
  · intro tr s h
    refine ⟨hcard ▸ length_le WriterPref.guards writerPref_frugal h, ?_⟩
    intro hstuck
    have hfin := finished_of_stuck WriterPref.guards (fun _ hs => writerPref_live hs) ⟨tr, h⟩ hstuck
    refine ⟨hfin, ?_⟩
    have hsep := (times_of_reachable WriterPref.guards ⟨tr, h⟩).separate.writers_check hfin
    rw [main_writer_pref, hsep]
    split
    · simp
    · split <;> simp

omit [Fintype T] in
/-- Where all threads are done nothing more happens. -/
theorem stuck_of_finished {F : Functions S} {role : T → Role} {s : Config T (Shared T S) Cond Place}
    (hfin : ∀ t, s.thread t = .run .finished) (l : Label T)
    (s' : Config T (Shared T S) Cond Place) :
    ¬ (tests F role False).step s l s' := by
  rintro (⟨ht, ho, -⟩ | ⟨hno, -⟩)
  · rw [hfin] at ht
    cases ht
    exact absurd ho List.not_mem_nil
  · exact hno

/-- Two readers and a writer: the writer waits for the first reader, which wakes it, and the second
reader comes last. -/
theorem tests_end_writer :
    (∃ tr s, (tests ReaderPref.functions (roles 1 1) False).Run tr s ∧ tr.length = 13 ∧
      (∀ t, s.thread t = .run .finished) ∧
      main_reader_pref s.shared ≠ "No reader/ writer is allowed when a writer holds lock\n") ∧
    ∃ tr s, (tests WriterPref.functions (roles 1 1) False).Run tr s ∧ tr.length = 13 ∧
      (∀ t, s.thread t = .run .finished) ∧
      main_writer_pref s.shared ≠ "No reader/ writer is allowed when a writer holds lock\n" := by
  let r : Threads 1 1 := .inl 0
  let r' : Threads 1 1 := .inl 1
  let w : Threads 1 1 := .inr 0
  constructor
  · have h₀ : (tests ReaderPref.functions (roles 1 1) False).Run []
        ⟨⟨⟨0⟩, 0, fun _ => 0, fun _ => 0⟩, fun _ => .run .lock⟩ :=
      .init ⟨⟨⟨⟨0⟩, rfl⟩, rfl⟩, fun _ => rfl⟩
    -- the reader has the lock when the writer comes
    have h₁ := h₀.step (.turn (t := r) rfl List.mem_cons_self .nil)
    have h₂ := h₁.step (.turn (t := w) rfl List.mem_cons_self .nil)
    have h₃ := h₂.step (.turn (t := r) rfl List.mem_cons_self .nil)
    have h₄ := h₃.step (.turn (t := r) rfl List.mem_cons_self .nil)
    have h₅ := h₄.step (.turn (t := r) rfl List.mem_cons_self (.signal (t := w) rfl .nil))
    have h₆ := h₅.step (.turn (t := w) rfl List.mem_cons_self .nil)
    have h₇ := h₆.step (.turn (t := w) rfl List.mem_cons_self .nil)
    have h₈ := h₇.step (.turn (t := w) rfl List.mem_cons_self .nil)
    have h₉ := h₈.step (.turn (t := w) rfl List.mem_cons_self
      (.broadcast (.lost (fun t p ht => by rcases t with t | t <;> fin_cases t <;> cases ht) .nil)))
    have h₁₀ := h₉.step (.turn (t := r') rfl List.mem_cons_self .nil)
    have h₁₁ := h₁₀.step (.turn (t := r') rfl List.mem_cons_self .nil)
    have h₁₂ := h₁₁.step (.turn (t := r') rfl List.mem_cons_self .nil)
    have h₁₃ := h₁₂.step (.turn (t := r') rfl List.mem_cons_self
      (.lost (fun t p ht => by rcases t with t | t <;> fin_cases t <;> cases ht) .nil))
    obtain ⟨-, hend⟩ := (tests_end 1 1).1 _ _ h₁₃
    obtain ⟨hfin, hmain⟩ := hend (stuck_of_finished fun t => by
      rcases t with t | t <;> fin_cases t <;> rfl)
    refine ⟨_, _, h₁₃, rfl, hfin, fun hno => ?_⟩
    rw [hno] at hmain
    exact absurd hmain (by decide)
  · have h₀ : (tests WriterPref.functions (roles 1 1) False).Run []
        ⟨⟨⟨⟨0⟩, 0⟩, 0, fun _ => 0, fun _ => 0⟩, fun _ => .run .lock⟩ :=
      .init ⟨⟨⟨⟨⟨0⟩, rfl⟩, rfl⟩, rfl⟩, fun _ => rfl⟩
    have h₁ := h₀.step (.turn (t := r) rfl List.mem_cons_self .nil)
    have h₂ := h₁.step (.turn (t := w) rfl List.mem_cons_self .nil)
    have h₃ := h₂.step (.turn (t := r) rfl List.mem_cons_self .nil)
    have h₄ := h₃.step (.turn (t := r) rfl List.mem_cons_self .nil)
    have h₅ := h₄.step (.turn (t := r) rfl List.mem_cons_self (.signal (t := w) rfl .nil))
    have h₆ := h₅.step (.turn (t := w) rfl List.mem_cons_self .nil)
    have h₇ := h₆.step (.turn (t := w) rfl List.mem_cons_self .nil)
    have h₈ := h₇.step (.turn (t := w) rfl List.mem_cons_self .nil)
    have h₉ := h₈.step (.turn (t := w) rfl List.mem_cons_self (.broadcast .nil))
    have h₁₀ := h₉.step (.turn (t := r') rfl List.mem_cons_self .nil)
    have h₁₁ := h₁₀.step (.turn (t := r') rfl List.mem_cons_self .nil)
    have h₁₂ := h₁₁.step (.turn (t := r') rfl List.mem_cons_self .nil)
    have h₁₃ := h₁₂.step (.turn (t := r') rfl List.mem_cons_self
      (.lost (fun t p ht => by rcases t with t | t <;> fin_cases t <;> cases ht) .nil))
    obtain ⟨-, hend⟩ := (tests_end 1 1).2 _ _ h₁₃
    obtain ⟨hfin, hmain⟩ := hend (stuck_of_finished fun t => by
      rcases t with t | t <;> fin_cases t <;> rfl)
    refine ⟨_, _, h₁₃, rfl, hfin, fun hno => ?_⟩
    rw [hno] at hmain
    exact absurd hmain (by decide)

end RWLock.Tests

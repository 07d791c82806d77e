/-
  Threads that share a mutex and condition variables: sections under the mutex are atomic,
  a wait joins the wait set of a condition, a signal wakes an arbitrary waiter, and a woken
  thread goes on from where it waits.
-/
import Mathlib.Tactic
import OSModules.Lib.Runs

namespace Monitor

open Runs

variable {T S C P : Type}

/-- A thread goes on at a place of its program, or is in the wait set of a condition and goes on
at a place once it is woken. -/
inductive Thread (C P : Type)
  | run (p : P)
  | asleep (c : C) (p : P)
  deriving DecidableEq

section
variable [Fintype T]

/-- One thread changes, and with it a sum over the threads. -/
theorem sum_update [DecidableEq T] (r : T → Thread C P → ℕ) (f : T → Thread C P) (t : T)
    (x : Thread C P) :
    ∑ u, r u (Function.update f t x u) + r t (f t) = ∑ u, r u (f u) + r t x := by
  have hrest : ∑ u ∈ Finset.univ.erase t, r u (Function.update f t x u) =
      ∑ u ∈ Finset.univ.erase t, r u (f u) :=
    Finset.sum_congr rfl fun u hu => by
      rw [Function.update_of_ne (Finset.ne_of_mem_erase hu)]
  rw [← Finset.add_sum_erase _ _ (Finset.mem_univ t), hrest,
    ← Finset.add_sum_erase _ _ (Finset.mem_univ t), Function.update_self]
  omega

/-- How many threads have the property `q`. -/
def count (q : T → Thread C P → Prop) [∀ t x, Decidable (q t x)] (f : T → Thread C P) : ℕ :=
  ∑ t, if q t (f t) then 1 else 0

variable {q : T → Thread C P → Prop} [∀ t x, Decidable (q t x)] {f g : T → Thread C P}

theorem count_eq_zero : count q f = 0 ↔ ∀ t, ¬ q t (f t) := by
  rw [count, Finset.sum_eq_zero_iff]
  constructor
  · intro h t ht
    have := h t (Finset.mem_univ t)
    rw [if_pos ht] at this
    exact absurd this one_ne_zero
  · intro h t _
    exact if_neg (h t)

theorem count_pos : 0 < count q f ↔ ∃ t, q t (f t) := by
  rw [Nat.pos_iff_ne_zero, ne_eq, count_eq_zero, not_forall_not]

theorem count_congr (h : ∀ t, q t (g t) ↔ q t (f t)) : count q g = count q f :=
  Finset.sum_congr rfl fun t _ => if_congr (h t) rfl rfl

theorem count_le (h : ∀ t, q t (g t) → q t (f t)) : count q g ≤ count q f := by
  refine Finset.sum_le_sum fun t _ => ?_
  by_cases hg : q t (g t)
  · rw [if_pos hg, if_pos (h t hg)]
  · rw [if_neg hg]
    exact Nat.zero_le _

/-- Threads with a property are those with one of two that exclude each other. -/
theorem count_or {q₁ q₂ : T → Thread C P → Prop} [∀ t x, Decidable (q₁ t x)]
    [∀ t x, Decidable (q₂ t x)] (hor : ∀ t, q t (f t) ↔ q₁ t (f t) ∨ q₂ t (f t))
    (hdisj : ∀ t, q₁ t (f t) → ¬ q₂ t (f t)) : count q f = count q₁ f + count q₂ f := by
  rw [count, count, count, ← Finset.sum_add_distrib]
  refine Finset.sum_congr rfl fun t _ => ?_
  by_cases h₁ : q₁ t (f t)
  · rw [if_pos ((hor t).2 (Or.inl h₁)), if_pos h₁, if_neg (hdisj t h₁)]
  · by_cases h₂ : q₂ t (f t)
    · rw [if_pos ((hor t).2 (Or.inr h₂)), if_neg h₁, if_pos h₂]
    · rw [if_neg fun h => ((hor t).1 h).elim h₁ h₂, if_neg h₁, if_neg h₂]

/-- One thread changes. -/
theorem count_update [DecidableEq T] (f : T → Thread C P) (t : T) (x : Thread C P) :
    count q (Function.update f t x) + (if q t (f t) then 1 else 0) =
      count q f + if q t x then 1 else 0 :=
  sum_update (fun t x => if q t x then 1 else 0) f t x

end

inductive Wake (C : Type)
  | signal (c : C)
  | broadcast (c : C)
  deriving DecidableEq

/-- What an atomic section does: the shared state it leaves, the conditions it signals, in order,
and what becomes of its thread. -/
structure Outcome (S C P : Type) where
  shared : S
  wakes : List (Wake C)
  thread : Thread C P

/-- The shared state and the threads. -/
structure Config (T S C P : Type) where
  shared : S
  thread : T → Thread C P

/-- Some thread is not finished, and all threads that are not finished are asleep. -/
def Deadlock (finished : P) (f : T → Thread C P) : Prop :=
  (∃ t, f t ≠ .run finished) ∧ ∀ t, f t ≠ .run finished → ∃ c p, f t = .asleep c p

theorem Deadlock.finished {finished : P} {f : T → Thread C P} (h : Deadlock finished f) {t : T}
    {p : P} (ht : f t = .run p) : p = finished := by
  by_contra hp
  have hne : f t ≠ .run finished := by
    rw [ht]
    exact fun h => hp (Thread.run.inj h)
  obtain ⟨c, q, hsleep⟩ := h.2 t hne
  rw [ht] at hsleep
  cases hsleep

/-- The sections that a thread can run at a place. -/
abbrev Code (T S C P : Type) := T → P → S → List (Outcome S C P)

inductive Label (T : Type)
  | turn (t : T)
  | spurious (t : T)

variable [DecidableEq T] [DecidableEq C]

/-- The thread after a broadcast on `c`. -/
def Thread.woken (c : C) : Thread C P → Thread C P
  | run p => run p
  | asleep d p => if d = c then run p else asleep d p

/-- `Wakes ws f g`: signals `ws` to the threads `f` can leave the threads `g`. A signal wakes one
thread that waits, if there is one. -/
inductive Wakes : List (Wake C) → (T → Thread C P) → (T → Thread C P) → Prop
  | nil {f} : Wakes [] f f
  | signal {c ws f g t p} : f t = .asleep c p → Wakes ws (Function.update f t (.run p)) g →
      Wakes (.signal c :: ws) f g
  | lost {c ws f g} : (∀ t p, f t ≠ .asleep c p) → Wakes ws f g → Wakes (.signal c :: ws) f g
  | broadcast {c ws f g} : Wakes ws (fun t => (f t).woken c) g → Wakes (.broadcast c :: ws) f g

/-- A thread takes a turn, or is woken although nobody signalled. -/
inductive Step (code : Code T S C P) (spurious : Prop) :
    Config T S C P → Label T → Config T S C P → Prop
  | turn {s t p o g} : s.thread t = .run p → o ∈ code t p s.shared → Wakes o.wakes s.thread g →
      Step code spurious s (.turn t) ⟨o.shared, Function.update g t o.thread⟩
  | spurious {s t c p} : spurious → s.thread t = .asleep c p →
      Step code spurious s (.spurious t) ⟨s.shared, Function.update s.thread t (.run p)⟩

/-- The threads, which start at the place `start`, from an initial shared state. -/
def system (init : S → Prop) (start : P) (code : Code T S C P) (spurious : Prop) :
    LTS (Config T S C P) (Label T) where
  init s := init s.shared ∧ ∀ t, s.thread t = .run start
  step := Step code spurious

/-! ## What signals do -/

variable {f g : T → Thread C P} {ws : List (Wake C)}

/-- A signal leaves a thread as it is or wakes it. -/
theorem Wakes.thread (h : Wakes ws f g) (t : T) :
    g t = f t ∨ ∃ c p, f t = .asleep c p ∧ g t = .run p := by
  induction h with
  | nil => exact Or.inl rfl
  | @signal c ws f g u p hu _ ih =>
    by_cases htu : t = u
    · subst htu
      rw [Function.update_self] at ih
      rcases ih with ih | ⟨_, _, ih, -⟩
      · exact Or.inr ⟨c, p, hu, ih⟩
      · cases ih
    · rwa [Function.update_of_ne htu] at ih
  | lost _ _ ih => exact ih
  | @broadcast c ws f g _ ih =>
    simp only at ih
    cases hft : f t with
    | run p =>
      rw [hft] at ih
      rcases ih with ih | ⟨_, _, ih, -⟩
      · exact Or.inl ih
      · cases ih
    | asleep d p =>
      rw [hft, Thread.woken] at ih
      split at ih
      · rcases ih with ih | ⟨_, _, ih, -⟩
        · exact Or.inr ⟨d, p, rfl, ih⟩
        · cases ih
      · exact ih

/-- A thread that is not asleep keeps its place. -/
theorem Wakes.run (h : Wakes ws f g) {t : T} {p : P} (ht : f t = .run p) : g t = .run p := by
  rcases h.thread t with hg | ⟨c, q, hf, -⟩
  · rw [hg, ht]
  · rw [ht] at hf; cases hf

/-- A thread that is asleep after the signals was asleep before. -/
theorem Wakes.asleep (h : Wakes ws f g) {t : T} {c : C} {p : P} (ht : g t = .asleep c p) :
    f t = .asleep c p := by
  rcases h.thread t with hg | ⟨d, q, -, hg⟩
  · rw [← hg, ht]
  · rw [ht] at hg; cases hg

theorem Wakes.of_nil (h : Wakes [] f g) : g = f := by
  cases h; rfl

theorem Thread.woken_eq_asleep {c d : C} {x : Thread C P} {p : P} (h : x.woken c = .asleep d p) :
    x = .asleep d p ∧ d ≠ c := by
  cases x with
  | run q => cases h
  | asleep e q =>
    rw [Thread.woken] at h
    split at h
    · cases h
    · next hne =>
      cases h
      exact ⟨rfl, hne⟩

/-- If a thread still waits for a condition that was signalled, another one was woken. -/
theorem Wakes.of_signal (h : Wakes ws f g) {c : C} (hc : .signal c ∈ ws) {t : T} {p : P}
    (ht : g t = .asleep c p) : ∃ u q, f u = .asleep c q ∧ g u = .run q := by
  induction h with
  | nil => exact absurd hc List.not_mem_nil
  | @signal d ws f g u p hu hw ih =>
    rcases List.mem_cons.1 hc with hc | hc
    · cases hc
      exact ⟨u, p, hu, hw.run (Function.update_self _ _ _)⟩
    · obtain ⟨v, q, hv, hgv⟩ := ih hc ht
      by_cases hvu : v = u
      · subst hvu
        rw [Function.update_self] at hv
        cases hv
      · rw [Function.update_of_ne hvu] at hv
        exact ⟨v, q, hv, hgv⟩
  | @lost d ws f g hno hw ih =>
    rcases List.mem_cons.1 hc with hc | hc
    · cases hc
      exact absurd (hw.asleep ht) (hno t _)
    · exact ih hc ht
  | @broadcast d ws f g hw ih =>
    rcases List.mem_cons.1 hc with hc | hc
    · cases hc
    · obtain ⟨v, q, hv, hgv⟩ := ih hc ht
      exact ⟨v, q, (Thread.woken_eq_asleep hv).1, hgv⟩

/-- After a broadcast nobody waits. -/
theorem Wakes.of_broadcast (h : Wakes ws f g) {c : C} (hc : .broadcast c ∈ ws) {t : T} {p : P} :
    g t ≠ .asleep c p := by
  induction h with
  | nil => exact absurd hc List.not_mem_nil
  | signal _ _ ih => exact ih ((List.mem_cons.1 hc).resolve_left nofun)
  | lost _ _ ih => exact ih ((List.mem_cons.1 hc).resolve_left nofun)
  | broadcast hw ih =>
    rcases List.mem_cons.1 hc with hc | hc
    · cases hc
      intro ht
      exact (Thread.woken_eq_asleep (hw.asleep ht)).2 rfl
    · exact ih hc

/-- Another thread that is not asleep is left in its place by a turn. -/
theorem Wakes.run_update (h : Wakes ws f g) {t u : T} (hut : u ≠ t) {x : Thread C P} {p : P}
    (hu : f u = .run p) : Function.update g t x u = .run p := by
  rw [Function.update_of_ne hut, h.run hu]

/-- What a step does to a thread: nothing, or it wakes it, or it is the thread's turn. -/
theorem Step.thread {code : Code T S C P} {spurious : Prop} {s s' : Config T S C P} {l : Label T}
    (h : Step code spurious s l s') (x : T) :
    (l ≠ .turn x ∧
      (s'.thread x = s.thread x ∨ ∃ c p, s.thread x = .asleep c p ∧ s'.thread x = .run p)) ∨
      ∃ p, ∃ o ∈ code x p s.shared, l = .turn x ∧ s.thread x = .run p ∧ s'.shared = o.shared ∧
        s'.thread x = o.thread := by
  cases h with
  | @turn t p o g ht ho hw =>
    by_cases hxt : x = t
    · subst hxt
      exact Or.inr ⟨p, o, ho, rfl, ht, rfl, Function.update_self _ _ _⟩
    · simp only [Function.update_of_ne hxt]
      refine Or.inl ⟨?_, hw.thread x⟩
      rintro ⟨⟩
      exact hxt rfl
  | @spurious t c p _ ht =>
    refine Or.inl ⟨by simp, ?_⟩
    by_cases hxt : x = t
    · subst hxt
      exact Or.inr ⟨c, p, ht, Function.update_self _ _ _⟩
    · exact Or.inl (Function.update_of_ne hxt _ _)

omit [DecidableEq C] in
/-- A thread that is asleep after a turn went to sleep in the turn or was not woken by it. -/
theorem asleep_update {t u : T} {x : Thread C P} {c : C} {p : P}
    (hu : Function.update g t x u = .asleep c p) :
    (u = t ∧ x = .asleep c p) ∨ (u ≠ t ∧ g u = .asleep c p) := by
  by_cases hut : u = t
  · subst hut
    rw [Function.update_self] at hu
    exact Or.inl ⟨rfl, hu⟩
  · rw [Function.update_of_ne hut] at hu
    exact Or.inr ⟨hut, hu⟩

omit [DecidableEq C] in
theorem asleep_of_update_run {t u : T} {c : C} {p q : P}
    (hu : Function.update g t (.run q) u = .asleep c p) : g u = .asleep c p := by
  rcases asleep_update hu with ⟨-, hx⟩ | ⟨-, hu⟩
  · cases hx
  · exact hu

/-! ## Where threads wait -/

/-- Threads wait only where their sections put them to sleep. -/
theorem asleep_of_reachable {init : S → Prop} {start : P} {code : Code T S C P} {spurious : Prop}
    {A : T → C → P → Prop}
    (hcode : ∀ t p s, ∀ o ∈ code t p s, ∀ c q, o.thread = .asleep c q → A t c q)
    {s : Config T S C P} (hs : (system init start code spurious).Reachable s) {t : T} {c : C}
    {p : P} (ht : s.thread t = .asleep c p) : A t c p := by
  refine hs.invariant (I := fun s => ∀ t c p, s.thread t = .asleep c p → A t c p) ?_ ?_ t c p ht
  · rintro s ⟨-, hstart⟩ t c p ht
    rw [hstart t] at ht
    cases ht
  · intro s l s' ih hstep u c p hu
    rcases hstep.thread u with ⟨-, hsame | ⟨d, q, -, hwoken⟩⟩ | ⟨q, o, ho, -, -, -, ho'⟩
    · rw [hsame] at hu
      exact ih u c p hu
    · rw [hwoken] at hu
      cases hu
    · exact hcode u q s.shared o ho c p (ho'.symm.trans hu)

/-- Signals can always be sent. -/
theorem Wakes.exists (ws : List (Wake C)) (f : T → Thread C P) : ∃ g, Wakes ws f g := by
  induction ws generalizing f with
  | nil => exact ⟨f, .nil⟩
  | cons w ws ih =>
    cases w with
    | signal c =>
      by_cases hc : ∃ t p, f t = .asleep c p
      · obtain ⟨t, p, ht⟩ := hc
        obtain ⟨g, hg⟩ := ih (Function.update f t (.run p))
        exact ⟨g, .signal ht hg⟩
      · obtain ⟨g, hg⟩ := ih f
        exact ⟨g, .lost (fun t p ht => hc ⟨t, p, ht⟩) hg⟩
    | broadcast c =>
      obtain ⟨g, hg⟩ := ih fun t => (f t).woken c
      exact ⟨g, .broadcast hg⟩

/-- If nothing can happen and this is no deadlock, all threads are finished. -/
theorem finished_of_stuck {code : Code T S C P} {spurious : Prop} {finished : P}
    {s : Config T S C P}
    (hcode : ∀ t p, s.thread t = .run p → p ≠ finished → code t p s.shared ≠ [])
    (hstuck : ∀ l s', ¬ Step code spurious s l s') (hdead : ¬ Deadlock finished s.thread) (t : T) :
    s.thread t = .run finished := by
  by_contra ht
  refine hdead ⟨⟨t, ht⟩, ?_⟩
  intro u hu
  generalize hx : s.thread u = x
  cases x with
  | asleep c p => exact ⟨c, p, rfl⟩
  | run p =>
    have hp : p ≠ finished := by
      rintro rfl
      exact hu hx
    obtain ⟨o, ho⟩ := List.exists_mem_of_ne_nil _ (hcode u p hx hp)
    obtain ⟨g, hg⟩ := Wakes.exists o.wakes s.thread
    exact absurd (Step.turn hx ho hg) (hstuck _ _)

/-! ## Threads with fewer places -/

variable {P' : Type} {h : P → P'}

def Thread.map (h : P → P') : Thread C P → Thread C P'
  | run p => run (h p)
  | asleep c p => asleep c (h p)

omit [DecidableEq C] in
@[simp] theorem Thread.map_run (p : P) : (run p : Thread C P).map h = run (h p) := rfl

omit [DecidableEq C] in
@[simp] theorem Thread.map_asleep (c : C) (p : P) : (asleep c p).map h = asleep c (h p) := rfl

omit [DecidableEq C] in
theorem Thread.map_eq_asleep {x : Thread C P} {c : C} {p' : P'} (hx : x.map h = asleep c p') :
    ∃ p, x = asleep c p ∧ h p = p' := by
  cases x with
  | run p => cases hx
  | asleep d p =>
    cases hx
    exact ⟨p, rfl, rfl⟩

theorem Thread.woken_map (c : C) (x : Thread C P) : (x.map h).woken c = (x.woken c).map h := by
  cases x with
  | run p => rfl
  | asleep d p =>
    rw [Thread.map_asleep, Thread.woken, Thread.woken]
    split <;> rfl

omit [DecidableEq C] in
theorem map_update (f : T → Thread C P) (t : T) (x : Thread C P) :
    (fun u => (Function.update f t x u).map h) =
      Function.update (fun u => (f u).map h) t (x.map h) := by
  funext u
  by_cases hut : u = t
  · subst hut
    simp only [Function.update_self]
  · simp only [Function.update_of_ne hut]

/-- Signals do not depend on the places. -/
theorem Wakes.map (hw : Wakes ws f g) : Wakes ws (fun t => (f t).map h) (fun t => (g t).map h) := by
  induction hw with
  | nil => exact .nil
  | @signal c ws f g t p ht _ ih =>
    rw [map_update] at ih
    refine .signal (t := t) (p := h p) ?_ ih
    rw [ht]
    rfl
  | lost hno _ ih =>
    refine .lost ?_ ih
    intro t p' ht
    obtain ⟨p, hp, -⟩ := Thread.map_eq_asleep ht
    exact hno t p hp
  | broadcast _ ih =>
    refine .broadcast ?_
    simpa only [Thread.woken_map] using ih

/-! ## Where threads are -/

/-- The place a thread is at, or goes on at once it is woken. -/
def Thread.place : Thread C P → P
  | run p => p
  | asleep _ p => p

theorem Wakes.place (hw : Wakes ws f g) (t : T) : (g t).place = (f t).place := by
  rcases hw.thread t with hg | ⟨c, p, hf, hg⟩
  · rw [hg]
  · rw [hf, hg]
    rfl

/-- A step changes the place of the thread whose turn it is, and the shared state with it. -/
theorem Step.place {code : Code T S C P} {spurious : Prop} {s s' : Config T S C P} {l : Label T}
    (hstep : Step code spurious s l s') :
    (s'.shared = s.shared ∧ ∀ u, (s'.thread u).place = (s.thread u).place) ∨
      ∃ t p, ∃ o ∈ code t p s.shared, s.thread t = .run p ∧ s'.shared = o.shared ∧
        (fun u => (s'.thread u).place) =
          Function.update (fun u => (s.thread u).place) t o.thread.place := by
  cases hstep with
  | @turn t p o g ht ho hw =>
    refine Or.inr ⟨t, p, o, ho, ht, rfl, ?_⟩
    funext u
    by_cases hut : u = t
    · subst hut
      simp only [Function.update_self]
    · simp only [Function.update_of_ne hut, hw.place]
  | @spurious t c p _ ht =>
    refine Or.inl ⟨rfl, ?_⟩
    intro u
    by_cases hut : u = t
    · subst hut
      simp only [Function.update_self, ht]
      rfl
    · simp only [Function.update_of_ne hut]

/-! ## Counting threads -/

variable [Fintype T] {q : T → Thread C P → Prop} [∀ t x, Decidable (q t x)]

/-- A turn of a thread changes a count by what it changes for the thread, if waking a thread
changes nothing. -/
theorem Wakes.count_update (h : Wakes ws f g)
    (hq : ∀ t c p, f t = .asleep c p → (q t (.run p) ↔ q t (.asleep c p))) {t : T} {p : P}
    (ht : f t = .run p) (x : Thread C P) :
    count q (Function.update g t x) + (if q t (.run p) then 1 else 0) =
      count q f + if q t x then 1 else 0 := by
  have hg : count q g = count q f := by
    refine count_congr fun u => ?_
    rcases h.thread u with hu | ⟨c, p, hu, hu'⟩
    · rw [hu]
    · rw [hu, hu', hq u c p hu]
  rw [← hg, ← h.run ht]
  exact Monitor.count_update g t x

/-! ## What is left to do -/

/-- The sum of what the threads have left to do. -/
def total (r : Thread C P → ℕ) (f : T → Thread C P) : ℕ := ∑ t, r (f t)

omit [DecidableEq C] in
theorem total_update (r : Thread C P → ℕ) (f : T → Thread C P) (t : T) (x : Thread C P) :
    total r (Function.update f t x) + r (f t) = total r f + r x :=
  sum_update (fun _ => r) f t x

/-- A signal adds to what is left what it adds for the thread that it wakes. -/
theorem Wakes.total_le {r : Thread C P → ℕ} (hr : ∀ c p, r (.run p) ≤ r (.asleep c p) + 1)
    (hws : ∀ c, .broadcast c ∉ ws) (h : Wakes ws f g) : total r g ≤ total r f + ws.length := by
  induction h with
  | nil => exact le_rfl
  | @signal c ws f g t p ht _ ih =>
    have ih := ih fun d hd => hws d (List.mem_cons_of_mem _ hd)
    have hsum := total_update r f t (.run p)
    have hrt := hr c p
    rw [ht] at hsum
    rw [List.length_cons]
    omega
  | lost _ _ ih =>
    have ih := ih fun d hd => hws d (List.mem_cons_of_mem _ hd)
    rw [List.length_cons]
    omega
  | @broadcast c => exact absurd List.mem_cons_self (hws c)

/-- How many threads the signals can wake. -/
def cost (T : Type) [Fintype T] : List (Wake C) → ℕ
  | [] => 0
  | .signal _ :: ws => 1 + cost T ws
  | .broadcast _ :: ws => Fintype.card T + cost T ws

theorem Wakes.total_le_cost {r : Thread C P → ℕ} (hr : ∀ c p, r (.run p) ≤ r (.asleep c p) + 1)
    (h : Wakes ws f g) : total r g ≤ total r f + cost T ws := by
  induction h with
  | nil => exact le_rfl
  | @signal c ws f g t p ht _ ih =>
    have hsum := total_update r f t (.run p)
    have hrt := hr c p
    rw [ht] at hsum
    rw [cost]
    omega
  | lost _ _ ih =>
    rw [cost]
    omega
  | @broadcast c ws f g _ ih =>
    have hwoken : total r (fun t => (f t).woken c) ≤ total r f + Fintype.card T := by
      rw [total, total, Fintype.card, Finset.card_eq_sum_ones, ← Finset.sum_add_distrib]
      refine Finset.sum_le_sum fun t _ => ?_
      cases hft : f t with
      | run p => exact Nat.le_succ _
      | asleep d p =>
        rw [Thread.woken]
        split
        · exact hr d p
        · exact Nat.le_succ _
    rw [cost]
    omega

/-- Without spurious wake-ups, a run is bounded if each turn leaves less to do, also for the threads
that it can wake. -/
theorem length_add_total_le {init : S → Prop} {start : P} {code : Code T S C P} (todo : S → ℕ)
    {r : Thread C P → ℕ} {n : ℕ} (hr : ∀ c p, r (.run p) ≤ r (.asleep c p) + 1)
    (hinit : ∀ s, init s → todo s ≤ n)
    (hturn : ∀ s, (system init start code False).Reachable s → ∀ t p, s.thread t = .run p →
      ∀ o ∈ code t p s.shared,
        todo o.shared + r o.thread + cost T o.wakes + 1 ≤ todo s.shared + r (.run p))
    {tr : List (Label T)} {s : Config T S C P} (h : (system init start code False).Run tr s) :
    tr.length + todo s.shared + total r s.thread ≤ n + Fintype.card T * r (.run start) := by
  refine (h.invariant (I := fun tr s => (system init start code False).Reachable s ∧
    tr.length + todo s.shared + total r s.thread ≤ n + Fintype.card T * r (.run start)) ?_ ?_).2
  · intro s hs
    refine ⟨.init hs, ?_⟩
    have hn := hinit s.shared hs.1
    simp only [total, hs.2, Finset.sum_const, Finset.card_univ, List.length_nil, smul_eq_mul]
    omega
  · rintro tr s l s' ⟨hs, hle⟩ hstep
    refine ⟨hs.step hstep, ?_⟩
    cases hstep with
    | @turn t p o g ht ho hw =>
      have hless := hturn s hs t p ht o ho
      have hwake := hw.total_le_cost hr
      have htotal := total_update r g t o.thread
      rw [hw.run ht] at htotal
      simp only [List.length_append, List.length_singleton]
      omega
    | spurious hno => exact hno.elim

end Monitor

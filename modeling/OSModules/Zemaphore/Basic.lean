/-
  `zemaphore.c`: the semaphore, the threads that use semaphores, and its contract: a
  semaphore counts permits, and nobody sleeps with a permit there and nobody on the way to
  take it.
-/
import OSModules.Lib.Monitor

namespace Zemaphore

open Runs Monitor

/-- The field of a semaphore that is not its mutex or its condition variable. -/
structure zem_t where
  accesses : ℤ
  deriving DecidableEq

def zem_init (value : ℤ) : zem_t := ⟨value⟩

variable {ι D Q T : Type}

inductive Call (ι : Type)
  | zem_down (i : ι)
  | zem_up (i : ι)
  deriving DecidableEq

/-- The semaphores, the other data of a program, and the calls that have returned. -/
structure Shared (ι D : Type) where
  zem : ι → zem_t
  data : D
  calls : List (Call ι)

/-- A thread is in its own code, or in the loop of `zem_down` after a wait. -/
inductive Place (ι Q : Type)
  | code (q : Q)
  | loop (i : ι) (q : Q)
  deriving DecidableEq

abbrev Section (ι D Q : Type) := Outcome (Shared ι D) ι (Place ι Q)

variable [DecidableEq ι]

/-- `zem_down`, on entry and from the test of its loop on; the thread goes on at `q`. -/
def zem_down (s : Shared ι D) (i : ι) (q : Q) : Section ι D Q :=
  if (s.zem i).accesses = 0 then ⟨s, [], .asleep i (.loop i q)⟩
  else ⟨{ s with
      zem := Function.update s.zem i ⟨(s.zem i).accesses - 1⟩
      calls := s.calls ++ [.zem_down i] }, [], .run (.code q)⟩

def zem_up (s : Shared ι D) (i : ι) (q : Q) : Section ι D Q :=
  ⟨{ s with
      zem := Function.update s.zem i ⟨(s.zem i).accesses + 1⟩
      calls := s.calls ++ [.zem_up i] }, [.signal i], .run (.code q)⟩

/-- What a thread does next: a call, or something with the other data. -/
inductive Action (ι D Q : Type)
  | call (c : Call ι) (q : Q)
  | work (d : D) (q : Q)

def Action.run (s : Shared ι D) : Action ι D Q → Section ι D Q
  | call (.zem_down i) q => zem_down s i q
  | call (.zem_up i) q => zem_up s i q
  | work d q => ⟨{ s with data := d }, [], .run (.code q)⟩

/-- A program: what a thread can do next in its code. -/
abbrev Program (T ι D Q : Type) := T → Q → D → List (Action ι D Q)

def Program.code (prog : Program T ι D Q) : Code T (Shared ι D) ι (Place ι Q)
  | t, .code q, s => (prog t q s.data).map (·.run s)
  | _, .loop i q, s => [zem_down s i q]

variable [DecidableEq T]

/-- The threads of a program, which start at `q₀`, on semaphores with the initial values `v`. -/
def threads (prog : Program T ι D Q) (v : ι → ℤ) (d₀ : D) (q₀ : Q) (spurious : Prop) :
    LTS (Config T (Shared ι D) ι (Place ι Q)) (Label T) :=
  system (fun s => s = ⟨fun i => zem_init (v i), d₀, []⟩) (.code q₀) prog.code spurious

variable {prog : Program T ι D Q} {v : ι → ℤ} {d₀ : D} {q₀ : Q} {spurious : Prop}

omit [DecidableEq T] in
/-- What a thread can do in a turn. -/
theorem code_cases {t : T} {p : Place ι Q} {s : Shared ι D} {o : Section ι D Q}
    (ho : o ∈ prog.code t p s) :
    (∃ i q, (p = .loop i q ∨ ∃ q', p = .code q' ∧ .call (.zem_down i) q ∈ prog t q' s.data) ∧
      o = zem_down s i q) ∨
    (∃ i q q', p = .code q' ∧ .call (.zem_up i) q ∈ prog t q' s.data ∧ o = zem_up s i q) ∨
    ∃ d q q', p = .code q' ∧ .work d q ∈ prog t q' s.data ∧
      o = ⟨{ s with data := d }, [], .run (.code q)⟩ := by
  cases p with
  | loop i q =>
    obtain rfl := List.mem_singleton.1 ho
    exact Or.inl ⟨i, q, Or.inl rfl, rfl⟩
  | code q' =>
    obtain ⟨a, ha, rfl⟩ := List.mem_map.1 ho
    cases a with
    | work d q => exact Or.inr (Or.inr ⟨d, q, q', rfl, ha, rfl⟩)
    | call c q =>
      cases c with
      | zem_down i => exact Or.inl ⟨i, q, Or.inr ⟨q', rfl, ha⟩, rfl⟩
      | zem_up i => exact Or.inr (Or.inl ⟨i, q, q', rfl, ha, rfl⟩)

/-! ## Permits -/

/-- A semaphore has its initial permits, and those given, without those taken. -/
structure Permits (v : ι → ℤ) (s : Shared ι D) : Prop where
  accesses : ∀ i, (s.zem i).accesses =
    v i + s.calls.count (.zem_up i) - s.calls.count (.zem_down i)
  nonneg : ∀ i, 0 ≤ (s.zem i).accesses

theorem Permits.down {s : Shared ι D} (hp : Permits v s) (i : ι) (q : Q) :
    Permits v (zem_down s i q).shared := by
  rw [zem_down]
  split
  · exact hp
  · next hne =>
    constructor
    · intro j
      have hj := hp.accesses j
      by_cases hji : j = i
      · subst hji
        simp
        omega
      · simpa [hji, Ne.symm hji] using hj
    · intro j
      have hj := hp.nonneg j
      by_cases hji : j = i
      · subst hji
        simp
        omega
      · simpa [hji] using hj

theorem Permits.up {s : Shared ι D} (hp : Permits v s) (i : ι) (q : Q) :
    Permits v (zem_up s i q).shared := by
  constructor
  · intro j
    have hj := hp.accesses j
    by_cases hji : j = i
    · subst hji
      simp [zem_up]
      omega
    · simpa [zem_up, hji, Ne.symm hji] using hj
  · intro j
    have hj := hp.nonneg j
    by_cases hji : j = i
    · subst hji
      simp [zem_up]
      omega
    · simpa [zem_up, hji] using hj

/-! ## No wake-up is lost -/

/-- A thread was woken from `i` and has not tested `accesses` again. -/
def Woken (i : ι) : Thread ι (Place ι Q) → Prop
  | .run (.loop j _) => j = i
  | _ => False

instance (i : ι) : DecidablePred (Woken (Q := Q) i)
  | .run (.loop j _) => decEq j i
  | .run (.code _) => isFalse id
  | .asleep _ _ => isFalse id

omit [DecidableEq ι] in
@[simp] theorem woken_code (i : ι) (q : Q) : ¬ Woken i (.run (.code q)) := id

omit [DecidableEq ι] in
@[simp] theorem woken_asleep (i j : ι) (p : Place ι Q) : ¬ Woken i (.asleep j p) := id

omit [DecidableEq ι] in
@[simp] theorem woken_loop (i j : ι) (q : Q) : Woken i (.run (.loop j q)) ↔ j = i := Iff.rfl

omit [DecidableEq ι] in
theorem woken_iff {i : ι} {x : Thread ι (Place ι Q)} : Woken i x ↔ ∃ q, x = .run (.loop i q) := by
  constructor
  · intro hx
    rcases x with (q | ⟨j, q⟩) | ⟨j, p⟩
    · exact hx.elim
    · obtain rfl : j = i := hx
      exact ⟨q, rfl⟩
    · exact hx.elim
  · rintro ⟨q, rfl⟩
    rfl

variable [Fintype T] {s : Config T (Shared ι D) ι (Place ι Q)} {f g : T → Thread ι (Place ι Q)}

def woken (i : ι) (f : T → Thread ι (Place ι Q)) : ℕ := count (fun _ => Woken i) f

theorem woken_update (i : ι) (f : T → Thread ι (Place ι Q)) (t : T) (x : Thread ι (Place ι Q)) :
    woken i (Function.update f t x) + (if Woken i (f t) then 1 else 0) =
      woken i f + if Woken i x then 1 else 0 :=
  count_update (q := fun _ => Woken i) f t x

/-- Threads sleep in the loop of `zem_down`, and if a thread sleeps on a semaphore, then woken
threads are on the way to all permits. -/
structure Awaited (z : ι → zem_t) (f : T → Thread ι (Place ι Q)) : Prop where
  place : ∀ t i p, f t = .asleep i p → ∃ q, p = .loop i q
  woken : ∀ t i p, f t = .asleep i p → (z i).accesses ≤ woken i f

variable {z z' : ι → zem_t}

/-- A section that gives no permits and does not wait. -/
theorem Awaited.run (ha : Awaited z f) {t : T} {q : Q}
    (hz : ∀ j, (z' j).accesses + (if Woken j (f t) then 1 else 0) ≤ (z j).accesses) :
    Awaited z' (Function.update f t (.run (.code q))) := by
  constructor
  · intro u j p hu
    exact ha.place u j p (asleep_of_update_run hu)
  · intro u j p hu
    have hwoken := ha.woken u j p (asleep_of_update_run hu)
    have hcount := woken_update j f t (.run (.code q))
    have hzj := hz j
    rw [if_neg (woken_code j q)] at hcount
    split_ifs at hcount hzj <;> omega

/-- A section that waits because there is no permit. -/
theorem Awaited.wait (ha : Awaited z f) {t : T} {i : ι} {q : Q} (hz : (z i).accesses = 0)
    (ht : ∀ j, j ≠ i → ¬ Woken j (f t)) :
    Awaited z (Function.update f t (.asleep i (.loop i q))) := by
  constructor
  · intro u j p hu
    rcases asleep_update hu with ⟨-, hx⟩ | ⟨-, hu⟩
    · cases hx
      exact ⟨q, rfl⟩
    · exact ha.place u j p hu
  · intro u j p hu
    by_cases hj : j = i
    · subst hj
      omega
    · rcases asleep_update hu with ⟨-, hx⟩ | ⟨-, hu⟩
      · cases hx
        exact absurd rfl hj
      · have hcount := woken_update j f t (.asleep i (.loop i q))
        rw [if_neg (ht j hj), if_neg (woken_asleep j i _)] at hcount
        have hwoken := ha.woken u j p hu
        omega

theorem Awaited.wake (ha : Awaited z f) {t : T} {i : ι} {p : Place ι Q}
    (ht : f t = .asleep i p) : Awaited z (Function.update f t (.run p)) := by
  constructor
  · intro u j p hu
    exact ha.place u j p (asleep_of_update_run hu)
  · intro u j p' hu
    have hwoken := ha.woken u j p' (asleep_of_update_run hu)
    have hcount := woken_update j f t (.run p)
    rw [ht, if_neg (woken_asleep j i p)] at hcount
    omega

/-- A signal makes up for the permit that it follows: if a thread still sleeps, another one is on
its way. -/
theorem Awaited.signal (ha : Awaited z f) {i : ι} (hw : Wakes [.signal i] f g)
    (hz : ∀ j, (z' j).accesses ≤ (z j).accesses + if j = i then 1 else 0) : Awaited z' g := by
  cases hw with
  | @signal _ _ _ _ u p hu hw =>
    obtain rfl := hw.of_nil
    obtain ⟨q, rfl⟩ := ha.place u i p hu
    refine ⟨(ha.wake hu).place, ?_⟩
    intro v j p hv
    have hwoken := ha.woken v j p (asleep_of_update_run hv)
    have hcount := woken_update j f u (.run (.loop i q))
    have hzj := hz j
    simp only [hu, woken_asleep, woken_loop, if_false, eq_comm (a := i)] at hcount
    split_ifs at hcount hzj <;> omega
  | lost hno hw =>
    obtain rfl := hw.of_nil
    refine ⟨ha.place, ?_⟩
    intro v j p hv
    have hji : j ≠ i := by
      rintro rfl
      exact hno v p hv
    have hzj := hz j
    rw [if_neg hji, add_zero] at hzj
    exact hzj.trans (ha.woken v j p hv)

/-! ## Runs -/

variable {l : Label T}

theorem Awaited.down {s : Shared ι D} (ha : Awaited s.zem f) {t : T} {p : Place ι Q} {i : ι} {q : Q}
    (ht : f t = .run p) (hp : p = .loop i q ∨ ∃ q', p = .code q') :
    Awaited (zem_down s i q).shared.zem (Function.update f t (zem_down s i q).thread) := by
  have hother : ∀ j, j ≠ i → ¬ Woken j (f t) := by
    intro j hj
    rw [ht]
    rcases hp with rfl | ⟨q', rfl⟩
    · exact fun h => hj h.symm
    · exact id
  rw [zem_down]
  split
  · next hzero => exact ha.wait hzero hother
  · refine ha.run ?_
    intro j
    by_cases hj : j = i
    · subst hj
      simp only [Function.update_self]
      split_ifs <;> omega
    · simp only [Function.update_of_ne hj, if_neg (hother j hj), add_zero, le_refl]

/-- What a step leaves of the permits and of the sleepers. -/
theorem contract_step {s s' : Config T (Shared ι D) ι (Place ι Q)}
    (hp : Permits v s.shared) (ha : Awaited s.shared.zem s.thread)
    (hstep : (threads prog v d₀ q₀ spurious).step s l s') :
    Permits v s'.shared ∧ Awaited s'.shared.zem s'.thread := by
  cases hstep with
  | @turn t p o g ht ho hw =>
    rcases code_cases ho with ⟨i, q, hplace, rfl⟩ | ⟨i, q, q', rfl, -, rfl⟩ | ⟨d, q, q', rfl, -, rfl⟩
    · have hwakes : (zem_down s.shared i q).wakes = [] := by rw [zem_down]; split <;> rfl
      rw [hwakes] at hw
      obtain rfl := hw.of_nil
      refine ⟨hp.down i q, ha.down ht ?_⟩
      rcases hplace with rfl | ⟨q', rfl, -⟩
      · exact Or.inl rfl
      · exact Or.inr ⟨q', rfl⟩
    · have hsignal : Awaited (zem_up s.shared i q).shared.zem g := by
        refine ha.signal hw ?_
        intro j
        by_cases hj : j = i
        · subst hj
          simp [zem_up]
        · simp [zem_up, hj]
      refine ⟨hp.up i q, hsignal.run ?_⟩
      intro j
      rw [hw.run ht, if_neg (woken_code j q'), add_zero]
    · obtain rfl := hw.of_nil
      refine ⟨⟨hp.accesses, hp.nonneg⟩, ha.run ?_⟩
      intro j
      rw [ht, if_neg (woken_code j q'), add_zero]
  | spurious _ ht => exact ⟨hp, ha.wake ht⟩

theorem contract_of_reachable {s : Config T (Shared ι D) ι (Place ι Q)} (hv : ∀ i, 0 ≤ v i)
    (hs : (threads prog v d₀ q₀ spurious).Reachable s) :
    Permits v s.shared ∧ Awaited s.shared.zem s.thread := by
  refine hs.invariant (I := fun s => Permits v s.shared ∧ Awaited s.shared.zem s.thread) ?_ ?_
  · rintro ⟨s, f⟩ ⟨hinit, hstart⟩
    obtain rfl : s = _ := hinit
    refine ⟨⟨fun i => ?_, hv⟩, ⟨fun t i p ht => ?_, fun t i p ht => ?_⟩⟩
    · simp [zem_init]
    · rw [hstart t] at ht; cases ht
    · rw [hstart t] at ht; cases ht
  · rintro s l s' ⟨hp, ha⟩ hstep
    exact contract_step hp ha hstep

end Zemaphore

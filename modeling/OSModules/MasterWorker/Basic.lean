/-
  `master-worker.c`: masters that store items in a circular buffer and workers that take
  them. The tests of the outer loops and the signals are outside of the mutex.
-/
import OSModules.Lib.Monitor

namespace MasterWorker

open Runs Monitor

/-- The arguments of `main` that are not numbers of threads. -/
structure Args where
  total_items : ℤ
  max_buf_size : ℕ
  pos : 0 < max_buf_size

inductive Role
  | master
  | worker
  deriving DecidableEq

/-- The condition variables. -/
inductive Cond
  | is_empty
  | is_full
  deriving DecidableEq

/-- Where a thread is: at the test of its outer loop, before the mutex, at the test of the inner
loop after a wait, before the signal, or done. -/
inductive Loc
  | test
  | enter
  | loop
  | signal
  | finished
  deriving DecidableEq

/-- A line of the output, with the slot of the buffer. -/
inductive Line (T : Type)
  | produced (num : ℤ) (slot : ℕ) (master : T)
  | consumed (num : ℤ) (slot : ℕ) (worker : T)
  deriving DecidableEq

/-- The globals, and what was printed. -/
structure Shared (T : Type) where
  item_to_produce : ℕ
  curr_buf_size : ℤ
  item_to_consume : ℕ
  add : ℕ
  rem : ℕ
  buffer : ℕ → ℤ
  printed : List (Line T)

abbrev Section (T : Type) := Outcome (Shared T) Cond Loc

variable {T : Type}

/-- One round of an outer loop: the test of `more`, the section, and the signal of `c`. -/
def round (more : Prop) [Decidable more] (body : Section T) (c : Cond) (s : Shared T) :
    Loc → List (Section T)
  | .test => [⟨s, [], .run (if more then .enter else .finished)⟩]
  | .enter => [body]
  | .loop => [body]
  | .signal => [⟨s, [.signal c], .run .test⟩]
  | .finished => []

variable (a : Args)

/-- `generate_requests_loop` after its inner loop. -/
def store (t : T) (s : Shared T) : Shared T :=
  { s with
    buffer := Function.update s.buffer s.add s.item_to_produce
    printed := s.printed ++ [.produced s.item_to_produce s.add t]
    add := (s.add + 1) % a.max_buf_size
    item_to_produce := s.item_to_produce + 1
    curr_buf_size := s.curr_buf_size + 1 }

/-- `process_request_loop` after its inner loop. -/
def take (t : T) (s : Shared T) : Shared T :=
  { s with
    printed := s.printed ++ [.consumed (s.buffer s.rem) s.rem t]
    rem := (s.rem + 1) % a.max_buf_size
    curr_buf_size := s.curr_buf_size - 1
    item_to_consume := s.item_to_consume + 1 }

def generate_requests_loop (t : T) (s : Shared T) : Loc → List (Section T) :=
  round (s.item_to_produce < a.total_items)
    (if s.curr_buf_size = a.max_buf_size ∧ s.item_to_produce < a.total_items then
      ⟨s, [], .asleep .is_full .loop⟩ else ⟨store a t s, [], .run .signal⟩)
    .is_empty s

def process_request_loop (t : T) (s : Shared T) : Loc → List (Section T) :=
  round (s.item_to_consume < a.total_items)
    (if s.curr_buf_size = 0 ∧ s.item_to_consume < a.total_items then
      ⟨s, [], .asleep .is_empty .loop⟩ else ⟨take a t s, [], .run .signal⟩)
    .is_full s

/-- What `main` sets before it creates the threads; the buffer is not initialised. -/
def Init (s : Shared T) : Prop :=
  ∃ buffer, s = ⟨0, 0, 0, 0, 0, buffer, []⟩

def code (role : T → Role) : Code T (Shared T) Cond Loc := fun t p s =>
  match role t with
  | .master => generate_requests_loop a t s p
  | .worker => process_request_loop a t s p

def threads [DecidableEq T] (role : T → Role) (spurious : Prop) :
    LTS (Config T (Shared T) Cond Loc) (Label T) :=
  system Init .test (code a role) spurious

/-- A thread is in its section, or asleep in it. -/
def Busy (x : Thread Cond Loc) : Prop :=
  x = .run .enter ∨ x = .run .loop ∨ ∃ c p, x = .asleep c p

theorem busy_run {p : Loc} : Busy (.run p) ↔ p = .enter ∨ p = .loop := by
  cases p <;> simp [Busy]

/-! ## What was printed -/

/-- The items that were produced, in order. -/
def produced (l : List (Line T)) : List ℤ :=
  l.filterMap fun
    | .produced i _ _ => some i
    | .consumed _ _ _ => none

/-- The items that were consumed, in order. -/
def consumed (l : List (Line T)) : List ℤ :=
  l.filterMap fun
    | .produced _ _ _ => none
    | .consumed i _ _ => some i

/-- The item that a slot of the buffer holds and that was not consumed. -/
def held (l : List (Line T)) : ℕ → Option ℤ :=
  l.foldl (fun f x => match x with
    | .produced i k _ => Function.update f k (some i)
    | .consumed _ k _ => Function.update f k none) fun _ => none

variable {a}

@[simp] theorem produced_store (t : T) (s : Shared T) :
    produced (store a t s).printed = produced s.printed ++ [(s.item_to_produce : ℤ)] := by
  simp [produced, store]

@[simp] theorem produced_take (t : T) (s : Shared T) :
    produced (take a t s).printed = produced s.printed := by
  simp [produced, take]

@[simp] theorem consumed_store (t : T) (s : Shared T) :
    consumed (store a t s).printed = consumed s.printed := by
  simp [consumed, store]

@[simp] theorem consumed_take (t : T) (s : Shared T) :
    consumed (take a t s).printed = consumed s.printed ++ [s.buffer s.rem] := by
  simp [consumed, take]

@[simp] theorem held_store (t : T) (s : Shared T) :
    held (store a t s).printed =
      Function.update (held s.printed) s.add (some (s.item_to_produce : ℤ)) := by
  simp [held, store]

@[simp] theorem held_take (t : T) (s : Shared T) :
    held (take a t s).printed = Function.update (held s.printed) s.rem none := by
  simp [held, take]

/-! ## What a turn does -/

variable {role : T → Role} {spurious : Prop} {t : T} {p : Loc} {s : Shared T} {o : Section T}

/-- A round: the test, the section, or the signal. -/
theorem round_cases {more : Prop} [Decidable more] {body : Section T} {c : Cond}
    (ho : o ∈ round more body c s p) :
    (p = .test ∧ o = ⟨s, [], .run (if more then .enter else .finished)⟩) ∨
      ((p = .enter ∨ p = .loop) ∧ o = body) ∨ (p = .signal ∧ o = ⟨s, [.signal c], .run .test⟩) := by
  cases p with
  | test => exact Or.inl ⟨rfl, List.mem_singleton.1 ho⟩
  | enter => exact Or.inr (Or.inl ⟨Or.inl rfl, List.mem_singleton.1 ho⟩)
  | loop => exact Or.inr (Or.inl ⟨Or.inr rfl, List.mem_singleton.1 ho⟩)
  | signal => exact Or.inr (Or.inr ⟨rfl, List.mem_singleton.1 ho⟩)
  | finished => exact absurd ho List.not_mem_nil

theorem round_body {more : Prop} [Decidable more] {body : Section T} {c : Cond}
    (hp : p = .enter ∨ p = .loop) (ho : o ∈ round more body c s p) : o = body := by
  rcases hp with rfl | rfl
  · exact List.mem_singleton.1 ho
  · exact List.mem_singleton.1 ho

/-- What a thread does to the globals: nothing, or it stores or takes an item. -/
inductive Effect (a : Args) (role : T → Role) (t : T) (p : Loc) (s : Shared T) : Shared T → Prop
  | none : Effect a role t p s s
  | store : role t = .master → p = .enter ∨ p = .loop →
      ¬ (s.curr_buf_size = a.max_buf_size ∧ s.item_to_produce < a.total_items) →
      Effect a role t p s (store a t s)
  | take : role t = .worker → p = .enter ∨ p = .loop →
      ¬ (s.curr_buf_size = 0 ∧ s.item_to_consume < a.total_items) →
      Effect a role t p s (take a t s)

theorem code_effect (ho : o ∈ code a role t p s) : Effect a role t p s o.shared := by
  rw [code] at ho
  cases hrole : role t with
  | master =>
    rw [hrole] at ho
    rcases round_cases ho with ⟨-, rfl⟩ | ⟨hp, rfl⟩ | ⟨-, rfl⟩
    · exact .none
    · split
      · exact .none
      · next hgo => exact .store hrole hp hgo
    · exact .none
  | worker =>
    rw [hrole] at ho
    rcases round_cases ho with ⟨-, rfl⟩ | ⟨hp, rfl⟩ | ⟨-, rfl⟩
    · exact .none
    · split
      · exact .none
      · next hgo => exact .take hrole hp hgo
    · exact .none

/-- A master that comes to its section when all items are produced stores one more. -/
theorem code_store (hrole : role t = .master) (hp : p = .enter ∨ p = .loop)
    (hend : a.total_items ≤ s.item_to_produce) (ho : o ∈ code a role t p s) :
    o.shared = store a t s := by
  rw [code, hrole] at ho
  rw [round_body hp ho, if_neg fun h => not_lt.2 hend h.2]

/-- A worker that comes to its section when all items are consumed takes one more. -/
theorem code_take (hrole : role t = .worker) (hp : p = .enter ∨ p = .loop)
    (hend : a.total_items ≤ s.item_to_consume) (ho : o ∈ code a role t p s) :
    o.shared = take a t s := by
  rw [code, hrole] at ho
  rw [round_body hp ho, if_neg fun h => not_lt.2 hend h.2]

/-- Numbers less than `m` apart in the same slot are equal. -/
theorem eq_of_mod_eq {c d m : ℕ} (h : c % m = d % m) (hc : c < d + m) (hd : d < c + m) : c = d := by
  rcases le_total c d with hle | hle
  · have hdvd : m ∣ d - c := (Nat.modEq_iff_dvd' hle).1 h
    have hzero := Nat.eq_zero_of_dvd_of_lt hdvd (by omega)
    omega
  · have hdvd : m ∣ c - d := (Nat.modEq_iff_dvd' hle).1 h.symm
    have hzero := Nat.eq_zero_of_dvd_of_lt hdvd (by omega)
    omega

/-- The counters are about what was printed. -/
structure Counters (a : Args) (s : Shared T) : Prop where
  produced : produced s.printed = (List.range s.item_to_produce).map (↑)
  consumed : (consumed s.printed).length = s.item_to_consume
  curr : s.curr_buf_size = s.item_to_produce - s.item_to_consume
  add : s.add = s.item_to_produce % a.max_buf_size
  rem : s.rem = s.item_to_consume % a.max_buf_size

theorem Counters.store {s : Shared T} (hc : Counters a s) (t : T) : Counters a (store a t s) := by
  refine ⟨?_, ?_, ?_, ?_, hc.rem⟩
  · rw [produced_store, hc.produced]
    simp [MasterWorker.store, List.range_succ]
  · rw [consumed_store, hc.consumed]
    rfl
  · simp only [MasterWorker.store, hc.curr]
    push_cast
    ring
  · simp only [MasterWorker.store, hc.add, Nat.mod_add_mod]

theorem Counters.take {s : Shared T} (hc : Counters a s) (t : T) : Counters a (take a t s) := by
  refine ⟨?_, ?_, ?_, hc.add, ?_⟩
  · rw [produced_take, hc.produced]
    rfl
  · rw [consumed_take, List.length_append, hc.consumed]
    rfl
  · simp only [MasterWorker.take, hc.curr]
    push_cast
    ring
  · simp only [MasterWorker.take, hc.rem, Nat.mod_add_mod]

theorem Counters.init {s : Shared T} (h : Init s) : Counters a s := by
  obtain ⟨buffer, rfl⟩ := h
  exact ⟨rfl, rfl, rfl, (Nat.zero_mod _).symm, (Nat.zero_mod _).symm⟩

variable [DecidableEq T] {s s' : Config T (Shared T) Cond Loc} {l : Label T}

/-- What a step does to the globals. -/
theorem step_effect (hstep : (threads a role spurious).step s l s') :
    s'.shared = s.shared ∨ ∃ t p, l = .turn t ∧ s.thread t = .run p ∧
      Effect a role t p s.shared s'.shared := by
  cases hstep with
  | @turn t p o g ht ho _ => exact Or.inr ⟨t, p, rfl, ht, code_effect ho⟩
  | spurious => exact Or.inl rfl

theorem counters_of_reachable (hs : (threads a role spurious).Reachable s) :
    Counters a s.shared := by
  refine hs.invariant (I := fun s => Counters a s.shared) ?_ ?_
  · rintro s ⟨hinit, -⟩
    exact .init hinit
  · intro s l s' hc hstep
    rcases step_effect hstep with heq | ⟨t, p, -, -, heffect⟩
    · rw [heq]
      exact hc
    · generalize s'.shared = x at heffect
      cases heffect with
      | none => exact hc
      | store => exact hc.store t
      | take => exact hc.take t

end MasterWorker

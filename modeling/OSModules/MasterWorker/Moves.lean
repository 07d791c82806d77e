/-
  The steps of masters and workers without spurious wake-ups, by what they do to the counters
  and to the places of the threads.
-/
import OSModules.MasterWorker.Basic

namespace MasterWorker

open Runs Monitor

variable {T : Type} {a : Args} {role : T → Role}

/-- The condition that a thread waits for. -/
def Role.cond : Role → Cond
  | master => .is_full
  | worker => .is_empty

/-- Whom a thread signals. -/
def Role.other : Role → Role
  | master => .worker
  | worker => .master

/-- The test of the outer loop. -/
def Left (a : Args) (s : Shared T) : Role → Prop
  | .master => s.item_to_produce < a.total_items
  | .worker => s.item_to_consume < a.total_items

/-- The test of the inner loop. -/
def Blocked (a : Args) (s : Shared T) : Role → Prop
  | .master => s.curr_buf_size = a.max_buf_size ∧ s.item_to_produce < a.total_items
  | .worker => s.curr_buf_size = 0 ∧ s.item_to_consume < a.total_items

instance (s : Shared T) : ∀ r, Decidable (Left a s r)
  | .master => inferInstanceAs (Decidable (_ < _))
  | .worker => inferInstanceAs (Decidable (_ < _))

instance (s : Shared T) : ∀ r, Decidable (Blocked a s r)
  | .master => inferInstanceAs (Decidable (_ ∧ _))
  | .worker => inferInstanceAs (Decidable (_ ∧ _))

/-- What a thread does after its inner loop. -/
def Role.act (a : Args) (t : T) (s : Shared T) : Role → Shared T
  | master => store a t s
  | worker => take a t s

def Asleep : Thread Cond Loc → Prop
  | .asleep _ _ => True
  | .run _ => False

instance : DecidablePred Asleep
  | .asleep _ _ => isTrue trivial
  | .run _ => isFalse id

@[simp] theorem asleep_asleep (c : Cond) (p : Loc) : Asleep (.asleep c p) := trivial

@[simp] theorem not_asleep_run (p : Loc) : ¬ Asleep (.run p) := id

variable [DecidableEq T]

/-- What the step of the thread `t` does. -/
inductive Move (a : Args) (role : T → Role) (t : T) (s : Shared T) (f : T → Thread Cond Loc) :
    Shared T → (T → Thread Cond Loc) → Prop
  | enter : f t = .run .test → Left a s (role t) →
      Move a role t s f s (Function.update f t (.run .enter))
  | finish : f t = .run .test → ¬ Left a s (role t) →
      Move a role t s f s (Function.update f t (.run .finished))
  | wait : f t = .run .enter ∨ f t = .run .loop → Blocked a s (role t) →
      Move a role t s f s (Function.update f t (.asleep (role t).cond .loop))
  | act : f t = .run .enter ∨ f t = .run .loop → ¬ Blocked a s (role t) →
      Move a role t s f ((role t).act a t s) (Function.update f t (.run .signal))
  | wake {u} : f t = .run .signal → role u = (role t).other → f u = .asleep (role u).cond .loop →
      Move a role t s f s (Function.update (Function.update f u (.run .loop)) t (.run .test))
  | lost : f t = .run .signal → (∀ u, role u = (role t).other → ¬ Asleep (f u)) →
      Move a role t s f s (Function.update f t (.run .test))

omit [DecidableEq T] in
/-- Both loops are one loop. -/
theorem code_eq {t : T} {r : Role} (hr : role t = r) (p : Loc) (s : Shared T) :
    code a role t p s = round (Left a s r) (if Blocked a s r then ⟨s, [], .asleep r.cond .loop⟩
      else ⟨r.act a t s, [], .run .signal⟩) r.other.cond s p := by
  rw [code, hr]
  cases r <;> rfl

/-- Where threads sleep. -/
theorem asleep_at_loop {spurious : Prop} {s : Config T (Shared T) Cond Loc}
    (hs : (threads a role spurious).Reachable s) {t : T} {c : Cond} {p : Loc}
    (ht : s.thread t = .asleep c p) : c = (role t).cond ∧ p = .loop := by
  refine asleep_of_reachable (A := fun t c p => c = (role t).cond ∧ p = .loop) ?_ hs ht
  intro t p s o ho c q hq
  rw [code_eq rfl] at ho
  rcases round_cases ho with ⟨-, rfl⟩ | ⟨-, rfl⟩ | ⟨-, rfl⟩
  · cases hq
  · split at hq
    · cases hq
      exact ⟨rfl, rfl⟩
    · cases hq
  · cases hq

/-- Every step is a move. -/
theorem move_of_step {s s' : Config T (Shared T) Cond Loc} {l : Label T}
    (hs : (threads a role False).Reachable s) (hstep : (threads a role False).step s l s') :
    ∃ t, Move a role t s.shared s.thread s'.shared s'.thread := by
  cases hstep with
  | spurious hno => exact hno.elim
  | @turn t p o g ht ho hw =>
    refine ⟨t, ?_⟩
    rw [code_eq rfl] at ho
    rcases round_cases ho with ⟨rfl, rfl⟩ | ⟨hp, rfl⟩ | ⟨rfl, rfl⟩
    · obtain rfl := hw.of_nil
      by_cases hleft : Left a s.shared (role t)
      · simpa only [if_pos hleft] using .enter ht hleft
      · simpa only [if_neg hleft] using .finish ht hleft
    · have hp' : s.thread t = .run .enter ∨ s.thread t = .run .loop := by
        rw [ht]
        exact hp.imp (congrArg _) (congrArg _)
      by_cases hblocked : Blocked a s.shared (role t)
      · rw [if_pos hblocked] at hw ⊢
        obtain rfl := hw.of_nil
        exact .wait hp' hblocked
      · rw [if_neg hblocked] at hw ⊢
        obtain rfl := hw.of_nil
        exact .act hp' hblocked
    · cases hw with
      | @signal _ _ _ _ u q hu hw =>
        obtain rfl := hw.of_nil
        obtain ⟨hc, rfl⟩ := asleep_at_loop hs hu
        have hrole : role u = (role t).other := by
          revert hc
          cases role t <;> cases role u <;> decide
        rw [hc] at hu
        exact .wake ht hrole hu
      | lost hno hw =>
        obtain rfl := hw.of_nil
        refine .lost ht ?_
        intro u hu hsleep
        generalize hx : s.thread u = x at hsleep
        cases x with
        | run q => exact hsleep
        | asleep c q =>
          obtain ⟨rfl, -⟩ := asleep_at_loop hs hx
          rw [hu] at hx
          exact hno u q hx

omit [DecidableEq T] in
/-- Before its section, and at the test of its inner loop, a thread does the same. -/
theorem code_section {t : T} {f : T → Thread Cond Loc} {s : Shared T}
    (hp : f t = .run .enter ∨ f t = .run .loop) : ∃ p, f t = .run p ∧
      code a role t p s = [if Blocked a s (role t) then ⟨s, [], .asleep (role t).cond .loop⟩
        else ⟨(role t).act a t s, [], .run .signal⟩] := by
  rcases hp with ht | ht
  · exact ⟨_, ht, code_eq rfl _ _⟩
  · exact ⟨_, ht, code_eq rfl _ _⟩

/-- Every move is a step. -/
theorem Reachable.move {s : Config T (Shared T) Cond Loc} {s' : Shared T}
    {f : T → Thread Cond Loc} {t : T} (hs : (threads a role False).Reachable s)
    (h : Move a role t s.shared s.thread s' f) : (threads a role False).Reachable ⟨s', f⟩ := by
  have hcode := code_eq (a := a) (rfl : role t = role t)
  cases h with
  | enter ht hleft =>
    refine hs.step (.turn (o := (⟨s.shared, [], .run .enter⟩ : Section T)) ht ?_ .nil)
    rw [hcode]
    exact List.mem_singleton.2 (by rw [if_pos hleft])
  | finish ht hleft =>
    refine hs.step (.turn (o := (⟨s.shared, [], .run .finished⟩ : Section T)) ht ?_ .nil)
    rw [hcode]
    exact List.mem_singleton.2 (by rw [if_neg hleft])
  | wait hp hblocked =>
    obtain ⟨p, ht, hsection⟩ := code_section (a := a) (s := s.shared) hp
    rw [if_pos hblocked] at hsection
    exact hs.step (.turn (o := (⟨s.shared, [], .asleep (role t).cond .loop⟩ : Section T)) ht
      (by rw [hsection]; exact List.mem_cons_self) .nil)
  | act hp hgo =>
    obtain ⟨p, ht, hsection⟩ := code_section (a := a) (s := s.shared) hp
    rw [if_neg hgo] at hsection
    exact hs.step (.turn (o := (⟨(role t).act a t s.shared, [], .run .signal⟩ : Section T)) ht
      (by rw [hsection]; exact List.mem_cons_self) .nil)
  | @wake u ht hrole hu =>
    refine hs.step (.turn (o := (⟨s.shared, [.signal (role t).other.cond], .run .test⟩ : Section T)) ht ?_
      (.signal (t := u) (p := .loop) ?_ .nil))
    · rw [hcode]
      exact List.mem_singleton.2 rfl
    · rw [hu, hrole]
  | lost ht hno =>
    refine hs.step (.turn (o := (⟨s.shared, [.signal (role t).other.cond], .run .test⟩ : Section T)) ht ?_
      (.lost ?_ .nil))
    · rw [hcode]
      exact List.mem_singleton.2 rfl
    · intro u q hu
      have hrole : role u = (role t).other := by
        obtain ⟨hc, -⟩ := asleep_at_loop hs hu
        revert hc
        cases role t <;> cases role u <;> decide
      refine hno u hrole ?_
      rw [hu]
      trivial

end MasterWorker

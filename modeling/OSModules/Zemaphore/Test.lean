/-
  `test-zem.c`: `main` lets the other threads print one at a time.  It gives a permit, which some
  thread takes to print its line, and waits for the permit that this thread gives in return.

  `rounds_alternate`: whatever the order of the turns, the lines of `main` and those of the
  other threads alternate; no thread sleeps for ever, and all orders of the threads occur.
-/
import OSModules.Zemaphore.Basic

namespace Zemaphore.Test

open Runs Monitor

inductive Zem
  | child
  | parent
  deriving DecidableEq

/-- A printed line: the first one of `main`, the one of a thread, or the one that `main` prints
after the round `k`. -/
inductive Line (n : ℕ)
  | first
  | thread (thread_id : Fin n)
  | printed (k : ℕ)
  deriving DecidableEq

/-- Where a thread is: before its first call, in a round of `main`, in `justprint`, or done. -/
inductive Loc
  | start
  | main_up (k : ℕ)
  | main_down (k : ℕ)
  | main_print (k : ℕ)
  | print
  | up
  | finished
  deriving DecidableEq

variable {n : ℕ}

def justprint (thread_id : Fin n) : Loc → List (Line n) → List (Action Zem (List (Line n)) Loc)
  | .start, _ => [.call (.zem_down .child) .print]
  | .print, out => [.work (out ++ [.thread thread_id]) .up]
  | .up, _ => [.call (.zem_up .parent) .finished]
  | _, _ => []

/-- Where `main` goes on after `k` rounds; there is one for each other thread. -/
def round (n k : ℕ) : Loc := if k < n then .main_up k else .finished

/-- `main` once the threads are there; with `n = 2` its rounds are those of the program. -/
def main (n : ℕ) : Loc → List (Line n) → List (Action Zem (List (Line n)) Loc)
  | .start, out => [.work (out ++ [.first]) (round n 0)]
  | .main_up k, _ => [.call (.zem_up .child) (.main_down k)]
  | .main_down k, _ => [.call (.zem_down .parent) (.main_print k)]
  | .main_print k, out => [.work (out ++ [.printed k]) (round n (k + 1))]
  | _, _ => []

def program (n : ℕ) : Program (Option (Fin n)) Zem (List (Line n)) Loc
  | none => main n
  | some thread_id => justprint thread_id

abbrev State (n : ℕ) := Config (Option (Fin n)) (Shared Zem (List (Line n))) Zem (Place Zem Loc)

def test_zem (n : ℕ) (spurious : Prop) : LTS (State n) (Label (Option (Fin n))) :=
  threads (program n) (fun _ => 0) [] .start spurious

/-- What was printed when the threads `ts` have had their rounds. -/
def lines (ts : List (Fin n)) : List (Line n) :=
  .first :: ts.zipIdx.flatMap fun p => [.thread p.1, .printed p.2]

theorem lines_snoc (ts : List (Fin n)) (t : Fin n) :
    lines (ts ++ [t]) = lines ts ++ [.thread t, .printed ts.length] := by
  simp [lines, List.zipIdx_append]

/-! ## The rounds -/

/-- A thread that has come to `zem_down` at `p` and goes on at `q` with a permit. -/
inductive Downs (i : Zem) (p q : Loc) : Thread Zem (Place Zem Loc) → Prop
  | call : Downs i p q (.run (.code p))
  | asleep : Downs i p q (.asleep i (.loop i q))
  | loop : Downs i p q (.run (.loop i q))

/-- How far a round is: `main` is before the first one, or between two; it has given a permit;
the thread `c` has taken it, has printed, and has given one in return; `main` has taken that. -/
inductive Phase (n : ℕ)
  | before
  | idle
  | offered
  | taken (c : Fin n)
  | printed (c : Fin n)
  | answered (c : Fin n)
  | told (c : Fin n)

namespace Phase

/-- The thread whose round it is. -/
def active : Phase n → List (Fin n)
  | taken c | printed c | answered c | told c => [c]
  | _ => []

def data (ts : List (Fin n)) : Phase n → List (Line n)
  | before => []
  | printed c | answered c | told c => lines ts ++ [.thread c]
  | _ => lines ts

def permits : Phase n → Zem → ℤ
  | offered, .child => 1
  | answered _, .parent => 1
  | _, _ => 0

/-- Where a thread is whose round it is. -/
def child : Phase n → Fin n → Option Loc
  | taken c, t => if t = c then some .print else none
  | printed c, t => if t = c then some .up else none
  | answered c, t | told c, t => if t = c then some .finished else none
  | _, _ => none

/-- Where `main` is after `k` rounds. -/
def Main (ph : Phase n) (k : ℕ) (x : Thread Zem (Place Zem Loc)) : Prop :=
  match ph with
  | before => k = 0 ∧ x = .run (.code .start)
  | idle => x = .run (.code (round n k))
  | told _ => k < n ∧ x = .run (.code (.main_print k))
  | _ => k < n ∧ Downs .parent (.main_down k) (.main_print k) x

end Phase

/-- Where a thread is after the rounds of `ts`, unless it waits for its round. -/
def place (ts : List (Fin n)) (ph : Phase n) (t : Fin n) : Option Loc :=
  if t ∈ ts then some .finished else ph.child t

def ChildAt : Option Loc → Thread Zem (Place Zem Loc) → Prop
  | some p, x => x = .run (.code p)
  | none, x => Downs .child .start .print x

variable {ts ts' : List (Fin n)} {ph ph' : Phase n} {s s' : Shared Zem (List (Line n))}
  {f g : Option (Fin n) → Thread Zem (Place Zem Loc)}

/-- The threads `ts` have had their rounds, and the next round is in the phase `ph`. -/
structure Reached (ts : List (Fin n)) (ph : Phase n) (s : Shared Zem (List (Line n)))
    (f : Option (Fin n) → Thread Zem (Place Zem Loc)) : Prop where
  nodup : (ts ++ ph.active).Nodup
  data : s.data = ph.data ts
  zem : ∀ i, (s.zem i).accesses = ph.permits i
  main : ph.Main ts.length (f none)
  child : ∀ t, ChildAt (place ts ph t) (f (some t))

theorem Reached.init {s : State n} {spurious : Prop} (h : (test_zem n spurious).init s) :
    Reached [] .before s.shared s.thread := by
  obtain ⟨hinit, hstart⟩ := h
  refine ⟨List.nodup_nil, ?_, ?_, ⟨rfl, hstart none⟩, ?_⟩
  · rw [hinit]
    rfl
  · intro i
    rw [hinit]
    cases i <;> rfl
  · intro t
    rw [hstart]
    exact .call

/-! ## Steps -/

theorem Downs.wake {i c : Zem} {p q : Loc} {pl : Place Zem Loc}
    (h : Downs i p q (.asleep c pl)) : Downs i p q (.run pl) := by
  cases h
  exact .loop

/-- Waking a thread changes nothing about the round. -/
theorem Reached.of_wakes (h : Reached ts ph s f)
    (hg : ∀ t, g t = f t ∨ ∃ c p, f t = .asleep c p ∧ g t = .run p) : Reached ts ph s g := by
  refine ⟨h.nodup, h.data, h.zem, ?_, ?_⟩
  · rcases hg none with hg | ⟨c, p, hf, hg⟩
    · rw [hg]
      exact h.main
    · have hmain := h.main
      rw [hf] at hmain
      rw [hg]
      cases ph with
      | before => cases hmain.2
      | idle => cases hmain
      | told => cases hmain.2
      | offered => exact ⟨hmain.1, hmain.2.wake⟩
      | taken => exact ⟨hmain.1, hmain.2.wake⟩
      | printed => exact ⟨hmain.1, hmain.2.wake⟩
      | answered => exact ⟨hmain.1, hmain.2.wake⟩
  · intro t
    rcases hg (some t) with hg | ⟨c, p, hf, hg⟩
    · rw [hg]
      exact h.child t
    · have hchild := h.child t
      rw [hf] at hchild
      rw [hg]
      generalize place ts ph t = x at hchild
      cases x with
      | none => exact Downs.wake hchild
      | some p => cases hchild

/-- A thread moves, and the phase with it. -/
theorem Reached.set_child (h : Reached ts ph s f) {t : Fin n} {x : Thread Zem (Place Zem Loc)}
    (hnodup : (ts ++ ph'.active).Nodup) (hdata : s'.data = ph'.data ts)
    (hzem : ∀ i, (s'.zem i).accesses = ph'.permits i)
    (hmain : ∀ y, ph.Main ts.length y → ph'.Main ts.length y) (hx : ChildAt (place ts ph' t) x)
    (hothers : ∀ u, u ≠ t → place ts ph' u = place ts ph u) :
    Reached ts ph' s' (Function.update f (some t) x) := by
  refine ⟨hnodup, hdata, hzem, ?_, ?_⟩
  · rw [Function.update_of_ne (Option.some_ne_none t).symm]
    exact hmain _ h.main
  · intro u
    by_cases hut : u = t
    · subst hut
      rw [Function.update_self]
      exact hx
    · rw [Function.update_of_ne fun he => hut (Option.some.inj he), hothers u hut]
      exact h.child u

/-- `main` moves, and the phase with it. -/
theorem Reached.set_main (h : Reached ts ph s f) {x : Thread Zem (Place Zem Loc)}
    (hnodup : (ts' ++ ph'.active).Nodup) (hdata : s'.data = ph'.data ts')
    (hzem : ∀ i, (s'.zem i).accesses = ph'.permits i) (hx : ph'.Main ts'.length x)
    (hsame : ∀ u, place ts' ph' u = place ts ph u) :
    Reached ts' ph' s' (Function.update f none x) := by
  refine ⟨hnodup, hdata, hzem, ?_, ?_⟩
  · rw [Function.update_self]
    exact hx
  · intro u
    rw [Function.update_of_ne (Option.some_ne_none u), hsame u]
    exact h.child u

/-- What a thread at `zem_down` does in its turn. -/
theorem Downs.turn {i : Zem} {p q : Loc} {pl : Place Zem Loc} {t : Option (Fin n)}
    {o : Section Zem (List (Line n)) Loc} (h : Downs i p q (.run pl))
    (hp : program n t p s.data = [.call (.zem_down i) q])
    (ho : o ∈ (program n).code t pl s) : o = zem_down s i q := by
  cases h with
  | call =>
    rw [Program.code, hp] at ho
    exact List.mem_singleton.1 ho
  | loop => exact List.mem_singleton.1 ho

theorem zem_down_zero {i : Zem} {q : Loc} (h : (s.zem i).accesses = 0) :
    zem_down s i q = ⟨s, [], .asleep i (.loop i q)⟩ := if_pos h

theorem zem_down_one {i : Zem} {q : Loc} (h : (s.zem i).accesses = 1) :
    zem_down s i q = ⟨{ s with
      zem := Function.update s.zem i ⟨0⟩
      calls := s.calls ++ [.zem_down i] }, [], .run (.code q)⟩ := by
  rw [zem_down, if_neg (by omega), h]
  rfl

/-- A thread without a round waits for a permit, takes it, or is finished. -/
theorem Reached.child_waits (h : Reached ts ph s f) {t : Fin n} {p : Place Zem Loc}
    (ht : f (some t) = .run p) (hplace : place ts ph t = none)
    {o : Section Zem (List (Line n)) Loc} (ho : o ∈ (program n).code (some t) p s) :
    ∃ ph', Reached ts ph' o.shared (Function.update f (some t) o.thread) := by
  have hdowns := h.child t
  rw [hplace, ht] at hdowns
  obtain rfl := Downs.turn hdowns rfl ho
  have hts : t ∉ ts := by
    intro hmem
    rw [place, if_pos hmem] at hplace
    cases hplace
  by_cases hzero : (s.zem .child).accesses = 0
  · rw [zem_down_zero hzero]
    refine ⟨ph, h.set_child h.nodup h.data h.zem (fun _ hy => hy) ?_ fun _ _ => rfl⟩
    rw [hplace]
    exact .asleep
  · cases ph with
    | offered =>
      rw [zem_down_one (h.zem .child)]
      refine ⟨.taken t, h.set_child ?_ h.data ?_ (fun _ hy => hy) ?_ ?_⟩
      · show (ts ++ [t]).Nodup
        rw [← List.concat_eq_append]
        exact List.Nodup.concat hts h.nodup.of_append_left
      · intro i
        cases i with
        | child => rfl
        | parent => exact h.zem .parent
      · simp [place, hts, Phase.child, ChildAt]
      · intro u hu
        simp [place, Phase.child, hu]
    | before => exact absurd (h.zem .child) hzero
    | idle => exact absurd (h.zem .child) hzero
    | taken => exact absurd (h.zem .child) hzero
    | printed => exact absurd (h.zem .child) hzero
    | answered => exact absurd (h.zem .child) hzero
    | told => exact absurd (h.zem .child) hzero

/-- The thread whose round it is prints, and gives a permit in return. -/
theorem Reached.child_moves (h : Reached ts ph s f) {t : Fin n} {q : Loc} {p : Place Zem Loc}
    (ht : f (some t) = .run p) (hplace : place ts ph t = some q)
    {o : Section Zem (List (Line n)) Loc} (ho : o ∈ (program n).code (some t) p s) :
    ∃ ph', Reached ts ph' o.shared (Function.update f (some t) o.thread) := by
  have hat := h.child t
  rw [hplace, ht] at hat
  cases hat
  by_cases hts : t ∈ ts
  · rw [place, if_pos hts] at hplace
    cases hplace
    exact absurd ho List.not_mem_nil
  · rw [place, if_neg hts] at hplace
    have hothers (ph' : Phase n) (hother : ∀ u, u ≠ t → ph'.child u = ph.child u) :
        ∀ u, u ≠ t → place ts ph' u = place ts ph u := by
      intro u hu
      rw [place, place, hother u hu]
    cases ph with
    | before => cases hplace
    | idle => cases hplace
    | offered => cases hplace
    | taken c =>
      obtain ⟨rfl, hq⟩ := Option.ite_none_right_eq_some.1 hplace
      cases hq
      obtain rfl := List.mem_singleton.1 ho
      refine ⟨.printed t, h.set_child h.nodup ?_ h.zem (fun _ hy => hy) ?_ (hothers _ ?_)⟩
      · simp [Action.run, Phase.data, h.data]
      · simp [place, hts, Phase.child, ChildAt, Action.run]
      · intro u hu
        simp [Phase.child, hu]
    | printed c =>
      obtain ⟨rfl, hq⟩ := Option.ite_none_right_eq_some.1 hplace
      cases hq
      obtain rfl := List.mem_singleton.1 ho
      refine ⟨.answered t, h.set_child h.nodup h.data ?_ (fun _ hy => hy) ?_ (hothers _ ?_)⟩
      · intro i
        cases i with
        | child => exact h.zem .child
        | parent =>
          have hparent := h.zem .parent
          simp only [Action.run, zem_up, Function.update_self, hparent]
          rfl
      · simp [place, hts, Phase.child, ChildAt, Action.run, zem_up]
      · intro u hu
        simp [Phase.child, hu]
    | answered c =>
      obtain ⟨rfl, hq⟩ := Option.ite_none_right_eq_some.1 hplace
      cases hq
      exact absurd ho List.not_mem_nil
    | told c =>
      obtain ⟨rfl, hq⟩ := Option.ite_none_right_eq_some.1 hplace
      cases hq
      exact absurd ho List.not_mem_nil

/-- `main` waits while nobody has given a permit in return. -/
theorem Reached.main_waits (h : Reached ts ph s f) {k : ℕ} {o : Section Zem (List (Line n)) Loc}
    (ho : o = zem_down s .parent (.main_print k)) (hzero : (s.zem .parent).accesses = 0)
    (hmain : ph.Main ts.length (.asleep .parent (.loop .parent (.main_print k)))) :
    Reached ts ph o.shared (Function.update f none o.thread) := by
  rw [ho, zem_down_zero hzero]
  exact h.set_main h.nodup h.data h.zem hmain fun _ => rfl

theorem Reached.main_turn (h : Reached ts ph s f) {p : Place Zem Loc} (hf : f none = .run p)
    {o : Section Zem (List (Line n)) Loc} (ho : o ∈ (program n).code none p s) :
    ∃ ts' ph', Reached ts' ph' o.shared (Function.update f none o.thread) := by
  have hmain := h.main
  rw [hf] at hmain
  cases ph with
  | before =>
    obtain ⟨hlen, hp⟩ := hmain
    obtain rfl := List.length_eq_zero_iff.1 hlen
    cases hp
    obtain rfl := List.mem_singleton.1 ho
    refine ⟨[], .idle, h.set_main h.nodup ?_ h.zem rfl fun _ => rfl⟩
    simp [Action.run, Phase.data, h.data, lines]
  | idle =>
    cases hmain
    by_cases hlt : ts.length < n
    · rw [round, if_pos hlt] at ho
      obtain rfl := List.mem_singleton.1 ho
      refine ⟨ts, .offered, h.set_main h.nodup h.data ?_ ⟨hlt, .call⟩ fun _ => rfl⟩
      intro i
      cases i with
      | child =>
        have hchild := h.zem .child
        simp only [Action.run, zem_up, Function.update_self, hchild]
        rfl
      | parent => exact h.zem .parent
    · rw [round, if_neg hlt] at ho
      exact absurd ho List.not_mem_nil
  | offered =>
    obtain ⟨hlt, hdowns⟩ := hmain
    exact ⟨ts, _, h.main_waits (hdowns.turn rfl ho) (h.zem .parent) ⟨hlt, .asleep⟩⟩
  | taken c =>
    obtain ⟨hlt, hdowns⟩ := hmain
    exact ⟨ts, _, h.main_waits (hdowns.turn rfl ho) (h.zem .parent) ⟨hlt, .asleep⟩⟩
  | printed c =>
    obtain ⟨hlt, hdowns⟩ := hmain
    exact ⟨ts, _, h.main_waits (hdowns.turn rfl ho) (h.zem .parent) ⟨hlt, .asleep⟩⟩
  | answered c =>
    obtain ⟨hlt, hdowns⟩ := hmain
    obtain rfl := hdowns.turn rfl ho
    rw [zem_down_one (h.zem .parent)]
    refine ⟨ts, .told c, h.set_main h.nodup h.data ?_ ⟨hlt, rfl⟩ fun _ => rfl⟩
    intro i
    cases i with
    | child => exact h.zem .child
    | parent => rfl
  | told c =>
    obtain ⟨hlt, hp⟩ := hmain
    cases hp
    obtain rfl := List.mem_singleton.1 ho
    refine ⟨ts ++ [c], .idle, h.set_main ?_ ?_ h.zem ?_ fun u => ?_⟩
    · show (ts ++ [c] ++ []).Nodup
      rw [List.append_nil]
      exact h.nodup
    · simp [Action.run, Phase.data, h.data, lines_snoc]
    · rw [List.length_append]
      rfl
    · by_cases hts : u ∈ ts <;> by_cases huc : u = c <;> simp [place, Phase.child, hts, huc]

theorem reached_of_reachable {s : State n} {spurious : Prop}
    (hs : (test_zem n spurious).Reachable s) : ∃ ts ph, Reached ts ph s.shared s.thread := by
  refine hs.invariant (I := fun s => ∃ ts ph, Reached ts ph s.shared s.thread) ?_ ?_
  · intro s h
    exact ⟨[], .before, .init h⟩
  · rintro s l s' ⟨ts, ph, h⟩ hstep
    cases hstep with
    | @turn t p o g ht ho hw =>
      have hg : Reached ts ph s.shared g := h.of_wakes hw.thread
      have hgt := hw.run ht
      cases t with
      | none => exact hg.main_turn hgt ho
      | some t =>
        cases hplace : place ts ph t with
        | none => exact ⟨ts, hg.child_waits hgt hplace ho⟩
        | some q => exact ⟨ts, hg.child_moves hgt hplace ho⟩
    | @spurious t c p _ ht =>
      refine ⟨ts, ph, h.of_wakes fun u => ?_⟩
      by_cases hut : u = t
      · subst hut
        exact Or.inr ⟨c, p, ht, Function.update_self _ _ _⟩
      · exact Or.inl (Function.update_of_ne hut _ _)

/-! ## Progress -/

theorem exists_notMem (h : ts.length < n) : ∃ t, t ∉ ts := by
  by_contra hall
  simp only [not_exists, not_not] at hall
  have hcard : (Finset.univ : Finset (Fin n)).card ≤ ts.toFinset.card :=
    Finset.card_le_card fun t _ => List.mem_toFinset.2 (hall t)
  have hle := ts.toFinset_card_le
  rw [Finset.card_univ, Fintype.card_fin] at hcard
  omega

theorem mem_of_length_ge (hnodup : ts.Nodup) (h : n ≤ ts.length) (t : Fin n) : t ∈ ts := by
  by_contra ht
  have hcard := (List.nodup_cons.2 ⟨ht, hnodup⟩).length_le_card
  rw [List.length_cons, Fintype.card_fin] at hcard
  omega

theorem Reached.active (h : Reached ts ph s f) {c : Fin n} (hc : ph.active = [c]) : c ∉ ts := by
  have hnodup := h.nodup
  rw [hc, ← List.concat_eq_append, List.nodup_concat] at hnodup
  exact hnodup.1

/-- Between two rounds, with none to come, all threads are finished. -/
theorem Reached.finished (h : Reached ts .idle s f) (hge : ¬ ts.length < n) (t : Option (Fin n)) :
    f t = .run (.code .finished) := by
  cases t with
  | none =>
    have hmain : f none = .run (.code (round n ts.length)) := h.main
    rwa [round, if_neg hge] at hmain
  | some t =>
    have hchild := h.child t
    rwa [place, if_pos (mem_of_length_ge h.nodup.of_append_left (not_lt.1 hge) t)] at hchild

/-- Somebody can go on, or all rounds are over. -/
theorem Reached.not_deadlock (h : Reached ts ph s f) (ha : Awaited s.zem f) :
    ¬ Deadlock (.code .finished) f := by
  intro hdead
  -- a thread that sleeps although there is a permit
  have hsleep (i : Zem) (t : Option (Fin n)) (q : Loc) (hone : ph.permits i = 1)
      (ht : f t = .asleep i (.loop i q)) : False := by
    have hle := ha.woken t i _ ht
    rw [h.zem i, hone] at hle
    have hpos : 0 < woken i f := by omega
    obtain ⟨u, hu⟩ := count_pos.1 hpos
    obtain ⟨q, hu⟩ := woken_iff.1 hu
    cases hdead.finished hu
  have hmain := h.main
  cases ph with
  | before => cases hdead.finished hmain.2
  | told c => cases hdead.finished hmain.2
  | idle =>
    by_cases hlt : ts.length < n
    · rw [Phase.Main, round, if_pos hlt] at hmain
      cases hdead.finished hmain
    · obtain ⟨t, ht⟩ := hdead.1
      exact ht (h.finished hlt t)
  | offered =>
    obtain ⟨t, ht⟩ := exists_notMem hmain.1
    have hdowns : Downs .child .start .print (f (some t)) := by
      have hchild := h.child t
      rwa [place, if_neg ht] at hchild
    generalize hx : f (some t) = x at hdowns
    cases hdowns with
    | call => cases hdead.finished hx
    | loop => cases hdead.finished hx
    | asleep => exact hsleep .child (some t) _ rfl hx
  | taken c =>
    have hchild := h.child c
    rw [place, if_neg (h.active rfl), Phase.child, if_pos rfl] at hchild
    cases hdead.finished hchild
  | printed c =>
    have hchild := h.child c
    rw [place, if_neg (h.active rfl), Phase.child, if_pos rfl] at hchild
    cases hdead.finished hchild
  | answered c =>
    obtain ⟨-, hdowns⟩ := hmain
    generalize hx : f none = x at hdowns
    cases hdowns with
    | call => cases hdead.finished hx
    | loop => cases hdead.finished hx
    | asleep => exact hsleep .parent none _ rfl hx

/-- When all threads are finished, the rounds are over. -/
theorem Reached.complete (h : Reached ts ph s f) (hall : ∀ t, f t = .run (.code .finished)) :
    ts.Nodup ∧ ts.length = n ∧ s.data = lines ts := by
  have hmain := h.main
  rw [hall] at hmain
  cases ph with
  | idle =>
    have hge : ¬ ts.length < n := by
      intro hlt
      rw [Phase.Main, round, if_pos hlt] at hmain
      cases hmain
    have hnodup := h.nodup.of_append_left
    have hle := hnodup.length_le_card
    rw [Fintype.card_fin] at hle
    exact ⟨hnodup, by omega, h.data⟩
  | before => cases hmain.2
  | told => cases hmain.2
  | offered => cases hmain.2
  | taken => cases hmain.2
  | printed => cases hmain.2
  | answered => cases hmain.2

/-- A thread that is not asleep can take a turn until it is finished. -/
theorem Reached.code_ne_nil (h : Reached ts ph s f) {t : Option (Fin n)} {p : Place Zem Loc}
    (ht : f t = .run p) (hp : p ≠ .code .finished) : (program n).code t p s ≠ [] := by
  cases p with
  | loop i q => exact List.cons_ne_nil _ _
  | code q =>
    cases t with
    | some t =>
      have hchild := h.child t
      rw [ht] at hchild
      cases hplace : place ts ph t with
      | none =>
        rw [hplace] at hchild
        cases hchild
        exact List.cons_ne_nil _ _
      | some q' =>
        rw [hplace] at hchild
        cases hchild
        rw [place] at hplace
        split at hplace
        · cases hplace
          exact absurd rfl hp
        · cases ph <;>
            simp only [Phase.child, reduceCtorEq, Option.ite_none_right_eq_some] at hplace
          case taken => cases hplace.2; exact List.cons_ne_nil _ _
          case printed => cases hplace.2; exact List.cons_ne_nil _ _
          case answered => cases hplace.2; exact absurd rfl hp
          case told => cases hplace.2; exact absurd rfl hp
    | none =>
      have hmain := h.main
      rw [ht] at hmain
      cases ph with
      | before => cases hmain.2; exact List.cons_ne_nil _ _
      | told => cases hmain.2; exact List.cons_ne_nil _ _
      | idle =>
        cases hmain
        rw [round] at hp ⊢
        split at hp
        · next hlt =>
          rw [if_pos hlt]
          exact List.cons_ne_nil _ _
        · exact absurd rfl hp
      | offered => cases hmain.2; exact List.cons_ne_nil _ _
      | taken => cases hmain.2; exact List.cons_ne_nil _ _
      | printed => cases hmain.2; exact List.cons_ne_nil _ _
      | answered => cases hmain.2; exact List.cons_ne_nil _ _

/-- What was printed is a prefix of the lines of the rounds so far and of the one under way. -/
theorem Reached.data_upTo (h : Reached ts ph s f) :
    ∃ us : List (Fin n), us.Nodup ∧ s.data <+: lines us := by
  refine ⟨ts ++ ph.active, h.nodup, ?_⟩
  rw [h.data]
  cases ph with
  | before => exact List.nil_prefix
  | idle => simp [Phase.data, Phase.active]
  | offered => simp [Phase.data, Phase.active]
  | taken => simp [Phase.data, Phase.active, lines_snoc]
  | printed => simp [Phase.data, Phase.active, lines_snoc]
  | answered => simp [Phase.data, Phase.active, lines_snoc]
  | told => simp [Phase.data, Phase.active, lines_snoc]

/-! ## How long runs are -/

/-- What is left to do at a place: four steps for each round, one of them for the wake-up that it
sends. -/
def todo (n : ℕ) : Loc → ℕ
  | .start => 4 * n + 4
  | .main_up k => 4 * (n - k)
  | .main_down k => 4 * (n - k) - 2
  | .main_print k => 4 * (n - k) - 3
  | .print => 3
  | .up => 2
  | .finished => 0

def rank (n : ℕ) : Thread Zem (Place Zem Loc) → ℕ
  | .run (.code p) => todo n p
  | .run (.loop _ q) => todo n q + 1
  | .asleep _ (.code p) => todo n p
  | .asleep _ (.loop _ q) => todo n q

theorem todo_round (n k : ℕ) : todo n (round n k) ≤ 4 * (n - k) := by
  rw [round]
  split
  · exact le_rfl
  · exact Nat.zero_le _

theorem rank_down (i : Zem) (q : Loc) : rank n (zem_down s i q).thread + cost (Option (Fin n))
    (zem_down s i q).wakes ≤ todo n q := by
  rw [zem_down]
  split <;> exact le_rfl

/-- The rounds that `main` is in are those to come. -/
theorem Reached.main_lt (h : Reached ts ph s f) {q : Loc} {k : ℕ} (hf : f none = .run (.code q))
    (hq : q = .main_up k ∨ q = .main_down k ∨ q = .main_print k) : k < n := by
  have hmain := h.main
  rw [hf] at hmain
  have hdowns (hlt : ts.length < n)
      (hd : Downs .parent (.main_down ts.length) (.main_print ts.length) (.run (.code q))) :
      k < n := by
    cases hd
    simp only [reduceCtorEq, Loc.main_down.injEq, or_false, false_or] at hq
    omega
  cases ph with
  | before =>
    cases hmain.2
    simp at hq
  | idle =>
    cases hmain
    by_cases hlt : ts.length < n
    · simp only [round, if_pos hlt, reduceCtorEq, Loc.main_up.injEq, or_false] at hq
      omega
    · simp [round, if_neg hlt] at hq
  | told c =>
    cases hmain.2
    have hlt := hmain.1
    simp only [reduceCtorEq, Loc.main_print.injEq, false_or] at hq
    omega
  | offered => exact hdowns hmain.1 hmain.2
  | taken => exact hdowns hmain.1 hmain.2
  | printed => exact hdowns hmain.1 hmain.2
  | answered => exact hdowns hmain.1 hmain.2

/-- A turn leaves less to do, also for the thread that it wakes. -/
theorem Reached.rank_turn (h : Reached ts ph s f) {t : Option (Fin n)} {p : Place Zem Loc}
    (ht : f t = .run p) {o : Section Zem (List (Line n)) Loc} (ho : o ∈ (program n).code t p s) :
    rank n o.thread + cost (Option (Fin n)) o.wakes + 1 ≤ rank n (.run p) := by
  cases p with
  | loop i q =>
    obtain rfl := List.mem_singleton.1 ho
    exact Nat.succ_le_succ (rank_down i q)
  | code q =>
    obtain ⟨a, ha, rfl⟩ := List.mem_map.1 ho
    cases t with
    | none =>
      cases q with
      | start =>
        obtain rfl := List.mem_singleton.1 ha
        have hround := todo_round n 0
        show todo n (round n 0) + 0 + 1 ≤ 4 * n + 4
        omega
      | main_up k =>
        obtain rfl := List.mem_singleton.1 ha
        have hlt := h.main_lt ht (Or.inl rfl)
        simp only [Action.run, zem_up, rank, cost, todo]
        omega
      | main_down k =>
        obtain rfl := List.mem_singleton.1 ha
        have hlt := h.main_lt ht (Or.inr (Or.inl rfl))
        have hdown := rank_down (n := n) (s := s) .parent (.main_print k)
        simp only [Action.run, rank, todo] at hdown ⊢
        omega
      | main_print k =>
        obtain rfl := List.mem_singleton.1 ha
        have hlt := h.main_lt ht (Or.inr (Or.inr rfl))
        have hround := todo_round n (k + 1)
        show todo n (round n (k + 1)) + 0 + 1 ≤ 4 * (n - k) - 3
        omega
      | _ => exact absurd ha List.not_mem_nil
    | some c =>
      cases q with
      | start =>
        obtain rfl := List.mem_singleton.1 ha
        have hdown := rank_down (n := n) (s := s) .child .print
        simp only [Action.run, rank, todo] at hdown ⊢
        omega
      | print =>
        obtain rfl := List.mem_singleton.1 ha
        simp [Action.run, rank, cost, todo]
      | up =>
        obtain rfl := List.mem_singleton.1 ha
        simp [Action.run, zem_up, rank, cost, todo]
      | _ => exact absurd ha List.not_mem_nil

/-- Without spurious wake-ups, each step of a run leaves less to do. -/
theorem length_le {tr : List (Label (Option (Fin n)))} {s : State n}
    (h : (test_zem n False).Run tr s) : tr.length ≤ 4 * (n + 1) ^ 2 := by
  rw [test_zem, threads] at h
  have hle := length_add_total_le (n := 0) (r := rank n) (fun _ => 0) ?_ ?_ ?_ h
  · have hcard : Fintype.card (Option (Fin n)) = n + 1 := by simp
    have hstart : rank n (.run (.code .start)) = 4 * (n + 1) := rfl
    rw [hcard, hstart] at hle
    have hsq : (n + 1) * (4 * (n + 1)) = 4 * (n + 1) ^ 2 := by ring
    omega
  · intro c p
    cases p <;> simp only [rank, le_refl, Nat.le_succ]
  · intro s _
    exact le_rfl
  · intro s hs t p ht o ho
    obtain ⟨ts, ph, hr⟩ := reached_of_reachable hs
    have hrank := hr.rank_turn ht ho
    omega

/-! ## Every order of the threads -/

/-- A reachable state in which nobody sleeps. -/
structure Calm (spurious : Prop) (s : Shared Zem (List (Line n)))
    (f : Option (Fin n) → Thread Zem (Place Zem Loc)) : Prop where
  reachable : (test_zem n spurious).Reachable ⟨s, f⟩
  awake : ∀ t, ∃ p, f t = .run p

namespace Calm

variable {spurious : Prop} {t : Option (Fin n)} {p q : Loc} {i : Zem}

/-- While nobody sleeps, a turn moves its thread only. -/
theorem turn (h : Calm spurious s f) (ht : f t = .run (.code p))
    {o : Section Zem (List (Line n)) Loc} (ho : o ∈ (program n).code t (.code p) s)
    (hq : o.thread = .run (.code q)) :
    Calm spurious o.shared (Function.update f t (.run (.code q))) := by
  obtain ⟨g, hg⟩ := Wakes.exists o.wakes f
  obtain rfl : g = f := by
    funext u
    obtain ⟨r, hr⟩ := h.awake u
    rw [hg.run hr, hr]
  refine ⟨hq ▸ h.reachable.step (.turn ht ho hg), ?_⟩
  intro u
  by_cases hut : u = t
  · subst hut
    exact ⟨_, Function.update_self _ _ _⟩
  · rw [Function.update_of_ne hut]
    exact h.awake u

theorem work {out : List (Line n)} (h : Calm spurious s f) (ht : f t = .run (.code p))
    (hp : program n t p s.data = [.work out q]) :
    ∃ s', Calm spurious s' (Function.update f t (.run (.code q))) ∧ s'.zem = s.zem ∧
      s'.data = out := by
  refine ⟨_, h.turn ht (o := ⟨{ s with data := out }, [], .run (.code q)⟩) ?_ rfl, rfl, rfl⟩
  rw [Program.code, hp]
  exact List.mem_cons_self

theorem up (h : Calm spurious s f) (ht : f t = .run (.code p))
    (hp : program n t p s.data = [.call (.zem_up i) q]) :
    ∃ s', Calm spurious s' (Function.update f t (.run (.code q))) ∧
      s'.zem = Function.update s.zem i ⟨(s.zem i).accesses + 1⟩ ∧ s'.data = s.data := by
  refine ⟨_, h.turn ht (o := zem_up s i q) ?_ rfl, rfl, rfl⟩
  rw [Program.code, hp]
  exact List.mem_cons_self

theorem down (h : Calm spurious s f) (ht : f t = .run (.code p))
    (hp : program n t p s.data = [.call (.zem_down i) q]) (hone : (s.zem i).accesses = 1) :
    ∃ s', Calm spurious s' (Function.update f t (.run (.code q))) ∧
      s'.zem = Function.update s.zem i ⟨0⟩ ∧ s'.data = s.data := by
  have hdown := h.turn ht (o := zem_down s i q) (q := q) (by
    rw [Program.code, hp]
    exact List.mem_cons_self)
  rw [zem_down_one hone] at hdown
  exact ⟨_, hdown rfl, rfl, rfl⟩

end Calm

/-- The threads between two rounds, when nobody is early. -/
def between (ts : List (Fin n)) : Option (Fin n) → Thread Zem (Place Zem Loc)
  | none => .run (.code (round n ts.length))
  | some t => .run (.code (if t ∈ ts then .finished else .start))

/-- A round in which `t` prints. -/
theorem Calm.round {spurious : Prop} {t : Fin n} (h : Calm spurious s (between ts))
    (hzem : ∀ i, s.zem i = ⟨0⟩) (ht : t ∉ ts) (hlt : ts.length < n) :
    ∃ s', Calm spurious s' (between (ts ++ [t])) ∧ (∀ i, s'.zem i = ⟨0⟩) ∧
      s'.data = s.data ++ [.thread t, .printed ts.length] := by
  have hmain : between ts none = .run (.code (.main_up ts.length)) := by
    rw [between, Test.round, if_pos hlt]
  have hchild : between ts (some t) = .run (.code .start) := by
    rw [between, if_neg ht]
  have hne : (some t : Option (Fin n)) ≠ none := Option.some_ne_none t
  obtain ⟨s₁, h₁, hz₁, hd₁⟩ := h.up hmain rfl
  obtain ⟨s₂, h₂, hz₂, hd₂⟩ := h₁.down (t := some t) (by simpa [hne] using hchild) rfl
    (by simp [hz₁, hzem])
  obtain ⟨s₃, h₃, hz₃, hd₃⟩ := h₂.work (t := some t) (Function.update_self _ _ _) rfl
  obtain ⟨s₄, h₄, hz₄, hd₄⟩ := h₃.up (t := some t) (Function.update_self _ _ _) rfl
  obtain ⟨s₅, h₅, hz₅, hd₅⟩ := h₄.down (t := none) (p := .main_down ts.length)
    (by simp [hne.symm]) rfl (by simp [hz₄, hz₃, hz₂, hz₁, hzem])
  obtain ⟨s₆, h₆, hz₆, hd₆⟩ := h₅.work (t := none) (Function.update_self _ _ _) rfl
  refine ⟨s₆, ?_, ?_, ?_⟩
  · convert h₆ using 1
    funext u
    cases u with
    | none => simp [between]
    | some u =>
      by_cases hut : u = t
      · subst hut
        simp [between]
      · simp [between, hut]
  · intro i
    cases i <;> simp [hz₆, hz₅, hz₄, hz₃, hz₂, hz₁, hzem]
  · simp [hd₆, hd₅, hd₄, hd₃, hd₂, hd₁]

theorem calm_lines (spurious : Prop) {ts : List (Fin n)} (hnodup : ts.Nodup) :
    ∃ s, Calm spurious s (between ts) ∧ (∀ i, s.zem i = ⟨0⟩) ∧ s.data = lines ts := by
  induction ts using List.reverseRecOn with
  | nil =>
    have h₀ : Calm spurious (n := n) ⟨fun _ => zem_init 0, [], []⟩ fun _ => .run (.code .start) :=
      ⟨.init ⟨rfl, fun _ => rfl⟩, fun _ => ⟨_, rfl⟩⟩
    obtain ⟨s, h, hz, hd⟩ := h₀.work (t := none) rfl rfl
    refine ⟨s, ?_, fun i => by rw [hz]; rfl, hd⟩
    convert h using 1
    funext u
    cases u <;> simp [between]
  | append_singleton ts t ih =>
    rw [← List.concat_eq_append, List.nodup_concat] at hnodup
    obtain ⟨s, h, hz, hd⟩ := ih hnodup.2
    have hlt : ts.length < n := by
      by_contra hge
      exact hnodup.1 (mem_of_length_ge hnodup.2 (not_lt.1 hge) t)
    obtain ⟨s', h', hz', hd'⟩ := h.round hz hnodup.1 hlt
    exact ⟨s', h', hz', by rw [hd', hd, lines_snoc]⟩

/-! ## The runs -/

/-- What the runs of any number of threads print is a prefix of the lines that `main` and some
distinct threads print in turn, all such lines occur, there is no deadlock, the runs are bounded if
no thread wakes up for nothing, and where one cannot go on, all threads have printed and are
finished. -/
theorem rounds_alternate (n : ℕ) (spurious : Prop) :
    (∀ tr s, (test_zem n spurious).Run tr s →
      (∃ ts : List (Fin n), ts.Nodup ∧ s.shared.data <+: lines ts) ∧
      ¬ Deadlock (.code .finished) s.thread ∧
      (¬ spurious → tr.length ≤ 4 * (n + 1) ^ 2) ∧
      ((∀ l s', ¬ (test_zem n spurious).step s l s') →
        (∀ t, s.thread t = .run (.code .finished)) ∧
        ∃ ts : List (Fin n), ts.Nodup ∧ ts.length = n ∧ s.shared.data = lines ts)) ∧
    ∀ ts : List (Fin n), ts.Nodup →
      ∃ s, (test_zem n spurious).Reachable s ∧ s.shared.data = lines ts := by
  refine ⟨?_, ?_⟩
  · intro tr s h
    obtain ⟨ts, ph, hr⟩ := reached_of_reachable ⟨tr, h⟩
    have hdead := hr.not_deadlock (contract_of_reachable (fun _ => le_rfl) ⟨tr, h⟩).2
    refine ⟨hr.data_upTo, hdead, ?_, ?_⟩
    · intro hno
      rw [eq_false hno] at h
      exact length_le h
    · intro hstuck
      have hfin := finished_of_stuck (fun _ _ => hr.code_ne_nil) hstuck hdead
      exact ⟨hfin, ts, hr.complete hfin⟩
  · intro ts hnodup
    obtain ⟨s, h, -, hd⟩ := calm_lines spurious hnodup
    exact ⟨_, h.reachable, hd⟩

/-- The second of two threads prints first. -/
theorem rounds_alternate_second : ∃ s : State 2, (test_zem 2 False).Reachable s ∧
    s.shared.data = [.first, .thread 1, .printed 0, .thread 0, .printed 1] ∧
    ¬ Deadlock (.code .finished) s.thread := by
  obtain ⟨hruns, hall⟩ := rounds_alternate 2 False
  obtain ⟨s, ⟨tr, hs⟩, hd⟩ := hall [1, 0] (by decide)
  exact ⟨s, ⟨tr, hs⟩, hd, (hruns tr s hs).2.1⟩

end Zemaphore.Test

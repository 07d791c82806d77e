/-
  `zemaphore_exercise.c`: three threads that print in turn. One permit goes round: it is in
  one of the three semaphores, or a thread has taken it and not yet given it on.
-/
import OSModules.Zemaphore.Basic

namespace Zemaphore

open Runs Monitor

inductive Zem
  | zero
  | first
  | second
  deriving DecidableEq

/-- Where a thread is in `justprint`: at the test of its loop, at `printf`, at `zem_up`, or done. -/
inductive Loc
  | top (i : ℕ)
  | print (i : ℕ)
  | up (i : ℕ)
  | finished
  deriving DecidableEq

/-- The semaphore that a thread downs. -/
def own : Fin 3 → Zem
  | 0 => .zero
  | 1 => .first
  | 2 => .second

/-- The semaphore that a thread ups. -/
def next : Fin 3 → Zem
  | 0 => .first
  | 1 => .second
  | 2 => .zero

/-- The data is what was printed. -/
def justprint (NUM_ITER : ℕ) : Program (Fin 3) Zem (List (Fin 3)) Loc
  | thread_id, .top i, out =>
    if i < NUM_ITER then [.call (.zem_down (own thread_id)) (.print i)] else [.work out .finished]
  | thread_id, .print i, out => [.work (out ++ [thread_id]) (.up i)]
  | thread_id, .up i, _ => [.call (.zem_up (next thread_id)) (.top (i + 1))]
  | _, .finished, _ => []

/-- The values that `main` gives to `zem_init`. -/
def value : Zem → ℤ
  | .zero => 1
  | .first => 0
  | .second => 0

abbrev State := Config (Fin 3) (Shared Zem (List (Fin 3))) Zem (Place Zem Loc)

def printers (NUM_ITER : ℕ) (spurious : Prop) : LTS State (Label (Fin 3)) :=
  threads (justprint NUM_ITER) value [] (.top 0) spurious

/-! ## Turns -/

/-- The thread whose turn it is after `m` turns. -/
def who (m : ℕ) : Fin 3 := Fin.ofNat 3 m

/-- The first `m` numbers of 0, 1, 2, 0, 1, 2, … -/
def order (m : ℕ) : List (Fin 3) := (List.range m).map who

/-- How often it was the turn of a thread in `m` turns. -/
def turns (t : Fin 3) (m : ℕ) : ℕ := (m + 2 - t) / 3

theorem turns_succ (t : Fin 3) (m : ℕ) :
    turns t (m + 1) = turns t m + if t = who m then 1 else 0 := by
  have ht := t.isLt
  have hwho : t = who m ↔ (t : ℕ) = m % 3 := by
    rw [Fin.ext_iff]
    rfl
  simp only [turns, hwho]
  split_ifs <;> omega

theorem turns_who_le (t : Fin 3) (m : ℕ) : turns (who m) m ≤ turns t m := by
  have ht := t.isLt
  have hwho : ((who m : Fin 3) : ℕ) = m % 3 := rfl
  simp only [turns, hwho]
  omega

theorem own_who_succ (m : ℕ) : own (who (m + 1)) = next (who m) := by
  have hnext : ∀ t : Fin 3, own (t + 1) = next t := by decide
  rw [← hnext]
  congr 1
  ext
  simp [who, Fin.val_add]

theorem own_inj {t u : Fin 3} (h : own t = own u) : t = u := by
  revert t u
  decide

theorem order_succ (m : ℕ) : order (m + 1) = order m ++ [who m] := by
  rw [order, List.range_succ, List.map_append]
  rfl

theorem count_order (t : Fin 3) (m : ℕ) : (order m).count t = turns t m := by
  induction m with
  | zero =>
    have ht := t.isLt
    simp only [order, turns, List.range_zero, List.map_nil, List.count_nil]
    omega
  | succ m ih =>
    rw [order_succ, List.count_append, ih, turns_succ]
    by_cases h : t = who m
    · simp [h]
    · simp [h, Ne.symm h]

/-! ## Where the permit is -/

variable {n m : ℕ} {t : Fin 3} {x : Thread Zem (Place Zem Loc)} {p : Place Zem Loc}
  {s : Shared Zem (List (Fin 3))} {o : Section Zem (List (Fin 3)) Loc}

/-- After `m` turns, the thread `t` waits for its next turn, or is done. -/
inductive Waits (n m : ℕ) (t : Fin 3) : Thread Zem (Place Zem Loc) → Prop
  | top : turns t m ≤ n → Waits n m t (.run (.code (.top (turns t m))))
  | asleep : turns t m < n → Waits n m t (.asleep (own t) (.loop (own t) (.print (turns t m))))
  | loop : turns t m < n → Waits n m t (.run (.loop (own t) (.print (turns t m))))
  | finished : turns t m = n → Waits n m t (.run (.code .finished))

theorem Waits.wake {c : Zem} (h : Waits n m t (.asleep c p)) : Waits n m t (.run p) := by
  cases h with
  | asleep hlt => exact .loop hlt

theorem Waits.succ (h : Waits n m t x) (ht : t ≠ who m) : Waits n (m + 1) t x := by
  have hturns : turns t (m + 1) = turns t m := by rw [turns_succ, if_neg ht]; rfl
  cases h with
  | top hle => rw [← hturns] at hle ⊢; exact .top hle
  | asleep hlt => rw [← hturns] at hlt ⊢; exact .asleep hlt
  | loop hlt => rw [← hturns] at hlt ⊢; exact .loop hlt
  | finished heq => rw [← hturns] at heq; exact .finished heq

/-- A thread that waits for its turn goes on to wait, or takes the permit from its semaphore. -/
theorem Waits.turn (h : Waits n m t (.run p)) (ho : o ∈ (justprint n).code t p s) :
    o.wakes = [] ∧ ((o.shared = s ∧ Waits n m t o.thread) ∨
      ((s.zem (own t)).accesses ≠ 0 ∧ turns t m < n ∧ o.shared.data = s.data ∧
        o.shared.zem = Function.update s.zem (own t) ⟨(s.zem (own t)).accesses - 1⟩ ∧
        o.thread = .run (.code (.print (turns t m))))) := by
  -- the section of `zem_down`
  have hdown : turns t m < n → o = zem_down s (own t) (.print (turns t m)) →
      o.wakes = [] ∧ ((o.shared = s ∧ Waits n m t o.thread) ∨
        ((s.zem (own t)).accesses ≠ 0 ∧ turns t m < n ∧ o.shared.data = s.data ∧
          o.shared.zem = Function.update s.zem (own t) ⟨(s.zem (own t)).accesses - 1⟩ ∧
          o.thread = .run (.code (.print (turns t m))))) := by
    rintro hlt rfl
    rw [zem_down]
    split
    · exact ⟨rfl, Or.inl ⟨rfl, .asleep hlt⟩⟩
    · next hne => exact ⟨rfl, Or.inr ⟨hne, hlt, rfl, rfl, rfl⟩⟩
  cases h with
  | top hle =>
    obtain ⟨a, ha, rfl⟩ := List.mem_map.1 ho
    rw [justprint] at ha
    split at ha
    · next hlt =>
      obtain rfl := List.mem_singleton.1 ha
      exact hdown hlt rfl
    · next hge =>
      obtain rfl := List.mem_singleton.1 ha
      exact ⟨rfl, Or.inl ⟨rfl, .finished (le_antisymm hle (not_lt.1 hge))⟩⟩
  | loop hlt => exact hdown hlt (List.mem_singleton.1 ho)
  | finished => exact absurd ho List.not_mem_nil

/-- After `m` turns, the permit is in the semaphore of the thread whose turn it is, or that thread
is about to print, or it has printed and is about to give the permit on. -/
inductive Turn (n m : ℕ) (s : Shared Zem (List (Fin 3))) (f : Fin 3 → Thread Zem (Place Zem Loc)) :
    Prop
  | permit : s.data = order m →
      (∀ i, (s.zem i).accesses = if i = own (who m) then 1 else 0) →
      (∀ t, Waits n m t (f t)) → Turn n m s f
  | print : s.data = order m → (∀ i, (s.zem i).accesses = 0) → turns (who m) m < n →
      f (who m) = .run (.code (.print (turns (who m) m))) →
      (∀ t, t ≠ who m → Waits n m t (f t)) → Turn n m s f
  | up : s.data = order (m + 1) → (∀ i, (s.zem i).accesses = 0) → turns (who m) m < n →
      f (who m) = .run (.code (.up (turns (who m) m))) →
      (∀ t, t ≠ who m → Waits n m t (f t)) → Turn n m s f

theorem turn_init {s : State} {spurious : Prop} (h : (printers n spurious).init s) :
    Turn n 0 s.shared s.thread := by
  obtain ⟨hinit, hstart⟩ := h
  refine .permit ?_ ?_ ?_
  · rw [hinit]; rfl
  · intro i
    rw [hinit]
    cases i <;> rfl
  · intro t
    have hzero : turns t 0 = 0 := by
      have ht := t.isLt
      simp only [turns]
      omega
    have htop := Waits.top (n := n) (m := 0) (t := t) (hzero.le.trans (Nat.zero_le n))
    rw [hzero] at htop
    rw [hstart t]
    exact htop

variable {f g : Fin 3 → Thread Zem (Place Zem Loc)}

theorem waits_update {A : Fin 3 → Prop} (hf : ∀ u, A u → Waits n m u (f u))
    (hx : A t → Waits n m t x) : ∀ u, A u → Waits n m u (Function.update f t x u) := by
  intro u hu
  by_cases hut : u = t
  · subst hut
    rw [Function.update_self]
    exact hx hu
  · rw [Function.update_of_ne hut]
    exact hf u hu

/-- The thread whose turn it is prints. -/
theorem turn_print {k : ℕ} (hdata : s.data = order m)
    (hzem : ∀ i, (s.zem i).accesses = 0) (hlt : turns (who m) m < n)
    (hothers : ∀ t, t ≠ who m → Waits n m t (f t)) (hk : k = turns (who m) m)
    (ho : o ∈ (justprint n).code (who m) (.code (.print k)) s)
    (hw : Wakes o.wakes f g) :
    Turn n m o.shared (Function.update g (who m) o.thread) := by
  obtain rfl := List.mem_singleton.1 ho
  obtain rfl := hw.of_nil
  refine .up ?_ hzem hlt ?_ ?_
  · rw [order_succ, ← hdata]; rfl
  · simp only [Function.update_self, hk]; rfl
  · exact waits_update hothers fun h => absurd rfl h

/-- The thread whose turn it was gives the permit to the next one. -/
theorem turn_up {k : ℕ} (hdata : s.data = order (m + 1))
    (hzem : ∀ i, (s.zem i).accesses = 0) (hlt : turns (who m) m < n)
    (hothers : ∀ t, t ≠ who m → Waits n m t (f t)) (hk : k = turns (who m) m)
    (ho : o ∈ (justprint n).code (who m) (.code (.up k)) s)
    (hw : Wakes o.wakes f g) :
    Turn n (m + 1) o.shared (Function.update g (who m) o.thread) := by
  obtain rfl := List.mem_singleton.1 ho
  have hturns : turns (who m) (m + 1) = k + 1 := by rw [turns_succ, if_pos rfl, hk]
  have hothers' : ∀ t, t ≠ who m → Waits n (m + 1) t (g t) := by
    intro t ht
    rcases hw.thread t with hg | ⟨c, p, hf, hg⟩
    · rw [hg]
      exact (hothers t ht).succ ht
    · rw [hg]
      refine Waits.succ ?_ ht
      have hwaits := hothers t ht
      rw [hf] at hwaits
      exact hwaits.wake
  refine .permit hdata ?_ ?_
  · intro i
    rw [own_who_succ]
    by_cases hi : i = next (who m)
    · subst hi
      simp [Action.run, zem_up, hzem]
    · simp [Action.run, zem_up, hzem, hi]
  · intro t
    by_cases ht : t = who m
    · subst ht
      have htop := Waits.top (n := n) (m := m + 1) (t := who m) (by omega)
      rw [hturns] at htop
      rw [Function.update_self]
      exact htop
    · rw [Function.update_of_ne ht]
      exact hothers' t ht

/-- A thread that waits for its turn goes on to wait while there is no permit for it. -/
theorem turn_other (ht : Waits n m t (.run p)) (hzem : (s.zem (own t)).accesses = 0)
    (ho : o ∈ (justprint n).code t p s) (hw : Wakes o.wakes f g) :
    o.shared = s ∧ g = f ∧ Waits n m t o.thread := by
  obtain ⟨hwakes, ⟨hshared, hx⟩ | ⟨hne, -⟩⟩ := ht.turn ho
  · rw [hwakes] at hw
    exact ⟨hshared, hw.of_nil, hx⟩
  · exact absurd hzem hne

theorem turn_turn (h : Turn n m s f) (ht : f t = .run p)
    (ho : o ∈ (justprint n).code t p s) (hw : Wakes o.wakes f g) :
    ∃ m', Turn n m' o.shared (Function.update g t o.thread) := by
  cases h with
  | permit hdata hzem hall =>
    have hwaits := hall t
    rw [ht] at hwaits
    by_cases htm : t = who m
    · subst htm
      obtain ⟨hwakes, ⟨hshared, hx⟩ | ⟨hne, hlt, hd, hz, hx⟩⟩ := hwaits.turn ho
      · rw [hwakes] at hw
        obtain rfl := hw.of_nil
        refine ⟨m, .permit (hshared ▸ hdata) (hshared ▸ hzem) ?_⟩
        exact fun u => waits_update (A := fun _ => True) (fun u _ => hall u) (fun _ => hx) u trivial
      · rw [hwakes] at hw
        obtain rfl := hw.of_nil
        refine ⟨m, .print (hd.trans hdata) ?_ hlt ?_ ?_⟩
        · intro i
          simp only [hz]
          by_cases hi : i = own (who m)
          · subst hi
            simp [hzem]
          · simp [hzem, hi]
        · simp only [Function.update_self, hx]
        · exact waits_update (fun u _ => hall u) fun hne => absurd rfl hne
    · have hzero : (s.zem (own t)).accesses = 0 := by
        rw [hzem, if_neg]
        exact fun h => htm (own_inj h)
      obtain ⟨hshared, rfl, hx⟩ := turn_other hwaits hzero ho hw
      refine ⟨m, .permit (hshared ▸ hdata) (hshared ▸ hzem) ?_⟩
      exact fun u => waits_update (A := fun _ => True) (fun u _ => hall u) (fun _ => hx) u trivial
  | print hdata hzem hlt hwho hothers =>
    by_cases htm : t = who m
    · subst htm
      rw [hwho] at ht
      cases ht
      exact ⟨m, turn_print hdata hzem hlt hothers rfl ho hw⟩
    · have hwaits := hothers t htm
      rw [ht] at hwaits
      obtain ⟨hshared, rfl, hx⟩ := turn_other hwaits (hzem _) ho hw
      refine ⟨m, .print (hshared ▸ hdata) (hshared ▸ hzem) hlt ?_ (waits_update hothers fun _ => hx)⟩
      rwa [Function.update_of_ne (Ne.symm htm)]
  | up hdata hzem hlt hwho hothers =>
    by_cases htm : t = who m
    · subst htm
      rw [hwho] at ht
      cases ht
      exact ⟨m + 1, turn_up hdata hzem hlt hothers rfl ho hw⟩
    · have hwaits := hothers t htm
      rw [ht] at hwaits
      obtain ⟨hshared, rfl, hx⟩ := turn_other hwaits (hzem _) ho hw
      refine ⟨m, .up (hshared ▸ hdata) (hshared ▸ hzem) hlt ?_ (waits_update hothers fun _ => hx)⟩
      rwa [Function.update_of_ne (Ne.symm htm)]

/-- A wake-up changes nothing about the turn. -/
theorem turn_spurious {c : Zem} (h : Turn n m s f) (ht : f t = .asleep c p) :
    Turn n m s (Function.update f t (.run p)) := by
  have hne : ∀ q, f (who m) = .run q → t ≠ who m := by
    rintro q hq rfl
    rw [ht] at hq
    cases hq
  have hwake : Waits n m t (f t) → Waits n m t (.run p) := by
    rw [ht]
    exact Waits.wake
  cases h with
  | permit hdata hzem hall =>
    refine .permit hdata hzem ?_
    exact fun u => waits_update (A := fun _ => True) (fun u _ => hall u) (fun _ => hwake (hall t)) u trivial
  | print hdata hzem hlt hwho hothers =>
    have htm := hne _ hwho
    refine .print hdata hzem hlt ?_ (waits_update hothers fun _ => hwake (hothers t htm))
    rwa [Function.update_of_ne (Ne.symm htm)]
  | up hdata hzem hlt hwho hothers =>
    have htm := hne _ hwho
    refine .up hdata hzem hlt ?_ (waits_update hothers fun _ => hwake (hothers t htm))
    rwa [Function.update_of_ne (Ne.symm htm)]

theorem turn_of_reachable {s : State} {spurious : Prop} (hs : (printers n spurious).Reachable s) :
    ∃ m, Turn n m s.shared s.thread := by
  refine hs.invariant (I := fun s => ∃ m, Turn n m s.shared s.thread) ?_ ?_
  · intro s h
    exact ⟨0, turn_init h⟩
  · rintro s l s' ⟨m, hm⟩ hstep
    cases hstep with
    | turn ht ho hw => exact turn_turn hm ht ho hw
    | spurious _ ht => exact ⟨m, turn_spurious hm ht⟩

/-! ## Progress -/

/-- The thread whose turn it is does not sleep, or was woken. -/
theorem not_deadlock (h : Turn n m s f) (ha : Awaited s.zem f) :
    ¬ Deadlock (.code .finished) f := by
  intro hdead
  cases h with
  | permit hdata hzem hall =>
    have hwho := hall (who m)
    generalize hx : f (who m) = x at hwho
    cases hwho with
    | top => cases hdead.finished hx
    | loop => cases hdead.finished hx
    | asleep =>
      have hwoken := ha.woken _ _ _ hx
      rw [hzem, if_pos rfl] at hwoken
      have hpos : 0 < woken (own (who m)) f := by omega
      obtain ⟨u, hu⟩ := count_pos.1 hpos
      obtain ⟨q, hu⟩ := woken_iff.1 hu
      cases hdead.finished hu
    | finished heq =>
      -- then everybody has had all turns
      obtain ⟨t, ht⟩ := hdead.1
      have hle := turns_who_le t m
      have hwaits := hall t
      generalize hx : f t = x at hwaits
      cases hwaits with
      | top => cases hdead.finished hx
      | loop => cases hdead.finished hx
      | asleep hlt => omega
      | finished => exact ht hx
  | print hdata hzem hlt hwho => cases hdead.finished hwho
  | up hdata hzem hlt hwho => cases hdead.finished hwho

/-- A thread that is not asleep can take a turn until it is finished. -/
theorem code_ne_nil (hp : p ≠ .code .finished) : (justprint n).code t p s ≠ [] := by
  cases p with
  | loop i q => exact List.cons_ne_nil _ _
  | code q =>
    cases q with
    | top i =>
      rw [Program.code, justprint]
      split <;> exact List.cons_ne_nil _ _
    | print i => exact List.cons_ne_nil _ _
    | up i => exact List.cons_ne_nil _ _
    | finished => exact absurd rfl hp

/-- When all threads are finished, each has had all its turns. -/
theorem count_of_finished (h : Turn n m s f) (hall : ∀ t, f t = .run (.code .finished)) (t : Fin 3) :
    s.data.count t = n := by
  cases h with
  | permit hdata hzem hwaits =>
    have ht := hwaits t
    rw [hall t] at ht
    cases ht with
    | finished heq => rw [hdata, count_order, heq]
  | print hdata hzem hlt hwho => rw [hall] at hwho; cases hwho
  | up hdata hzem hlt hwho => rw [hall] at hwho; cases hwho

/-! ## How long runs are -/

/-- What is left to do at a place: five steps for each round, one of them for the wake-up that it
sends. -/
def todo (n : ℕ) : Place Zem Loc → ℕ
  | .code (.top i) => 5 * (n - i) + 1
  | .loop _ (.print i) => 5 * (n - i) + 1
  | .code (.print i) => 5 * (n - i) - 1
  | .code (.up i) => 5 * (n - i) - 2
  | _ => 0

def rank (n : ℕ) : Thread Zem (Place Zem Loc) → ℕ
  | .run p => todo n p
  | .asleep _ p => todo n p - 1

/-- The places in rounds that are not over. -/
inductive Round (n : ℕ) : Place Zem Loc → Prop
  | top (i) : Round n (.code (.top i))
  | loop (c i) : Round n (.loop c (.print i))
  | print {i} : i < n → Round n (.code (.print i))
  | up {i} : i < n → Round n (.code (.up i))
  | finished : Round n (.code .finished)

theorem Waits.round (h : Waits n m t (.run p)) : Round n p := by
  cases h with
  | top => exact .top _
  | loop => exact .loop _ _
  | finished => exact .finished

theorem Turn.round (h : Turn n m s f) (ht : f t = .run p) : Round n p := by
  have hother : Waits n m t (f t) → Round n p := by
    rw [ht]
    exact Waits.round
  cases h with
  | permit _ _ hall => exact hother (hall t)
  | print _ _ hlt hwho hothers =>
    by_cases htm : t = who m
    · rw [htm, hwho] at ht
      cases ht
      exact .print hlt
    · exact hother (hothers t htm)
  | up _ _ hlt hwho hothers =>
    by_cases htm : t = who m
    · rw [htm, hwho] at ht
      cases ht
      exact .up hlt
    · exact hother (hothers t htm)

/-- A turn leaves less to do, also for the thread that it wakes. -/
theorem rank_turn (hp : Round n p) (ho : o ∈ (justprint n).code t p s) :
    rank n o.thread + o.wakes.length + 1 ≤ todo n p := by
  have hdown : ∀ c i, o = zem_down s c (.print i) → rank n o.thread + o.wakes.length + 1 ≤
      5 * (n - i) + 1 := by
    rintro c i rfl
    rw [zem_down]
    split
    · simp only [rank, todo, List.length_nil]
      omega
    · simp only [rank, todo, List.length_nil]
      omega
  cases hp with
  | top i =>
    obtain ⟨a, ha, rfl⟩ := List.mem_map.1 ho
    rw [justprint] at ha
    split at ha
    · obtain rfl := List.mem_singleton.1 ha
      exact hdown _ i rfl
    · obtain rfl := List.mem_singleton.1 ha
      simp [Action.run, rank, todo]
  | loop c i => exact hdown c i (List.mem_singleton.1 ho)
  | print hlt =>
    obtain rfl := List.mem_singleton.1 ho
    simp only [Action.run, rank, todo, List.length_nil]
    omega
  | up hlt =>
    obtain rfl := List.mem_singleton.1 ho
    simp only [Action.run, zem_up, rank, todo, List.length_singleton]
    omega
  | finished => exact absurd ho List.not_mem_nil

theorem not_broadcast (ho : o ∈ (justprint n).code t p s) (c : Zem) : .broadcast c ∉ o.wakes := by
  rcases code_cases ho with ⟨i, q, -, rfl⟩ | ⟨i, q, q', -, -, rfl⟩ | ⟨d, q, q', -, -, rfl⟩
  · rw [zem_down]
    split <;> exact List.not_mem_nil
  · intro hmem
    cases List.mem_singleton.1 hmem
  · exact List.not_mem_nil

/-- Without spurious wake-ups, each step of a run leaves less to do. -/
theorem length_add_total_le {tr : List (Label (Fin 3))} {s : State}
    (h : (printers n False).Run tr s) : tr.length + total (rank n) s.thread ≤ 15 * n + 3 := by
  refine (h.invariant (I := fun tr s => (printers n False).Reachable s ∧
    tr.length + total (rank n) s.thread ≤ 15 * n + 3) ?_ ?_).2
  · intro s hs
    refine ⟨.init hs, ?_⟩
    obtain ⟨-, hstart⟩ := hs
    simp only [total, hstart, rank, todo, Finset.sum_const, Finset.card_univ, Fintype.card_fin,
      List.length_nil, smul_eq_mul]
    omega
  · rintro tr s l s' ⟨hs, hle⟩ hstep
    refine ⟨hs.step hstep, ?_⟩
    cases hstep with
    | @turn t p o g ht ho hw =>
      obtain ⟨m, hm⟩ := turn_of_reachable hs
      have hrank := rank_turn (hm.round ht) ho
      have hwake := hw.total_le (r := rank n) (fun c p => by simp only [rank]; omega)
        (not_broadcast ho)
      have htotal := total_update (rank n) g t o.thread
      have hrun : rank n (g t) = todo n p := by rw [hw.run ht]; rfl
      simp only [List.length_append, List.length_singleton]
      omega
    | spurious hno => exact hno.elim

/-- In every run the threads print a prefix of 0, 1, 2, 0, 1, 2, …, there is no deadlock, the run
is bounded if no thread wakes up for nothing, and where it cannot go on each thread has printed
`NUM_ITER` times. -/
theorem print_in_turn (NUM_ITER : ℕ) (spurious : Prop) {tr : List (Label (Fin 3))} {s : State}
    (h : (printers NUM_ITER spurious).Run tr s) :
    (∃ m, s.shared.data = order m) ∧ ¬ Deadlock (.code .finished) s.thread ∧
      (¬ spurious → tr.length ≤ 15 * NUM_ITER + 3) ∧
      ((∀ l s', ¬ (printers NUM_ITER spurious).step s l s') →
        ∀ t, s.shared.data.count t = NUM_ITER) := by
  have hs : (printers NUM_ITER spurious).Reachable s := ⟨tr, h⟩
  obtain ⟨m, hm⟩ := turn_of_reachable hs
  have hvalue : ∀ i, 0 ≤ value i := by
    intro i
    cases i <;> decide
  have hdead := not_deadlock hm (contract_of_reachable hvalue hs).2
  refine ⟨?_, hdead, ?_, ?_⟩
  · cases hm with
    | permit hdata => exact ⟨m, hdata⟩
    | print hdata => exact ⟨m, hdata⟩
    | up hdata => exact ⟨m + 1, hdata⟩
  · intro hno
    rw [eq_false hno] at h
    have hle := length_add_total_le h
    omega
  · intro hstuck
    exact count_of_finished hm (finished_of_stuck (fun _ _ _ => code_ne_nil) hstuck hdead)

/-- Thread 1 waits for its turn, and thread 0 prints. -/
theorem print_in_turn_start : ∃ s : State, s.shared.data = [0] ∧ ∃ m, s.shared.data = order m := by
  have h₀ : (printers 1 False).Run [] ⟨⟨fun i => zem_init (value i), [], []⟩,
      fun _ => .run (.code (.top 0))⟩ := .init ⟨rfl, fun _ => rfl⟩
  have h₁ := h₀.step (.turn (t := 1) (o := ⟨_, [], .asleep .first (.loop .first (.print 0))⟩) rfl
    List.mem_cons_self .nil)
  have h₂ := h₁.step (.turn (t := 0) (o := ⟨_, [], .run (.code (.print 0))⟩) rfl
    List.mem_cons_self .nil)
  have h₃ := h₂.step (.turn (t := 0) rfl List.mem_cons_self .nil)
  exact ⟨_, rfl, (print_in_turn 1 False h₃).1⟩

end Zemaphore

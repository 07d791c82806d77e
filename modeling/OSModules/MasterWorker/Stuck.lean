/-
  Runs of masters and workers into a deadlock. Between their rounds, some threads sleep and the
  others test whether there is something left.
-/
import OSModules.MasterWorker.Deadlock

namespace MasterWorker

open Runs Monitor

variable {T : Type} [DecidableEq T] {a : Args} {role : T → Role} {s s' : Shared T}
  {f g : T → Thread Cond Loc} {F : Finset T} {t u : T}

/-- Some run leads to these globals and places. -/
def Reach (a : Args) (role : T → Role) (s : Shared T) (f : T → Thread Cond Loc) : Prop :=
  (threads a role False).Reachable ⟨s, f⟩

theorem Reach.move (h : Reach a role s f) (hmove : Move a role t s f s' g) : Reach a role s' g :=
  Reachable.move h hmove

/-- The threads of `F` sleep, and the others test whether there is something left. -/
def sleeping (role : T → Role) (F : Finset T) (t : T) : Thread Cond Loc :=
  if t ∈ F then .asleep (role t).cond .loop else .run .test

theorem sleeping_of_mem (ht : t ∈ F) : sleeping role F t = .asleep (role t).cond .loop := if_pos ht

theorem sleeping_of_notMem (ht : t ∉ F) : sleeping role F t = .run .test := if_neg ht

theorem asleep_sleeping : Asleep (sleeping role F t) ↔ t ∈ F := by
  by_cases ht : t ∈ F
  · simp [sleeping_of_mem ht, ht]
  · simp [sleeping_of_notMem ht, ht]

theorem update_sleeping_insert :
    Function.update (sleeping role F) t (.asleep (role t).cond .loop) =
      sleeping role (insert t F) := by
  ext1 u
  by_cases hut : u = t
  · subst hut
    rw [Function.update_self, sleeping_of_mem (Finset.mem_insert_self u F)]
  · simp only [Function.update_of_ne hut, sleeping, Finset.mem_insert, hut, false_or]

theorem update_sleeping_erase :
    Function.update (sleeping role F) t (.run .test) = sleeping role (F.erase t) := by
  ext1 u
  by_cases hut : u = t
  · subst hut
    rw [Function.update_self, sleeping_of_notMem (Finset.notMem_erase u F)]
  · simp only [Function.update_of_ne hut, sleeping, Finset.mem_erase, ne_eq, hut, not_false_eq_true,
      true_and]

omit [DecidableEq T] in
theorem ne_of_other (h : role u = (role t).other) : u ≠ t := by
  rintro rfl
  revert h
  cases role u <;> decide

/-- A thread goes to its section. -/
theorem Reach.enter (h : Reach a role s (sleeping role F)) (ht : t ∉ F)
    (hleft : Left a s (role t)) :
    Reach a role s (Function.update (sleeping role F) t (.run .enter)) :=
  h.move (.enter (sleeping_of_notMem ht) hleft)

/-- A thread that cannot act goes to sleep. -/
theorem Reach.sleep (h : Reach a role s (sleeping role F)) (ht : t ∉ F)
    (hleft : Left a s (role t)) (hblocked : Blocked a s (role t)) :
    Reach a role s (sleeping role (insert t F)) := by
  have hwait := (h.enter ht hleft).move (.wait (Or.inl (Function.update_self _ _ _)) hblocked)
  rwa [Function.update_idem, update_sleeping_insert] at hwait

/-- A thread acts, and is about to signal. -/
theorem Reach.act (h : Reach a role s (sleeping role F)) (ht : t ∉ F)
    (hleft : Left a s (role t)) (hgo : ¬ Blocked a s (role t)) :
    Reach a role ((role t).act a t s) (Function.update (sleeping role F) t (.run .signal)) := by
  have hact := (h.enter ht hleft).move (.act (Or.inl (Function.update_self _ _ _)) hgo)
  rwa [Function.update_idem] at hact

/-- The signal of a thread is lost if nobody sleeps who could be signalled. -/
theorem Reach.signal (h : Reach a role s (Function.update (sleeping role F) t (.run .signal)))
    (hno : ∀ u ∈ F, role u ≠ (role t).other) : Reach a role s (sleeping role (F.erase t)) := by
  have hlost := h.move (.lost (t := t) (Function.update_self _ _ _) ?_)
  · rwa [Function.update_idem, update_sleeping_erase] at hlost
  · intro u hu
    rw [Function.update_of_ne (ne_of_other hu), asleep_sleeping]
    exact fun hmem => hno u hmem hu

/-- A thread acts, and nobody sleeps who could be signalled. -/
theorem Reach.act_lost (h : Reach a role s (sleeping role F)) (ht : t ∉ F)
    (hleft : Left a s (role t)) (hgo : ¬ Blocked a s (role t))
    (hno : ∀ u ∈ F, role u ≠ (role t).other) :
    Reach a role ((role t).act a t s) (sleeping role F) := by
  have hlost := (h.act ht hleft hgo).signal hno
  rwa [Finset.erase_eq_of_notMem ht] at hlost

/-- A thread acts and wakes a sleeper, which acts in turn; the sleeper's signal is lost. -/
theorem Reach.act_wake (h : Reach a role s (sleeping role F)) (ht : t ∉ F)
    (hleft : Left a s (role t)) (hgo : ¬ Blocked a s (role t)) (hu : u ∈ F)
    (hF : ∀ v ∈ F, role v = (role t).other) (hgo' : ¬ Blocked a ((role t).act a t s) (role u)) :
    Reach a role ((role u).act a u ((role t).act a t s)) (sleeping role (F.erase u)) := by
  have hut : u ≠ t := ne_of_other (hF u hu)
  have htest : sleeping role F t = .run .test := sleeping_of_notMem ht
  have hwake := (h.act ht hleft hgo).move (.wake (u := u) (Function.update_self _ _ _) (hF u hu) (by
    rw [Function.update_of_ne hut, sleeping_of_mem hu]))
  have hact := hwake.move (.act (t := u) (Or.inr (by
    rw [Function.update_of_ne hut, Function.update_self])) hgo')
  -- all but the woken thread are where they were
  have hback : Function.update (Function.update (Function.update (Function.update (sleeping role F) t
      (.run .signal)) u (.run .loop)) t (.run .test)) u (.run .signal) =
      Function.update (sleeping role F) u (.run .signal) := by
    rw [Function.update_comm hut, Function.update_idem, Function.update_idem,
      ← htest, Function.update_eq_self]
  rw [hback] at hact
  refine hact.signal fun v hv => ?_
  rw [hF v hv, hF u hu]
  cases role t <;> decide

/-! ## The end of a run -/

/-- The threads of `F` sleep, those of `G` are finished. -/
def stopped (role : T → Role) (F G : Finset T) (t : T) : Thread Cond Loc :=
  if t ∈ G then .run .finished else sleeping role F t

/-- When nothing is left, the threads that do not sleep finish. -/
theorem Reach.stop (h : Reach a role s (sleeping role F)) (hend : ∀ r, ¬ Left a s r)
    {G : Finset T} (hG : Disjoint G F) : Reach a role s (stopped role F G) := by
  induction G using Finset.induction_on with
  | empty => exact h
  | insert t G ht ih =>
    rw [Finset.disjoint_insert_left] at hG
    have htest : stopped role F G t = .run .test := by
      rw [stopped, if_neg ht, sleeping_of_notMem hG.1]
    have hfinish := (ih hG.2).move (.finish htest (hend _))
    convert hfinish using 1
    ext1 u
    by_cases hut : u = t
    · subst hut
      rw [Function.update_self, stopped, if_pos (Finset.mem_insert_self u G)]
    · rw [Function.update_of_ne hut, stopped, stopped]
      simp only [Finset.mem_insert, hut, false_or]

/-- A thread that sleeps when nothing is left sleeps forever. -/
theorem Reach.deadlock [Fintype T] (h : Reach a role s (sleeping role F))
    (hend : ∀ r, ¬ Left a s r) (hF : F.Nonempty) :
    ∃ s, (threads a role False).Reachable s ∧ Deadlock .finished s.thread := by
  refine ⟨_, h.stop hend (disjoint_compl_left (a := F)), ?_, ?_⟩
  · obtain ⟨t, ht⟩ := hF
    refine ⟨t, ?_⟩
    change stopped role F Fᶜ t ≠ _
    rw [stopped, if_neg (by simpa using ht), sleeping_of_mem ht]
    exact nofun
  · intro t ht
    by_cases hmem : t ∈ F
    · refine ⟨(role t).cond, .loop, ?_⟩
      change stopped role F Fᶜ t = _
      rw [stopped, if_neg (by simpa using hmem), sleeping_of_mem hmem]
    · exact absurd (if_pos (by simpa using hmem)) ht

/-! ## Two workers -/

theorem Reach.curr (h : Reach a role s f) :
    s.curr_buf_size = s.item_to_produce - s.item_to_consume := (counters_of_reachable h).curr

theorem Reach.init : Reach a role ⟨0, 0, 0, 0, 0, fun _ => 0, []⟩ (sleeping role ∅) :=
  LTS.Reachable.init ⟨⟨_, rfl⟩, fun _ => rfl⟩

variable {m b c w : T}

/-- One worker sleeps, while a master and another worker handle one item after the other. -/
theorem worker_sleeps (hm : role m = .master) (hb : role b = .worker) (hc : role c = .worker)
    (hbc : b ≠ c) (hpos : 0 < a.total_items) (n : ℕ) (hn : n ≤ a.total_items) :
    ∃ s, Reach a role s (sleeping role {c}) ∧ s.item_to_produce = n ∧ s.item_to_consume = n := by
  induction n with
  | zero =>
    refine ⟨_, Reach.init.sleep (Finset.notMem_empty c) ?_ ?_, rfl, rfl⟩
    · rw [hc]
      exact hpos
    · rw [hc]
      exact ⟨rfl, hpos⟩
  | succ n ih =>
    obtain ⟨s, h, hproduce, hconsume⟩ := ih (by omega)
    have hcurr := h.curr
    have hmax := a.pos
    have hb' : b ∉ ({c} : Finset T) := by simpa using hbc
    have hmaster : ∀ u ∈ ({b, c} : Finset T), role u = (role m).other := by
      intro u hu
      rw [hm]
      rcases Finset.mem_insert.1 hu with rfl | hu
      · exact hb
      · rw [Finset.mem_singleton.1 hu]
        exact hc
    have hm' : m ∉ ({b, c} : Finset T) := fun hu => ne_of_other (hmaster m hu) rfl
    -- the other worker sleeps, until the master wakes it
    have hsleep := h.sleep hb' (by rw [hb]; simp only [Left]; omega)
      (by rw [hb]; simp only [Blocked]; omega)
    have hwake := hsleep.act_wake hm' (by rw [hm]; simp only [Left]; omega)
      (by rw [hm]; simp only [Blocked]; omega) (Finset.mem_insert_self b {c}) hmaster
      (by rw [hm, hb]; simp only [Blocked, Role.act, store]; omega)
    rw [Finset.erase_insert hb', hm, hb] at hwake
    exact ⟨_, hwake, congrArg (· + 1) hproduce, congrArg (· + 1) hconsume⟩

/-- Of two workers, one can be left asleep. -/
theorem deadlock_of_workers [Fintype T] (hm : role m = .master) (hb : role b = .worker)
    (hc : role c = .worker) (hbc : b ≠ c) (hpos : 0 < a.total_items) :
    ∃ s, (threads a role False).Reachable s ∧ Deadlock .finished s.thread := by
  obtain ⟨s, h, hproduce, hconsume⟩ := worker_sleeps hm hb hc hbc hpos a.total_items.toNat (by omega)
  refine h.deadlock ?_ (Finset.singleton_nonempty c)
  rintro (_ | _)
  · simp only [Left]
    omega
  · simp only [Left]
    omega

/-! ## Masters for more than the buffer -/

/-- A master fills the buffer. -/
theorem fill (hm : role m = .master) (hmore : a.max_buf_size < a.total_items) (n : ℕ)
    (hn : n ≤ a.max_buf_size) :
    ∃ s, Reach a role s (sleeping role ∅) ∧ s.item_to_produce = n ∧ s.item_to_consume = 0 := by
  induction n with
  | zero => exact ⟨_, Reach.init, rfl, rfl⟩
  | succ n ih =>
    obtain ⟨s, h, hproduce, hconsume⟩ := ih (by omega)
    have hcurr := h.curr
    have hstore := h.act_lost (Finset.notMem_empty m) (by rw [hm]; simp only [Left]; omega)
      (by rw [hm]; simp only [Blocked]; omega) (fun u hu => absurd hu (Finset.notMem_empty u))
    rw [hm] at hstore
    exact ⟨_, hstore, congrArg (· + 1) hproduce, hconsume⟩

/-- When the buffer is full, masters go to sleep. -/
theorem Reach.masters_sleep (h : Reach a role s (sleeping role ∅))
    (hfull : s.curr_buf_size = a.max_buf_size) (hleft : s.item_to_produce < a.total_items)
    (hF : ∀ t ∈ F, role t = .master) : Reach a role s (sleeping role F) := by
  induction F using Finset.induction_on with
  | empty => exact h
  | insert t F ht ih =>
    have hmaster := hF t (Finset.mem_insert_self t F)
    refine (ih fun u hu => hF u (Finset.mem_insert_of_mem hu)).sleep ht ?_ ?_
    · rw [hmaster]
      exact hleft
    · rw [hmaster]
      exact ⟨hfull, hleft⟩

/-- A worker takes an item and wakes a master, which stores another. -/
theorem Reach.swap (h : Reach a role s (sleeping role F)) (hw : role w = .worker)
    (hF : ∀ t ∈ F, role t = .master) (hm : m ∈ F) (hleft : s.item_to_consume < a.total_items)
    (hitem : s.curr_buf_size ≠ 0)
    (hroom : s.curr_buf_size ≤ a.max_buf_size ∨ a.total_items ≤ s.item_to_produce) :
    ∃ s', Reach a role s' (sleeping role (F.erase m)) ∧
      s'.item_to_produce = s.item_to_produce + 1 ∧ s'.item_to_consume = s.item_to_consume + 1 := by
  have hother : ∀ t ∈ F, role t = (role w).other := by
    rw [hw]
    exact hF
  have hw' : w ∉ F := fun hu => ne_of_other (hother w hu) rfl
  have hwake := h.act_wake hw' (by rw [hw]; exact hleft) (by rw [hw]; exact fun hb => hitem hb.1) hm
    hother (by rw [hw, hF m hm]; simp only [Blocked, Role.act, take]; omega)
  rw [hw, hF m hm] at hwake
  exact ⟨_, hwake, rfl, rfl⟩

/-- All masters sleep at a full buffer, from round to round. -/
theorem Reach.rounds (h : Reach a role s (sleeping role F)) (hw : role w = .worker)
    (hF : ∀ t ∈ F, role t = .master) (hm : m ∈ F) (hproduce : s.item_to_produce = a.max_buf_size)
    (hconsume : s.item_to_consume = 0) (n : ℕ) (hn : a.max_buf_size + n < a.total_items) :
    ∃ s, Reach a role s (sleeping role F) ∧ s.item_to_produce = a.max_buf_size + n ∧
      s.item_to_consume = n := by
  induction n with
  | zero => exact ⟨s, h, hproduce, hconsume⟩
  | succ n ih =>
    obtain ⟨s, h, hproduce, hconsume⟩ := ih (by omega)
    have hcurr := h.curr
    have hmax := a.pos
    obtain ⟨s', h', hproduce', hconsume'⟩ := h.swap hw hF hm (by omega) (by omega) (by omega)
    have hcurr' := h'.curr
    have hsleep := h'.sleep (Finset.notMem_erase m F) (by rw [hF m hm]; simp only [Left]; omega)
      (by rw [hF m hm]; simp only [Blocked]; omega)
    rw [Finset.insert_erase hm] at hsleep
    exact ⟨s', hsleep, by omega, by omega⟩

/-- When the production is over, each item that is left wakes one master. -/
theorem Reach.drain [Fintype T] (hw : role w = .worker) (n : ℕ) (h : Reach a role s (sleeping role F))
    (hF : ∀ t ∈ F, role t = .master) (hcard : n < F.card)
    (hproduce : a.total_items ≤ s.item_to_produce)
    (hconsume : s.item_to_consume + n = a.total_items) :
    ∃ s, (threads a role False).Reachable s ∧ Deadlock .finished s.thread := by
  induction n generalizing s F with
  | zero =>
    refine h.deadlock ?_ (Finset.card_pos.1 hcard)
    rintro (_ | _)
    · simp only [Left]
      omega
    · simp only [Left]
      omega
  | succ n ih =>
    obtain ⟨m, hm⟩ := Finset.card_pos.1 (Nat.zero_lt_of_lt hcard)
    have hcurr := h.curr
    obtain ⟨s', h', hproduce', hconsume'⟩ := h.swap hw hF hm (by omega) (by omega) (by omega)
    refine ih h' (fun t ht => hF t (Finset.mem_of_mem_erase ht)) ?_ (by omega) (by omega)
    rw [Finset.card_erase_of_mem hm]
    omega

/-- Of more masters than one for each slot and one more, one can be left asleep. -/
theorem deadlock_of_masters [Fintype T] (hw : role w = .worker)
    (hmore : a.max_buf_size < a.total_items) (hmany : a.max_buf_size + 1 < number role .master) :
    ∃ s, (threads a role False).Reachable s ∧ Deadlock .finished s.thread := by
  have hF : ∀ t ∈ Finset.univ.filter fun t => role t = .master, role t = .master :=
    fun t ht => (Finset.mem_filter.1 ht).2
  obtain ⟨m, hm⟩ := Finset.card_pos.1 (Nat.zero_lt_of_lt hmany)
  obtain ⟨s, h, hproduce, hconsume⟩ := fill (hF m hm) hmore a.max_buf_size le_rfl
  have hcurr := h.curr
  have hmax := a.pos
  obtain ⟨s, h, hproduce, hconsume⟩ := (h.masters_sleep (by omega) (by omega) hF).rounds hw hF hm
    hproduce hconsume (a.total_items - a.max_buf_size - 1).toNat (by omega)
  have hcurr := h.curr
  obtain ⟨s', h', hproduce', hconsume'⟩ := h.swap hw hF hm (by omega) (by omega) (by omega)
  refine h'.drain hw a.max_buf_size (fun t ht => hF t (Finset.mem_of_mem_erase ht)) ?_ (by omega)
    (by omega)
  rw [Finset.card_erase_of_mem hm]
  rw [number] at hmany
  omega

/-! ## When there is no deadlock -/

end MasterWorker

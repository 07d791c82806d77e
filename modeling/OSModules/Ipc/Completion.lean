/-
  The producer and the consumer over the shared memory run to their ends.  The busy wait is the
  only step that may be taken again and again; all other steps advance one of the processes.

  `exchange_completes`: a run has at most 12002 steps besides the turns of the busy wait, some
  process can take such a step until both have closed the pipe, and then every string was
  printed by both.
-/
import OSModules.Ipc.SharedMemory

namespace SharedMemory

open Runs

/-- A turn of the producer's busy wait. -/
def Spins (s : Shm) : Role → Prop
  | .producer => s.prod.place = .wait ∧ s.slot s.prod.itr ≠ free_str
  | .consumer => False

instance (s : Shm) (r : Role) : Decidable (Spins s r) :=
  match r with
  | .producer => inferInstanceAs (Decidable (_ ∧ _))
  | .consumer => inferInstanceAs (Decidable False)

/-- How many steps the producer has taken, but for the busy wait: seven for a string. -/
def Process.prodSteps (p : Process Prod.Place) : ℕ :=
  match p.place with
  | .loop => 7 * p.cnt
  | .wait | .closed => 7 * p.cnt + 1
  | .check => 7 * p.cnt + 2
  | .put => 7 * p.cnt + 3
  | .print => 7 * p.cnt + 4
  | .send => 7 * p.cnt + 5
  | .next => 7 * p.cnt + 6

/-- How many steps the consumer has taken: five for a string. -/
def Process.consSteps (c : Process Cons.Place) : ℕ :=
  match c.place with
  | .loop => 5 * c.cnt
  | .receive | .closed => 5 * c.cnt + 1
  | .print => 5 * c.cnt + 2
  | .free => 5 * c.cnt + 3
  | .sleep => 5 * c.cnt + 4

/-- How many strings the producer has printed. -/
def Process.said (p : Process Prod.Place) : ℕ :=
  if p.place = .send ∨ p.place = .next then p.cnt + 1 else p.cnt

/-! ## Every step but the busy wait advances a process -/

theorem producer_steps {s s' : Shm} (hI : Inv s) (h : producer s = some s') :
    s'.prod.prodSteps = s.prod.prodSteps + (if Spins s .producer then 0 else 1) ∧
      s'.cons = s.cons := by
  rcases hp : s.prod.place <;> simp only [producer, hp] at h
  case loop =>
    split_ifs at h <;> cases h <;> simp [Process.prodSteps, Spins, hp]
  case wait =>
    split_ifs at h with hf <;> cases h
    · simp [Spins, hp, hf]
    · simp [Process.prodSteps, Spins, hp, hf]
  case check =>
    -- the `if` never fails after the busy wait
    rw [if_pos (hI.checked (Or.inl hp))] at h
    cases h
    simp [Process.prodSteps, Spins, hp]
  case next =>
    cases h
    simp only [Process.prodSteps, Spins, hp, reduceCtorEq, false_and, if_false, and_true]
    omega
  case closed => exact absurd h (by simp)
  all_goals
    cases h
    simp [Process.prodSteps, Spins, hp]

theorem consumer_steps {s s' : Shm} (h : consumer s = some s') :
    s'.cons.consSteps = s.cons.consSteps + 1 ∧ s'.prod = s.prod := by
  rcases hc : s.cons.place <;> simp only [consumer, hc] at h
  case loop =>
    split_ifs at h <;> cases h <;> simp [Process.consSteps, hc]
  case receive =>
    rcases hpipe : s.pipe with _ | ⟨itr, rest⟩ <;> simp only [hpipe] at h
    · split_ifs at h
      cases h
      simp [Process.consSteps, hc]
    · cases h
      simp [Process.consSteps, hc]
  case sleep =>
    cases h
    simp only [Process.consSteps, hc, and_true]
    omega
  case closed => exact absurd h (by simp)
  all_goals
    cases h
    simp [Process.consSteps, hc]

/-- The steps of a run that are not turns of the busy wait. -/
theorem steps_eq {xs : List (Shm × Role)} {s : Shm} (h : shm.Exec xs s) :
    s.prod.prodSteps + s.cons.consSteps = xs.countP fun p => ¬ Spins p.1 p.2 := by
  refine LTS.Exec.countP_eq (f := fun s => s.prod.prodSteps + s.cons.consSteps)
    (P := fun p => ¬ Spins p.1 p.2) ?_ ?_ h
  · rintro s ⟨-, -, hprod, itr, hcons⟩
    simp [hprod, hcons, Process.prodSteps, Process.consSteps]
  · intro s r s' hr hs
    cases r with
    | producer =>
      obtain ⟨hsteps, hcons⟩ := producer_steps (inv_of_reachable hr) hs
      simp only [hsteps, hcons, ite_not]
      omega
    | consumer =>
      obtain ⟨hsteps, hprod⟩ := consumer_steps hs
      have hno : ¬ Spins s .consumer := not_false
      simp only [hsteps, hprod, if_pos hno]
      omega

theorem Process.ProdOk.steps_le {p : Process Prod.Place} (h : p.ProdOk) :
    p.prodSteps ≤ 7001 ∧ (p.prodSteps = 7001 ↔ p.place = .closed) := by
  unfold Process.ProdOk at h
  rcases hp : p.place <;> simp only [hp] at h <;>
    simp only [Process.prodSteps, hp, reduceCtorEq, iff_false, iff_true] <;> omega

theorem Process.ConsOk.steps_le {c : Process Cons.Place} (h : c.ConsOk) :
    c.consSteps ≤ 5001 ∧ (c.consSteps = 5001 ↔ c.place = .closed) := by
  unfold Process.ConsOk at h
  rcases hc : c.place <;> simp only [hc] at h <;>
    simp only [Process.consSteps, hc, reduceCtorEq, iff_false, iff_true] <;> omega

/-! ## Some process can go on -/

/-- The consumer waits only for an empty pipe whose other end is open. -/
theorem consumer_moves {s : Shm} (hc : s.cons.place ≠ .closed)
    (hreceive : s.cons.place = .receive → s.pipe ≠ []) : ∃ s', consumer s = some s' := by
  rcases hp : s.cons.place <;> simp only [consumer, hp]
  case loop =>
    split_ifs <;> exact ⟨_, rfl⟩
  case receive =>
    rcases hpipe : s.pipe with _ | ⟨itr, rest⟩
    · exact absurd hpipe (hreceive hp)
    · exact ⟨_, rfl⟩
  case closed => exact absurd hp hc
  all_goals exact ⟨_, rfl⟩

/-- While the producer spins, the slot it waits for is with the consumer or in the pipe. -/
theorem Inv.consumer_of_spins {s : Shm} (hI : Inv s) (h : Spins s .producer) :
    ∃ s', consumer s = some s' := by
  obtain ⟨hp, hslot⟩ := h
  have hok := hI.prod
  simp only [Process.ProdOk, hp] at hok
  have hw : s.prod.written = s.prod.cnt := by simp [Process.written, hp]
  have hmem : s.prod.itr ∈ s.inFlight := by
    by_contra hno
    exact hslot (hI.free _ (by omega) hno)
  refine consumer_moves ?_ ?_
  · intro hc
    have hcons := hI.cons
    simp only [Process.ConsOk, hc] at hcons
    have hf : s.cons.freed = s.cons.cnt := by simp [Process.freed, hc]
    have horder := hI.order
    omega
  · intro hc hempty
    simp [Shm.inFlight, Process.held, Process.pending, hc, hp, hempty] at hmem

theorem Inv.moves {s : Shm} (hI : Inv s)
    (h : ¬ (s.prod.place = .closed ∧ s.cons.place = .closed)) :
    ∃ r s', ¬ Spins s r ∧ next r s = some s' := by
  by_cases hspin : Spins s .producer
  · obtain ⟨s', hs⟩ := hI.consumer_of_spins hspin
    exact ⟨.consumer, s', not_false, hs⟩
  · by_cases hp : s.prod.place = .closed
    · obtain ⟨s', hs⟩ := consumer_moves (fun hc => h ⟨hp, hc⟩)
        fun hc hempty => hI.not_closed hc hempty hp
      exact ⟨.consumer, s', not_false, hs⟩
    · refine ⟨.producer, ?_⟩
      suffices ∃ s', producer s = some s' from this.imp fun s' hs => ⟨hspin, hs⟩
      rcases hplace : s.prod.place <;> simp only [producer, hplace]
      case loop | wait | check =>
        split_ifs <;> exact ⟨_, rfl⟩
      case closed => exact absurd hplace hp
      all_goals exact ⟨_, rfl⟩

/-! ## What the producer prints -/

theorem producer_printed {s s' : Shm} (hI : Inv s) (h : producer s = some s')
    (hprinted : s.prod.printed = lines (· + 1) s.prod.said) :
    s'.prod.printed = lines (· + 1) s'.prod.said := by
  rcases hp : s.prod.place <;> simp only [producer, hp] at h
  case loop =>
    split_ifs at h <;> cases h <;> simpa [Process.said, hp] using hprinted
  case wait =>
    split_ifs at h <;> cases h
    · exact hprinted
    · simpa [Process.said, hp] using hprinted
  case check =>
    rw [if_pos (hI.checked (Or.inl hp))] at h
    cases h
    simpa [Process.said, hp] using hprinted
  case print =>
    cases h
    have hslot : s.slot s.prod.itr = str := hI.data _ (by simp [Shm.inFlight, Process.pending, hp])
    simp only [Process.said, hp, reduceCtorEq, or_self, if_false] at hprinted
    simp only [Process.said, true_or, if_true]
    rw [lines_succ, hprinted, hslot]
  case closed => exact absurd h (by simp)
  all_goals
    cases h
    simpa [Process.said, hp] using hprinted

theorem said_of_reachable {s : Shm} (h : shm.Reachable s) :
    s.prod.printed = lines (· + 1) s.prod.said := by
  refine h.induct (I := fun s => s.prod.printed = lines (· + 1) s.prod.said) ?_ ?_
  · rintro s ⟨-, -, hprod, -⟩
    simp [hprod, lines, Process.said]
  · intro s r s' hr ih hs
    cases r with
    | producer => exact producer_printed (inv_of_reachable hr) hs ih
    | consumer =>
      rw [(consumer_steps hs).2]
      exact ih

/-! ## Both processes end -/

/-- A run has at most 12002 steps besides the turns of the busy wait, and that many only where
both processes have closed the pipe. Before that one of them can take such a step; then both
have printed all strings, the pipe is empty and every slot is free again. -/
theorem exchange_completes {xs : List (Shm × Role)} {s : Shm} (h : shm.Exec xs s) :
    xs.countP (fun p => ¬ Spins p.1 p.2) ≤ 12002 ∧
    (xs.countP (fun p => ¬ Spins p.1 p.2) = 12002 ↔
      s.prod.place = .closed ∧ s.cons.place = .closed) ∧
    (¬ (s.prod.place = .closed ∧ s.cons.place = .closed) →
      ∃ r s', ¬ Spins s r ∧ shm.step s r s') ∧
    (s.prod.place = .closed ∧ s.cons.place = .closed →
      s.prod.printed = (List.range 1000).map (fun k => (str, k + 1)) ∧
      s.cons.printed = (List.range 1000).map (fun k => (str, k % 512)) ∧
      s.pipe = [] ∧ ∀ i < 512, s.slot i = free_str) := by
  have hI := inv_of_reachable h.reachable
  obtain ⟨hple, hpclosed⟩ := hI.prod.steps_le
  obtain ⟨hcle, hcclosed⟩ := hI.cons.steps_le
  have hcount := steps_eq h
  refine ⟨by omega, ?_, hI.moves, ?_⟩
  · rw [← hcount, ← hpclosed, ← hcclosed]
    omega
  · rintro ⟨hp, hc⟩
    have hprod := hI.prod
    have hcons := hI.cons
    simp only [Process.ProdOk, hp] at hprod
    simp only [Process.ConsOk, hc] at hcons
    have hflight := hI.flight
    have hw : s.prod.written = 1000 := by simp [Process.written, hp, hprod]
    have hf : s.cons.freed = 1000 := by simp [Process.freed, hc, hcons]
    rw [hw, hf, window_self] at hflight
    refine ⟨?_, ?_, ?_, fun i hi => hI.free i hi (by rw [hflight]; exact List.not_mem_nil)⟩
    · rw [said_of_reachable h.reachable]
      simp [Process.said, hp, hprod, lines]
    · rw [hI.printed]
      simp [Process.shown, hc, hcons, lines]
    · simpa [Shm.inFlight, Process.held, Process.pending, hc, hp] using hflight

/-- The producer has entered its loop, and the consumer waits for the pipe. -/
theorem exchange_completes_first : ∃ s : Shm, s.prod.place = .wait ∧ s.cons.place = .receive ∧
    ∃ r s', ¬ Spins s r ∧ shm.step s r s' := by
  have h₀ : shm.Exec [] start := .init ⟨fun _ _ => rfl, rfl, rfl, 0, rfl⟩
  have h₁ := h₀.step (show shm.step start .producer _ from rfl)
  have h₂ := h₁.step (show shm.step _ .consumer _ from rfl)
  exact ⟨_, rfl, rfl, (exchange_completes h₂).2.2.1 fun h => absurd h.1 (by decide)⟩

end SharedMemory

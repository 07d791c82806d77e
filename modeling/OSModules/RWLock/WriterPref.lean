/-
  `rwlock-writer-pref.cpp`: the lock that prefers writers, what its global
  `waiting_writers` counts, and why no wake-up of it is lost.
-/
import OSModules.RWLock.Wakeup

namespace RWLock.WriterPref

open Runs Monitor

/-- A lock and the global `waiting_writers`. -/
structure Shared where
  rw : read_write_lock
  waiting_writers : ℤ
  deriving DecidableEq

def InitalizeReadWriteLock (rw : read_write_lock) : read_write_lock := { rw with resource_cnt := 0 }

def ReaderLock (s : Shared) : Section Shared :=
  if s.rw.resource_cnt = -1 ∨ s.waiting_writers > 0 then wait s .read_phase
  else unlock { s with rw.resource_cnt := s.rw.resource_cnt + 1 } [] .holding

def ReaderUnlock (s : Shared) : Section Shared :=
  let s := { s with rw.resource_cnt := s.rw.resource_cnt - 1 }
  unlock s (if s.rw.resource_cnt = 0 then [.signal .write_phase] else []) .idle

/-- `WriterLock` from the test of its loop on. -/
def WriterLock_loop (s : Shared) : Section Shared :=
  if s.rw.resource_cnt ≠ 0 then wait s .write_phase
  else unlock { s with rw.resource_cnt := -1, waiting_writers := s.waiting_writers - 1 } [] .holding

def WriterLock (s : Shared) : Section Shared :=
  WriterLock_loop { s with waiting_writers := s.waiting_writers + 1 }

def WriterUnlock (s : Shared) : Section Shared :=
  let s := { s with rw.resource_cnt := 0 }
  unlock s (if s.waiting_writers > 0 then [.signal .write_phase] else [.broadcast .read_phase]) .idle

def functions : Functions Shared where
  Init s := (∃ rw₀, s.rw = InitalizeReadWriteLock rw₀) ∧ s.waiting_writers = 0
  Lock
    | .reader, s => ReaderLock s
    | .writer, s => WriterLock s
  Loop
    | .reader, s => ReaderLock s
    | .writer, s => WriterLock_loop s
  Unlock
    | .reader, s => ReaderUnlock s
    | .writer, s => WriterUnlock s

/-- The counter of the lock. -/
def cnt (s : Shared) : ℤ := s.rw.resource_cnt

/-- Writers queue. -/
def Queue (s : Shared) : Prop := 0 < s.waiting_writers

theorem admits_reader (s : Shared) : Admits cnt s .reader (ReaderLock s) := by
  rw [ReaderLock]
  split
  · exact .wait rfl
  · next hne => exact .reader (fun h => hne (Or.inl h)) rfl

theorem admits_writer {s s' : Shared} (hs : cnt s' = cnt s) :
    Admits cnt s .writer (WriterLock_loop s') := by
  rw [WriterLock_loop]
  split
  · exact .wait hs
  · next hne => exact .writer (hs ▸ not_not.1 hne) rfl

theorem guards : Guards cnt functions where
  init := by
    rintro s ⟨⟨rw₀, hrw⟩, -⟩
    rw [cnt, hrw]
    rfl
  lock r s := by
    cases r with
    | reader => exact admits_reader s
    | writer => exact admits_writer rfl
  loop r s := by
    cases r with
    | reader => exact admits_reader s
    | writer => exact admits_writer rfl
  unlock r s := by cases r <;> rfl
  unlock_reader s := rfl
  unlock_writer s := rfl

/-! ## No wake-up is lost -/

theorem queues_reader (s : Shared) : Queues cnt Queue s .reader (ReaderLock s) := by
  rw [ReaderLock]
  split
  · next h => exact ⟨rfl, fun _ _ => h, nofun, fun hq => Or.inl hq⟩
  · exact ⟨rfl, nofun, nofun, fun hq => Or.inl hq⟩

theorem queues_writer {s s' : Shared} (hs : s.waiting_writers ≤ s'.waiting_writers) :
    Queues cnt Queue s .writer (WriterLock_loop s') := by
  rw [WriterLock_loop]
  split
  · next h => exact ⟨rfl, nofun, fun _ => h, fun hq => Or.inl (lt_of_lt_of_le hq hs)⟩
  · exact ⟨rfl, nofun, fun _ => by simp only [unlock, cnt]; decide, fun _ => Or.inr ⟨rfl, rfl⟩⟩

theorem handsOver : HandsOver cnt Queue functions where
  lock r s := by
    cases r with
    | reader => exact queues_reader s
    | writer =>
      refine queues_writer ?_
      simp only
      omega
  loop r s := by
    cases r with
    | reader => exact queues_reader s
    | writer => exact queues_writer le_rfl
  last_reader s hcnt := by
    change s.rw.resource_cnt - 1 = 0 at hcnt
    change _ ∈ if s.rw.resource_cnt - 1 = 0 then _ else _
    rw [if_pos hcnt]
    exact List.mem_singleton.2 rfl
  reader_queue _ := id
  to_writer s := by
    change (_ ∈ if s.waiting_writers > 0 then _ else _) ∨ _
    split
    · exact Or.inl (List.mem_singleton.2 rfl)
    · next hno => exact Or.inr hno
  to_readers s := by
    change (_ ∈ if s.waiting_writers > 0 then _ else _) ∨ _
    split
    · next hq => exact Or.inr hq
    · exact Or.inl (List.mem_singleton.2 rfl)

/-! ## What `waiting_writers` counts -/

variable {T : Type} {role : T → Role} {spurious : Prop}

/-- A turn changes `waiting_writers` by what it changes the number of pending writers. -/
theorem waiting_writers_turn {t : T} {p : Loc} {s : Shared} {o : Section Shared}
    (ho : o ∈ client functions role t p s) :
    o.shared.waiting_writers + (if role t = .writer ∧ p = .loop then 1 else 0) =
      s.waiting_writers + if role t = .writer ∧
        (o.thread = .asleep .write_phase .loop ∨ o.thread = .run .loop) then 1 else 0 := by
  rcases client_cases ho with ⟨rfl, rfl⟩ | ⟨rfl, rfl⟩ | ⟨rfl, rfl⟩ | ⟨rfl, rfl⟩
  · cases hr : role t with
    | reader => simp only [functions, ReaderLock]; split <;> simp [wait, unlock]
    | writer =>
      simp only [functions, WriterLock, WriterLock_loop]
      split <;> simp [wait, unlock]
  · simp
  · cases hr : role t with
    | reader => simp only [functions, ReaderLock]; split <;> simp [wait, unlock]
    | writer => simp only [functions, WriterLock_loop]; split <;> simp [wait, unlock]
  · cases hr : role t with
    | reader => simp [functions, ReaderUnlock, unlock]
    | writer => simp [functions, WriterUnlock, unlock]

variable [DecidableEq T] [Fintype T] {s : Config T Shared Cond Loc} {f g : T → Thread Cond Loc}

/-- Writers that sleep, or that were woken and are not admitted yet. -/
def pending (role : T → Role) (f : T → Thread Cond Loc) : ℕ :=
  count (fun t x => role t = .writer ∧ (x = .asleep .write_phase .loop ∨ x = .run .loop)) f

/-- How a turn changes the number of pending writers. -/
theorem pending_turn (role : T → Role) {ws : List (Wake Cond)} (hw : Wakes ws f g)
    (hsleep : ∀ t c p, f t = .asleep c p → c = phase (role t) ∧ p = .loop) {t : T} {p : Loc}
    (ht : f t = .run p) (x : Thread Cond Loc) :
    pending role (Function.update g t x) + (if role t = .writer ∧ p = .loop then 1 else 0) =
      pending role f +
        if role t = .writer ∧ (x = .asleep .write_phase .loop ∨ x = .run .loop) then 1 else 0 := by
  have h := hw.count_update
    (q := fun t x => role t = .writer ∧ (x = .asleep .write_phase .loop ∨ x = .run .loop)) ?_ ht x
  · simpa only [pending, reduceCtorEq, false_or, Thread.run.injEq] using h
  · intro u c q hu
    obtain ⟨rfl, rfl⟩ := hsleep u c q hu
    cases hr : role u <;> simp [phase]

theorem waiting_writers_eq (hs : (threads functions role spurious).Reachable s) :
    s.shared.waiting_writers = pending role s.thread := by
  refine hs.induct
    (I := fun s : Config T Shared Cond Loc => s.shared.waiting_writers = pending role s.thread) ?_ ?_
  · rintro s ⟨⟨-, hzero⟩, hidle⟩
    have hpending : pending role s.thread = 0 := by
      rw [pending, count_eq_zero]
      rintro t ⟨-, ht⟩
      rw [hidle t] at ht
      rcases ht with ht | ht <;> cases ht
    rw [hzero, hpending]
    rfl
  · intro s l s' hreach ih hstep
    have hsleep : ∀ t c p, s.thread t = .asleep c p → c = phase (role t) ∧ p = .loop :=
      fun t c p ht => asleep_at_loop guards hreach ht
    cases hstep with
    | @turn t p o g ht ho hw =>
      have hp := pending_turn role hw hsleep ht o.thread
      have hww := waiting_writers_turn ho
      simp only
      split_ifs at hp hww <;> omega
    | @spurious t c p _ ht =>
      obtain ⟨rfl, rfl⟩ := hsleep t c p ht
      have hp := count_update
        (q := fun t x => role t = .writer ∧ (x = .asleep .write_phase .loop ∨ x = .run .loop))
        s.thread t (.run .loop)
      rw [ht] at hp
      simp only [ih]
      rw [pending, pending, Nat.cast_inj]
      cases hr : role t <;> simp [hr, phase] at hp <;> exact hp.symm

/-- While writers sleep or are woken and not admitted yet, they queue. -/
theorem queue_iff (hs : (threads functions role spurious).Reachable s) :
    Queue s.shared ↔ ∃ t, role t = .writer ∧
      (s.thread t = .asleep .write_phase .loop ∨ s.thread t = .run .loop) := by
  rw [Queue, waiting_writers_eq hs, Nat.cast_pos]
  exact count_pos

/-- A writer that sleeps is in the queue. -/
theorem queue_of_asleep (hs : (threads functions role spurious).Reachable s) {t : T} {p : Loc}
    (ht : s.thread t = .asleep .write_phase p) : Queue s.shared := by
  obtain ⟨hc, rfl⟩ := asleep_at_loop guards hs ht
  refine (queue_iff hs).2 ⟨t, ?_, Or.inl ht⟩
  cases hr : role t with
  | reader => rw [hr] at hc; cases hc
  | writer => rfl

theorem awaited (hs : (threads functions role spurious).Reachable s) :
    Awaited role (cnt s.shared) (Queue s.shared) s.thread :=
  awaited_of_reachable guards handsOver (fun _ hs _ _ ht => Or.inr (queue_of_asleep hs ht)) hs

/-- In every reachable state `waiting_writers` is the number of writers that sleep or were woken
and are not admitted yet, a sleeping reader waits for a writer that holds the lock or queues, and a
sleeping writer for a holder of the lock or for a woken writer; so there is no deadlock. -/
theorem waiting_writers_awaited (role : T → Role) (spurious : Prop)
    (hs : (threads functions role spurious).Reachable s) :
    s.shared.waiting_writers =
      count (fun t x => role t = .writer ∧ x = .asleep .write_phase .loop) s.thread +
        count (fun t x => role t = .writer ∧ x = .run .loop) s.thread ∧
    (∀ t c p, s.thread t = .asleep c p → c = phase (role t) ∧ p = .loop) ∧
    (∀ t p, s.thread t = .asleep .read_phase p →
      (∃ u, role u = .writer ∧ s.thread u = .run .holding) ∨ 0 < s.shared.waiting_writers) ∧
    (∀ t p, s.thread t = .asleep .write_phase p → s.shared.rw.resource_cnt = 0 →
      ∃ u, role u = .writer ∧ s.thread u = .run .loop) ∧
    ¬ Deadlock s.thread := by
  have hsleep : ∀ s, (threads functions role spurious).Reachable s → ∀ t c p,
      s.thread t = .asleep c p → c = phase (role t) ∧ p = .loop :=
    fun s hs t c p ht => asleep_at_loop guards hs ht
  have ha := awaited hs
  refine ⟨?_, hsleep s hs, ha.reader, ?_, not_deadlock (exclusive_of_reachable guards hs) ha ?_⟩
  · rw [waiting_writers_eq hs, ← Nat.cast_add, Nat.cast_inj]
    refine count_or (fun t => and_or_left) ?_
    rintro t ⟨-, ht⟩ ⟨-, ht'⟩
    rw [ht] at ht'
    cases ht'
  · intro t p ht hcnt
    exact (ha.writer t p ht).resolve_left fun hne => hne hcnt
  · intro hq
    obtain ⟨t, -, ht | ht⟩ := (queue_iff hs).1 hq
    · exact ⟨t, Or.inl ⟨_, ht⟩⟩
    · exact ⟨t, Or.inr ht⟩

/-- A reader that sleeps while a writer holds the lock. -/
theorem waiting_writers_awaited_sleeper : ∃ s : Config Bool Shared Cond Loc,
    s.thread true = .asleep .read_phase .loop ∧ s.shared.waiting_writers = 0 ∧
    ∃ u, s.thread u = .run .holding := by
  let role : Bool → Role := fun b => cond b .reader .writer
  have h₀ : (threads functions role False).Reachable ⟨⟨⟨0⟩, 0⟩, fun _ => .run .idle⟩ :=
    .init ⟨⟨⟨⟨0⟩, rfl⟩, rfl⟩, fun _ => rfl⟩
  have h₁ := h₀.step (.turn (t := false) rfl List.mem_cons_self .nil)
  have h₂ := h₁.step (.turn (t := true) rfl List.mem_cons_self .nil)
  obtain ⟨-, -, hreader, -, -⟩ := waiting_writers_awaited role False h₂
  obtain ⟨u, -, hu⟩ := (hreader true .loop rfl).resolve_right (by decide)
  exact ⟨_, rfl, rfl, u, hu⟩

end RWLock.WriterPref

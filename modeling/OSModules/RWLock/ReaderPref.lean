/-
  `rwlock-reader-pref.cpp`: the lock that prefers readers, and why no wake-up of it is
  lost.
-/
import OSModules.RWLock.Wakeup

namespace RWLock.ReaderPref

open Runs Monitor

def InitalizeReadWriteLock (rw : read_write_lock) : read_write_lock := { rw with resource_cnt := 0 }

def ReaderLock (rw : read_write_lock) : Section read_write_lock :=
  if rw.resource_cnt = -1 then wait rw .read_phase
  else unlock { rw with resource_cnt := rw.resource_cnt + 1 } [] .holding

def ReaderUnlock (rw : read_write_lock) : Section read_write_lock :=
  let rw := { rw with resource_cnt := rw.resource_cnt - 1 }
  unlock rw (if rw.resource_cnt = 0 then [.signal .write_phase] else []) .idle

def WriterLock (rw : read_write_lock) : Section read_write_lock :=
  if rw.resource_cnt ≠ 0 then wait rw .write_phase
  else unlock { rw with resource_cnt := -1 } [] .holding

def WriterUnlock (rw : read_write_lock) : Section read_write_lock :=
  unlock { rw with resource_cnt := 0 } [.broadcast .read_phase, .signal .write_phase] .idle

/-- The loops of `Lock` start at once, so a section after a wait is as the first one. -/
def functions : Functions read_write_lock where
  Init rw := ∃ rw₀, rw = InitalizeReadWriteLock rw₀
  Lock
    | .reader, rw => ReaderLock rw
    | .writer, rw => WriterLock rw
  Loop
    | .reader, rw => ReaderLock rw
    | .writer, rw => WriterLock rw
  Unlock
    | .reader, rw => ReaderUnlock rw
    | .writer, rw => WriterUnlock rw

theorem admits_lock (r : Role) (rw : read_write_lock) :
    Admits read_write_lock.resource_cnt rw r (functions.Lock r rw) := by
  cases r with
  | reader =>
    change Admits _ _ _ (ReaderLock rw)
    rw [ReaderLock]
    split
    · exact .wait rfl
    · next hne => exact .reader hne rfl
  | writer =>
    change Admits _ _ _ (WriterLock rw)
    rw [WriterLock]
    split
    · exact .wait rfl
    · next hne => exact .writer (not_not.1 hne) rfl

theorem guards : Guards read_write_lock.resource_cnt functions where
  init := by
    rintro rw ⟨rw₀, rfl⟩
    rfl
  lock := admits_lock
  loop r rw := by
    cases r
    · exact admits_lock .reader rw
    · exact admits_lock .writer rw
  unlock r rw := by cases r <;> rfl
  unlock_reader rw := rfl
  unlock_writer rw := rfl

/-! ## No wake-up is lost -/

theorem queues_lock (r : Role) (rw : read_write_lock) :
    Queues read_write_lock.resource_cnt (fun _ => False) rw r (functions.Lock r rw) := by
  cases r with
  | reader =>
    change Queues _ _ _ _ (ReaderLock rw)
    rw [ReaderLock]
    split
    · next hcnt => exact ⟨rfl, fun _ _ => Or.inl hcnt, nofun, nofun⟩
    · exact ⟨rfl, nofun, nofun, nofun⟩
  | writer =>
    change Queues _ _ _ _ (WriterLock rw)
    rw [WriterLock]
    split
    · next hcnt => exact ⟨rfl, nofun, fun _ => hcnt, nofun⟩
    · exact ⟨rfl, nofun, fun _ => by simp only [unlock]; decide, nofun⟩

/-- No writer holds readers up by waiting. -/
theorem handsOver : HandsOver read_write_lock.resource_cnt (fun _ => False) functions where
  lock := queues_lock
  loop r rw := by
    cases r
    · exact queues_lock .reader rw
    · exact queues_lock .writer rw
  last_reader rw hcnt := by
    change rw.resource_cnt - 1 = 0 at hcnt
    change _ ∈ if rw.resource_cnt - 1 = 0 then _ else _
    rw [if_pos hcnt]
    exact List.mem_singleton.2 rfl
  reader_queue _ := id
  to_writer _ := Or.inl (List.mem_cons_of_mem _ (List.mem_singleton.2 rfl))
  to_readers _ := Or.inl List.mem_cons_self

variable {T : Type} [DecidableEq T] [Fintype T] {s : Config T read_write_lock Cond Loc}

theorem awaited {role : T → Role} {spurious : Prop}
    (hs : (threads functions role spurious).Reachable s) :
    Awaited role s.shared.resource_cnt False s.thread :=
  awaited_of_reachable guards handsOver (fun _ _ _ _ _ =>
    Or.inl (List.mem_cons_of_mem _ (List.mem_singleton.2 rfl))) hs

/-- In every reachable state a sleeping reader waits for a writer that holds the lock, and a
sleeping writer for a holder of the lock or for a woken writer; so there is no deadlock. -/
theorem readers_and_writers_awaited (role : T → Role) (spurious : Prop)
    (hs : (threads functions role spurious).Reachable s) :
    (∀ t p, s.thread t = .asleep .read_phase p →
      ∃ u, role u = .writer ∧ s.thread u = .run .holding) ∧
    (∀ t p, s.thread t = .asleep .write_phase p →
      s.shared.resource_cnt ≠ 0 ∨ ∃ u, role u = .writer ∧ s.thread u = .run .loop) ∧
    ¬ Deadlock s.thread := by
  have ha := awaited hs
  refine ⟨?_, ha.writer, not_deadlock (exclusive_of_reachable guards hs) ha nofun⟩
  intro t p ht
  rcases ha.reader t p ht with hold | hq
  · exact hold
  · exact hq.elim

/-- A reader that sleeps while a writer holds the lock. -/
theorem readers_and_writers_awaited_sleeper : ∃ s : Config Bool read_write_lock Cond Loc,
    s.thread true = .asleep .read_phase .loop ∧ ∃ u, s.thread u = .run .holding := by
  let role : Bool → Role := fun b => cond b .reader .writer
  have h₀ : (threads functions role False).Reachable ⟨⟨0⟩, fun _ => .run .idle⟩ :=
    .init ⟨⟨⟨0⟩, rfl⟩, fun _ => rfl⟩
  have h₁ := h₀.step (.turn (t := false) rfl List.mem_cons_self .nil)
  have h₂ := h₁.step (.turn (t := true) rfl List.mem_cons_self .nil)
  obtain ⟨hreader, -, -⟩ := readers_and_writers_awaited role False h₂
  obtain ⟨u, -, hu⟩ := hreader true .loop rfl
  exact ⟨_, rfl, u, hu⟩

end RWLock.ReaderPref

/-
  Mutual exclusion of both reader-writer locks.
-/
import OSModules.RWLock.ReaderPref
import OSModules.RWLock.WriterPref

namespace RWLock

open Runs Monitor

/-- For any readers and writers, and any order of turns and wake-ups, one writer holds the lock and
the counter is -1, or only readers hold it and the counter is their number. -/
theorem exclusion {T : Type} [DecidableEq T] [Fintype T] (role : T → Role) :
    (∀ s, (threads ReaderPref.functions role True).Reachable s →
      Exclusive role s.shared.resource_cnt s.thread) ∧
    ∀ s, (threads WriterPref.functions role True).Reachable s →
      Exclusive role s.shared.rw.resource_cnt s.thread :=
  ⟨fun _ hs => exclusive_of_reachable ReaderPref.guards hs,
    fun _ hs => exclusive_of_reachable WriterPref.guards hs⟩

/-- A reader that was woken for no reason while a writer holds the lock. -/
theorem exclusion_spurious : ∃ s : Config Bool read_write_lock Cond Loc,
    s.thread true = .run .loop ∧ Exclusive (fun b => cond b .reader .writer) (-1) s.thread := by
  let role : Bool → Role := fun b => cond b .reader .writer
  have h₀ : (threads ReaderPref.functions role True).Reachable ⟨⟨0⟩, fun _ => .run .idle⟩ :=
    .init ⟨⟨⟨0⟩, rfl⟩, fun _ => rfl⟩
  have h₁ := h₀.step (.turn (t := false) rfl List.mem_cons_self .nil)
  have h₂ := h₁.step (.turn (t := true) rfl List.mem_cons_self .nil)
  have h₃ := h₂.step (.spurious (t := true) trivial rfl)
  exact ⟨_, rfl, (exclusion role).1 _ h₃⟩

end RWLock

/-
  `my_shm_posix_prod.c` and `my_shm_posix_cons.c`: a producer writes a string 1000 times into
  the 512 slots of a shared memory, and sends the index of each slot through a named pipe to a
  consumer, which prints the slot and marks it free again.  The slots have no lock.
-/
import OSModules.Lib.Runs
import Mathlib.Tactic

namespace SharedMemory

open Runs

def str : String := "OSisFun"
def free_str : String := "Freeeee"

theorem str_ne_free_str : str ≠ free_str := by decide

/-! ## The two programs -/

namespace Prod

/-- Where the producer is: at the test of its `for` loop, in the busy wait, at the `if`, before
each call in the body of the `if`, before `itr++`, or past the loop. -/
inductive Place
  | loop
  | wait
  | check
  | put
  | print
  | send
  | next
  | closed
  deriving DecidableEq

end Prod

namespace Cons

/-- Where the consumer is: at the test of its `for` loop, before each call in its body, or past
the loop. -/
inductive Place
  | loop
  | receive
  | print
  | free
  | sleep
  | closed
  deriving DecidableEq

end Cons

/-- One process: its place, its variables and what it printed. -/
structure Process (P : Type) where
  place : P
  cnt : ℕ
  itr : ℕ
  printed : List (String × ℕ)

/-- The two processes with the shared memory, slot by slot, and the pipe. -/
structure Shm where
  slot : ℕ → String
  pipe : List ℕ
  prod : Process Prod.Place
  cons : Process Cons.Place

/-- A step of the producer. -/
def producer (s : Shm) : Option Shm :=
  let p := s.prod
  match p.place with
  | .loop =>
    if p.cnt < 1000 then
      some { s with prod := { p with itr := if p.cnt = 512 then 0 else p.itr, place := .wait } }
    else some { s with prod := { p with place := .closed } }
  | .wait =>
    if s.slot p.itr ≠ free_str then some s else some { s with prod := { p with place := .check } }
  | .check =>
    if s.slot p.itr = free_str then some { s with prod := { p with place := .put } }
    else some { s with prod := { p with place := .next } }
  | .put =>
    some { s with
      slot := Function.update s.slot p.itr str
      prod := { p with place := .print } }
  | .print =>
    some { s with prod := { p with
      printed := p.printed ++ [(s.slot p.itr, p.cnt + 1)], place := .send } }
  | .send => some { s with pipe := s.pipe ++ [p.itr], prod := { p with place := .next } }
  | .next => some { s with prod := { p with itr := p.itr + 1, cnt := p.cnt + 1, place := .loop } }
  | .closed => none

/-- A step of the consumer; its `read` blocks while the pipe is empty, unless the producer has
closed its end, when it returns nothing and `itr` keeps its value. -/
def consumer (s : Shm) : Option Shm :=
  let c := s.cons
  match c.place with
  | .loop =>
    if c.cnt < 1000 then some { s with cons := { c with place := .receive } }
    else some { s with cons := { c with place := .closed } }
  | .receive =>
    match s.pipe with
    | itr :: rest => some { s with pipe := rest, cons := { c with itr := itr, place := .print } }
    | [] =>
      if s.prod.place = .closed then some { s with cons := { c with place := .print } } else none
  | .print =>
    some { s with cons := { c with
      printed := c.printed ++ [(s.slot c.itr, c.itr)], place := .free } }
  | .free =>
    some { s with
      slot := Function.update s.slot c.itr free_str
      cons := { c with place := .sleep } }
  | .sleep => some { s with cons := { c with cnt := c.cnt + 1, place := .loop } }
  | .closed => none

inductive Role
  | producer
  | consumer

/-- A step of one of the processes. -/
def next : Role → Shm → Option Shm
  | .producer => producer
  | .consumer => consumer

/-- Both processes after the initialisation; the consumer's `itr` is not initialised. -/
def Init (s : Shm) : Prop :=
  (∀ i < 512, s.slot i = free_str) ∧ s.pipe = [] ∧ s.prod = ⟨.loop, 0, 0, []⟩ ∧
    ∃ itr, s.cons = ⟨.loop, 0, itr, []⟩

/-- All interleavings. -/
def shm : LTS Shm Role where
  init := Init
  step s r s' := next r s = some s'

/-! ## Indices in flight -/

/-- The slot that the producer has written and not sent yet. -/
def Process.pending (p : Process Prod.Place) : List ℕ :=
  if p.place = .print ∨ p.place = .send then [p.itr] else []

/-- The slot that the consumer has received and not freed yet. -/
def Process.held (c : Process Cons.Place) : List ℕ :=
  if c.place = .print ∨ c.place = .free then [c.itr] else []

/-- The indices between the producer's write and the consumer's, the oldest first. -/
def Shm.inFlight (s : Shm) : List ℕ := s.cons.held ++ s.pipe ++ s.prod.pending

/-- How many strings the producer has written. -/
def Process.written (p : Process Prod.Place) : ℕ :=
  if p.place = .print ∨ p.place = .send ∨ p.place = .next then p.cnt + 1 else p.cnt

/-- How many slots the consumer has freed. -/
def Process.freed (c : Process Cons.Place) : ℕ :=
  if c.place = .sleep then c.cnt + 1 else c.cnt

/-- The slots of the strings `a`, ..., `b - 1`. -/
def window (a b : ℕ) : List ℕ := (List.range' a (b - a)).map (· % 512)

theorem mem_window {a b i : ℕ} : i ∈ window a b ↔ ∃ k, a ≤ k ∧ k < b ∧ k % 512 = i := by
  simp only [window, List.mem_map, List.mem_range'_1]
  constructor
  · rintro ⟨k, hk, rfl⟩
    exact ⟨k, hk.1, by omega, rfl⟩
  · rintro ⟨k, h₁, h₂, rfl⟩
    exact ⟨k, ⟨h₁, by omega⟩, rfl⟩

theorem lt_of_mem_window {a b i : ℕ} (h : i ∈ window a b) : i < 512 := by
  obtain ⟨k, -, -, rfl⟩ := mem_window.1 h
  omega

theorem window_self (a : ℕ) : window a a = [] := by simp [window]

theorem window_snoc {a b : ℕ} (h : a ≤ b) : window a (b + 1) = window a b ++ [b % 512] := by
  have hsub : b + 1 - a = b - a + 1 := by omega
  have hb : a + (b - a) = b := by omega
  simp only [window, hsub, List.range'_concat, List.map_append, List.map_cons, List.map_nil,
    Nat.one_mul, hb]

theorem window_cons {a b : ℕ} (h : a < b) : window a b = a % 512 :: window (a + 1) b := by
  have hsub : b - a = b - (a + 1) + 1 := by omega
  simp only [window]
  rw [hsub, List.range'_succ, List.map_cons]

/-- Strings less than a round apart have different slots. -/
theorem nodup_window {a b : ℕ} (h : b ≤ a + 512) : (window a b).Nodup := by
  refine List.Nodup.map_on ?_ List.nodup_range'
  intro x hx y hy hxy
  rw [List.mem_range'_1] at hx hy
  omega

/-! ## The invariant -/

/-- The counter of the producer and the slot it works on. -/
def Process.ProdOk (p : Process Prod.Place) : Prop :=
  match p.place with
  | .loop => p.cnt ≤ 1000 ∧ p.itr = if p.cnt ≤ 512 then p.cnt else p.cnt - 512
  | .closed => p.cnt = 1000
  | _ => p.cnt < 1000 ∧ p.itr = p.cnt % 512

/-- The counter of the consumer and the slot it works on. -/
def Process.ConsOk (c : Process Cons.Place) : Prop :=
  match c.place with
  | .loop => c.cnt ≤ 1000
  | .closed => c.cnt = 1000
  | .receive | .sleep => c.cnt < 1000
  | .print | .free => c.cnt < 1000 ∧ c.itr = c.cnt % 512

/-- How many strings the consumer has printed. -/
def Process.shown (c : Process Cons.Place) : ℕ :=
  if c.place = .free ∨ c.place = .sleep then c.cnt + 1 else c.cnt

/-- What a process prints that sees the string in each slot. -/
def lines (index : ℕ → ℕ) (n : ℕ) : List (String × ℕ) :=
  (List.range n).map fun k => (str, index k)

theorem lines_succ (index : ℕ → ℕ) (n : ℕ) :
    lines index (n + 1) = lines index n ++ [(str, index n)] := by
  simp [lines, List.range_succ]

structure Inv (s : Shm) : Prop where
  flight : s.inFlight = window s.cons.freed s.prod.written
  order : s.cons.freed ≤ s.prod.written
  room : s.prod.written ≤ s.cons.freed + 512
  data : ∀ i ∈ s.inFlight, s.slot i = str
  free : ∀ i < 512, i ∉ s.inFlight → s.slot i = free_str
  prod : s.prod.ProdOk
  cons : s.cons.ConsOk
  /-- What the busy wait found stays true: nobody else writes the string. -/
  checked : s.prod.place = .check ∨ s.prod.place = .put → s.slot s.prod.itr = free_str
  printed : s.cons.printed = lines (· % 512) s.cons.shown

theorem Init.inv {s : Shm} (h : Init s) : Inv s := by
  obtain ⟨hslot, hpipe, hprod, itr, hcons⟩ := h
  have hflight : s.inFlight = [] := by
    simp [Shm.inFlight, Process.held, Process.pending, hpipe, hprod, hcons]
  have hw : s.prod.written = 0 := by simp [Process.written, hprod]
  have hf : s.cons.freed = 0 := by simp [Process.freed, hcons]
  refine ⟨?_, ?_, ?_, ?_, ?_, ?_, ?_, ?_, ?_⟩
  · rw [hflight, hw, hf, window_self]
  · rw [hw, hf]
  · omega
  · intro i hi
    rw [hflight] at hi
    exact absurd hi List.not_mem_nil
  · intro i hi _
    exact hslot i hi
  · simp [Process.ProdOk, hprod]
  · simp [Process.ConsOk, hcons]
  · intro h
    simp [hprod] at h
  · simp [lines, Process.shown, hcons]

/-- The slot of the next string is free only if the round before it was freed. -/
theorem Inv.room_of_free {s : Shm} (hI : Inv s) (h : s.slot (s.prod.written % 512) = free_str) :
    s.prod.written < s.cons.freed + 512 := by
  by_contra hge
  have hroom := hI.room
  have hmem : s.prod.written % 512 ∈ s.inFlight := by
    rw [hI.flight]
    exact mem_window.2 ⟨s.cons.freed, le_rfl, by omega, by omega⟩
  rw [hI.data _ hmem] at h
  exact str_ne_free_str h

/-- A step of the producer that touches neither the slots nor the pipe. -/
theorem Inv.set_prod {s : Shm} (hI : Inv s) {p : Process Prod.Place}
    (hpending : p.pending = s.prod.pending) (hwritten : p.written = s.prod.written)
    (hok : p.ProdOk) (hchecked : p.place = .check ∨ p.place = .put → s.slot p.itr = free_str) :
    Inv { s with prod := p } := by
  have hflight : Shm.inFlight { s with prod := p } = s.inFlight := by
    simp only [Shm.inFlight, hpending]
  refine ⟨?_, ?_, ?_, ?_, ?_, hok, hI.cons, hchecked, hI.printed⟩
  · rw [hflight, hwritten]
    exact hI.flight
  · rw [hwritten]
    exact hI.order
  · rw [hwritten]
    exact hI.room
  · rw [hflight]
    exact hI.data
  · rw [hflight]
    exact hI.free

theorem producer_inv {s s' : Shm} (hI : Inv s) (h : producer s = some s') : Inv s' := by
  have hok := hI.prod
  unfold Process.ProdOk at hok
  rcases hp : s.prod.place <;> simp only [producer, hp] at h hok
  case loop =>
    by_cases hlt : s.prod.cnt < 1000
    · rw [if_pos hlt] at h
      cases h
      refine hI.set_prod ?_ ?_ ⟨hlt, ?_⟩ ?_
      · simp [Process.pending, hp]
      · simp [Process.written, hp]
      · dsimp only
        rw [hok.2]
        split_ifs <;> omega
      · simp
    · rw [if_neg hlt] at h
      cases h
      refine hI.set_prod ?_ ?_ ?_ ?_
      · simp [Process.pending, hp]
      · simp [Process.written, hp]
      · exact le_antisymm hok.1 (not_lt.1 hlt)
      · simp
  case wait =>
    split_ifs at h with hf <;> cases h
    · exact hI
    · refine hI.set_prod ?_ ?_ hok fun _ => not_not.1 hf
      · simp [Process.pending, hp]
      · simp [Process.written, hp]
  case check =>
    have hf := hI.checked (Or.inl hp)
    rw [if_pos hf] at h
    cases h
    refine hI.set_prod ?_ ?_ hok fun _ => hf
    · simp [Process.pending, hp]
    · simp [Process.written, hp]
  case put =>
    cases h
    obtain ⟨hcnt, hitr⟩ := hok
    have hf := hI.checked (Or.inr hp)
    have hw : s.prod.written = s.prod.cnt := by simp [Process.written, hp]
    have hroom := hI.room_of_free (by rwa [hw, ← hitr])
    have horder := hI.order
    -- the slot joins those in flight
    have hflight : Shm.inFlight { s with
        slot := Function.update s.slot s.prod.itr str, prod := { s.prod with place := .print } } =
        s.inFlight ++ [s.prod.itr] := by
      simp [Shm.inFlight, Process.pending, hp]
    have hw' : Process.written { s.prod with place := .print } = s.prod.cnt + 1 := by
      simp [Process.written]
    refine ⟨?_, ?_, ?_, ?_, ?_, ⟨hcnt, hitr⟩, hI.cons, by simp, hI.printed⟩
    · show _ = window s.cons.freed _
      rw [hflight, hw', hI.flight, hw, hitr, window_snoc (by omega)]
    · show s.cons.freed ≤ Process.written _
      rw [hw']
      omega
    · show Process.written _ ≤ s.cons.freed + 512
      rw [hw']
      omega
    · intro i hi
      rw [hflight, List.mem_append, List.mem_singleton] at hi
      by_cases hii : i = s.prod.itr
      · simp [hii]
      · simpa [hii] using hI.data i (hi.resolve_right hii)
    · intro i hlt hi
      rw [hflight, List.mem_append, List.mem_singleton, not_or] at hi
      simpa [hi.2] using hI.free i hlt hi.1
  case print =>
    cases h
    refine hI.set_prod ?_ ?_ hok ?_
    · simp [Process.pending, hp]
    · simp [Process.written, hp]
    · simp
  case send =>
    cases h
    -- the index goes from the producer into the pipe
    have hflight : Shm.inFlight { s with
        pipe := s.pipe ++ [s.prod.itr], prod := { s.prod with place := .next } } = s.inFlight := by
      simp [Shm.inFlight, Process.pending, hp]
    have hw : Process.written { s.prod with place := .next } = s.prod.written := by
      simp [Process.written, hp]
    refine ⟨?_, ?_, ?_, ?_, ?_, hok, hI.cons, by simp, hI.printed⟩
    · rw [hflight, hw]
      exact hI.flight
    · rw [hw]
      exact hI.order
    · rw [hw]
      exact hI.room
    · rw [hflight]
      exact hI.data
    · rw [hflight]
      exact hI.free
  case next =>
    cases h
    refine hI.set_prod ?_ ?_ ?_ ?_
    · simp [Process.pending, hp]
    · simp [Process.written, hp]
    · simp only [Process.ProdOk]
      split_ifs <;> omega
    · simp
  case closed => exact absurd h (by simp)

/-- A step of the consumer that touches neither the slots nor the pipe. -/
theorem Inv.set_cons {s : Shm} (hI : Inv s) {c : Process Cons.Place} (hheld : c.held = s.cons.held)
    (hfreed : c.freed = s.cons.freed) (hok : c.ConsOk)
    (hprinted : c.printed = lines (· % 512) c.shown) : Inv { s with cons := c } := by
  have hflight : Shm.inFlight { s with cons := c } = s.inFlight := by
    simp only [Shm.inFlight, hheld]
  refine ⟨?_, ?_, ?_, ?_, ?_, hI.prod, hok, hI.checked, hprinted⟩
  · rw [hflight, hfreed]
    exact hI.flight
  · rw [hfreed]
    exact hI.order
  · rw [hfreed]
    exact hI.room
  · rw [hflight]
    exact hI.data
  · rw [hflight]
    exact hI.free

/-- The consumer does not see the producer close its end before it has received every string. -/
theorem Inv.not_closed {s : Shm} (hI : Inv s) (hc : s.cons.place = .receive) (he : s.pipe = []) :
    s.prod.place ≠ .closed := by
  intro hp
  have hprod := hI.prod
  have hcons := hI.cons
  simp only [Process.ProdOk, hp] at hprod
  simp only [Process.ConsOk, hc] at hcons
  have hflight := hI.flight
  have hw : s.prod.written = s.prod.cnt := by simp [Process.written, hp]
  have hf : s.cons.freed = s.cons.cnt := by simp [Process.freed, hc]
  rw [hw, hf, window_cons (by omega)] at hflight
  simp [Shm.inFlight, Process.held, Process.pending, hc, he, hp] at hflight

/-- What the consumer holds is the oldest string in flight, and it is there. -/
theorem Inv.held {s : Shm} (hI : Inv s) (hc : s.cons.place = .print ∨ s.cons.place = .free) :
    s.cons.itr = s.cons.cnt % 512 ∧ s.slot s.cons.itr = str := by
  have hok := hI.cons
  have hheld : s.cons.held = [s.cons.itr] := by simp [Process.held, hc]
  refine ⟨?_, hI.data _ ?_⟩
  · rcases hc with hc | hc <;> simp only [Process.ConsOk, hc] at hok <;> exact hok.2
  · simp [Shm.inFlight, hheld]

theorem consumer_inv {s s' : Shm} (hI : Inv s) (h : consumer s = some s') : Inv s' := by
  have hok := hI.cons
  have hprinted := hI.printed
  unfold Process.ConsOk at hok
  rcases hc : s.cons.place <;> simp only [consumer, hc] at h hok
  case loop =>
    split_ifs at h with hlt <;> cases h
    · refine hI.set_cons ?_ ?_ hlt ?_
      · simp [Process.held, hc]
      · simp [Process.freed, hc]
      · simpa [Process.shown, hc] using hprinted
    · refine hI.set_cons ?_ ?_ ?_ ?_
      · simp [Process.held, hc]
      · simp [Process.freed, hc]
      · exact le_antisymm hok (not_lt.1 hlt)
      · simpa [Process.shown, hc] using hprinted
  case receive =>
    rcases hpipe : s.pipe with _ | ⟨itr, rest⟩ <;> simp only [hpipe] at h
    · rw [if_neg (hI.not_closed hc hpipe)] at h
      exact absurd h (by simp)
    · cases h
      -- the index goes from the pipe to the consumer
      have hflight : Shm.inFlight { s with
          pipe := rest, cons := { s.cons with itr := itr, place := .print } } = s.inFlight := by
        simp [Shm.inFlight, Process.held, hc, hpipe]
      have hf : Process.freed { s.cons with itr := itr, place := .print } = s.cons.freed := by
        simp [Process.freed, hc]
      have hfc : s.cons.freed = s.cons.cnt := by simp [Process.freed, hc]
      have hitr : itr = s.cons.cnt % 512 := by
        have hw := hI.flight
        rw [← hflight] at hw
        have hlt : s.cons.freed < s.prod.written := by
          by_contra hge
          rw [window, Nat.sub_eq_zero_of_le (not_lt.1 hge)] at hw
          simp [Shm.inFlight, Process.held] at hw
        rw [window_cons hlt, hfc] at hw
        simp only [Shm.inFlight, Process.held, true_or, if_true, List.cons_append,
          List.cons.injEq] at hw
        exact hw.1
      refine ⟨?_, ?_, ?_, ?_, ?_, hI.prod, ⟨hok, hitr⟩, hI.checked, ?_⟩
      · rw [hflight, hf]
        exact hI.flight
      · rw [hf]
        exact hI.order
      · rw [hf]
        exact hI.room
      · rw [hflight]
        exact hI.data
      · rw [hflight]
        exact hI.free
      · simpa [Process.shown, hc] using hprinted
  case print =>
    cases h
    obtain ⟨hitr, hslot⟩ := hI.held (Or.inl hc)
    refine hI.set_cons ?_ ?_ hok ?_
    · simp [Process.held, hc]
    · simp [Process.freed, hc]
    · simp only [Process.shown, hc] at hprinted ⊢
      simp only [reduceCtorEq, or_false, or_self, if_false, if_true] at hprinted ⊢
      rw [lines_succ, hprinted, hslot, ← hitr]
  case free =>
    cases h
    obtain ⟨hitr, -⟩ := hI.held (Or.inr hc)
    have hw := hI.flight
    have hfc : s.cons.freed = s.cons.cnt := by simp [Process.freed, hc]
    have hf : Process.freed { s.cons with place := .sleep } = s.cons.cnt + 1 := by
      simp [Process.freed]
    have horder := hI.order
    have hroom := hI.room
    -- the slot leaves those in flight, which were distinct
    have hflight : s.inFlight = s.cons.itr :: Shm.inFlight { s with
        slot := Function.update s.slot s.cons.itr free_str
        cons := { s.cons with place := .sleep } } := by
      simp [Shm.inFlight, Process.held, hc]
    have hlt : s.cons.freed < s.prod.written := by
      by_contra hge
      rw [window, Nat.sub_eq_zero_of_le (not_lt.1 hge), hflight] at hw
      simp at hw
    have hnodup : s.inFlight.Nodup := by
      rw [hw]
      exact nodup_window hroom
    rw [hflight, List.nodup_cons] at hnodup
    refine ⟨?_, ?_, ?_, ?_, ?_, hI.prod, hok.1, ?_, ?_⟩
    · rw [window_cons hlt, hflight, List.cons.injEq, hfc] at hw
      rw [hf]
      exact hw.2
    · show Process.freed _ ≤ s.prod.written
      rw [hf]
      omega
    · show s.prod.written ≤ Process.freed _ + 512
      rw [hf]
      omega
    · intro i hi
      have hne : i ≠ s.cons.itr := by
        rintro rfl
        exact hnodup.1 hi
      simpa [hne] using hI.data i (by rw [hflight]; exact List.mem_cons_of_mem _ hi)
    · intro i hi512 hi
      by_cases hii : i = s.cons.itr
      · simp [hii]
      · simpa [hii] using hI.free i hi512 (by rw [hflight]; simp [hii, hi])
    · intro hp
      by_cases hii : s.prod.itr = s.cons.itr
      · simp [hii]
      · simpa [hii] using hI.checked hp
    · simpa [Process.shown, hc] using hprinted
  case sleep =>
    cases h
    refine hI.set_cons ?_ ?_ ?_ ?_
    · simp [Process.held, hc]
    · simp [Process.freed, hc]
    · simp only [Process.ConsOk]
      omega
    · simpa [Process.shown, hc] using hprinted
  case closed => exact absurd h (by simp)

theorem inv_of_reachable {s : Shm} (h : shm.Reachable s) : Inv s := by
  refine LTS.Reachable.invariant (I := Inv) (fun _ hs => Init.inv hs) (fun s r s' hI hs => ?_) h
  cases r with
  | producer => exact producer_inv hI hs
  | consumer => exact consumer_inv hI hs

/-! ## Slots and the indices in flight -/

/-- A slot holds the string exactly while its index is in flight, and is free otherwise; the
indices in flight are distinct; the consumer never finds the pipe closed, receives the slots in
turn, finds the string in each of them and prints it. -/
theorem slots_in_flight {s : Shm} (h : shm.Reachable s) :
    (∀ i < 512, (s.slot i = str ↔ i ∈ s.cons.held ∨ i ∈ s.pipe ∨ i ∈ s.prod.pending) ∧
      (s.slot i = str ∨ s.slot i = free_str)) ∧
    s.inFlight.Nodup ∧ (∀ i ∈ s.inFlight, i < 512) ∧
    (s.cons.place = .receive → s.pipe = [] → s.prod.place ≠ .closed) ∧
    (s.cons.place = .print → s.cons.itr = s.cons.cnt % 512 ∧ s.slot s.cons.itr = str) ∧
    s.cons.printed = (List.range s.cons.shown).map fun k => (str, k % 512) := by
  have hI := inv_of_reachable h
  have hmem (i : ℕ) : i ∈ s.inFlight ↔ i ∈ s.cons.held ∨ i ∈ s.pipe ∨ i ∈ s.prod.pending := by
    simp only [Shm.inFlight, List.mem_append, or_assoc]
  refine ⟨fun i hi => ?_, ?_, fun i hi => ?_, hI.not_closed,
    fun hc => hI.held (Or.inl hc), hI.printed⟩
  · rw [← hmem]
    by_cases hf : i ∈ s.inFlight
    · exact ⟨iff_of_true (hI.data i hf) hf, Or.inl (hI.data i hf)⟩
    · have hfree := hI.free i hi hf
      exact ⟨iff_of_false (by rw [hfree]; exact str_ne_free_str.symm) hf, Or.inr hfree⟩
  · rw [hI.flight]
    exact nodup_window hI.room
  · rw [hI.flight] at hi
    exact lt_of_mem_window hi

def start : Shm := ⟨fun _ => free_str, [], ⟨.loop, 0, 0, []⟩, ⟨.loop, 0, 0, []⟩⟩

/-- The state after a schedule is reachable. -/
theorem reachable_foldlM {rs : List Role} : ∀ {s s' : Shm}, shm.Reachable s →
    rs.foldlM (fun s r => next r s) s = some s' → shm.Reachable s' := by
  induction rs with
  | nil =>
    intro s s' h hs
    cases hs
    exact h
  | cons r rs ih =>
    intro s s' h hs
    obtain ⟨t, ht, hts⟩ := Option.bind_eq_some_iff.1 hs
    exact ih (h.step ht) hts

/-- The producer has written and sent the first string, and the consumer has received it. -/
theorem slots_in_flight_first : ∃ s, shm.Reachable s ∧ s.cons.place = .print ∧
    s.prod.cnt = 1 ∧ s.slot s.cons.itr = str := by
  let rs : List Role := List.replicate 7 .producer ++ [.consumer, .consumer]
  have h : ∃ s, rs.foldlM (fun s r => next r s) start = some s ∧ s.cons.place = .print ∧
      s.prod.cnt = 1 := ⟨_, rfl, rfl, rfl⟩
  obtain ⟨s, hs, hc, hp⟩ := h
  have hr : shm.Reachable s :=
    reachable_foldlM (.init ⟨fun _ _ => rfl, rfl, rfl, 0, rfl⟩) hs
  exact ⟨s, hr, hc, hp, ((slots_in_flight hr).2.2.2.2.1 hc).2⟩

end SharedMemory

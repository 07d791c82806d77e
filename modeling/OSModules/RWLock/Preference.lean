/-
  Whom the two locks prefer. While a writer waits for the lock that prefers writers, no
  reader is admitted. A reader that waits for the lock that prefers readers can be
  overtaken: the unlocking writer wakes it, and then a writer tests the counter first.
-/
import OSModules.RWLock.ReaderPref
import OSModules.RWLock.WriterPref

namespace RWLock

open Runs Monitor

variable {T S : Type} [DecidableEq T] {cnt : S → ℤ} {F : Functions S} {role : T → Role}
  {spurious : Prop} {s s' : Config T S Cond Loc} {l : Label T}

/-- A thread that holds the lock after a step held it before, or its section of `Lock` has just
admitted it. -/
theorem holding_of_step (hF : Guards cnt F) (hs : (threads F role spurious).Reachable s)
    (hstep : (threads F role spurious).step s l s') {x : T} (hx : s'.thread x = .run .holding) :
    s.thread x = .run .holding ∨ (l = .turn x ∧ ∃ o : Section S, o.thread = .run .holding ∧
      ((s.thread x = .run .idle ∧ o = F.Lock (role x) s.shared) ∨
        (s.thread x = .run .loop ∧ o = F.Loop (role x) s.shared))) := by
  rcases hstep.thread x with ⟨-, hsame | ⟨c, p, hsleep, hwoken⟩⟩ | ⟨p, o, ho, rfl, ht, -, ho'⟩
  · rw [← hsame, hx]
    exact Or.inl rfl
  · -- nobody wakes up with the lock
    obtain ⟨-, rfl⟩ := asleep_at_loop hF hs hsleep
    rw [hx] at hwoken
    cases hwoken
  · rw [hx] at ho'
    refine Or.inr ⟨rfl, o, ho'.symm, ?_⟩
    rcases client_cases ho with ⟨rfl, rfl⟩ | ⟨-, rfl⟩ | ⟨rfl, rfl⟩ | ⟨-, rfl⟩
    · exact Or.inl ⟨ht, rfl⟩
    · cases ho'
    · exact Or.inr ⟨ht, rfl⟩
    · rw [hF.unlock] at ho'
      cases ho'

/-- A thread in `Lock` waits: it is asleep there, or woken and not admitted yet. -/
def Waits (f : T → Thread Cond Loc) (t : T) : Prop :=
  (∃ c p, f t = .asleep c p) ∨ f t = .run .loop

/-- A thread waits in `Lock` until it is admitted. -/
theorem waits_step (hF : Guards cnt F) (hs : (threads F role spurious).Reachable s)
    (hstep : (threads F role spurious).step s l s') {x : T} (hx : Waits s.thread x) :
    Waits s'.thread x ∨ s'.thread x = .run .holding := by
  have hadmits : ∀ r o, Admits cnt s.shared r o →
      (∃ c p, o.thread = .asleep c p) ∨ o.thread = .run .holding := by
    intro r o ho
    cases ho with
    | wait => exact Or.inl ⟨_, _, rfl⟩
    | reader => exact Or.inr rfl
    | writer => exact Or.inr rfl
  rcases hstep.thread x with ⟨-, hsame | ⟨c, p, hsleep, hwoken⟩⟩ | ⟨p, o, ho, -, ht, -, ho'⟩
  · left
    unfold Waits
    rwa [hsame]
  · obtain ⟨-, rfl⟩ := asleep_at_loop hF hs hsleep
    exact Or.inl (Or.inr hwoken)
  · have hloop : p = .loop := by
      rcases hx with ⟨c, q, hx⟩ | hx
      · rw [ht] at hx
        cases hx
      · rw [ht] at hx
        cases hx
        rfl
    subst hloop
    rcases client_cases ho with ⟨hp, -⟩ | ⟨hp, -⟩ | ⟨-, rfl⟩ | ⟨hp, -⟩
    · cases hp
    · cases hp
    · rw [Waits, ho']
      rcases hadmits _ _ (hF.loop (role x) s.shared) with hsleep | hhold
      · exact Or.inl (Or.inl hsleep)
      · exact Or.inr hhold
    · cases hp

/-- A thread that waits goes on to wait as long as it is not admitted. -/
theorem waits_until (hF : Guards cnt F) (hs : (threads F role spurious).Reachable s) {x : T}
    (hx : Waits s.thread x)
    (hu : (threads F role spurious).Until (fun s => s.thread x = .run .holding) s s') :
    Waits s'.thread x := by
  induction hu with
  | refl => exact hx
  | step hu hstep hno ih => exact (waits_step hF (hs.until hu) hstep ih).resolve_right hno

/-! ## The lock that prefers writers -/

namespace WriterPref

variable {s s' s'' : Config T Shared Cond Loc} {l : Label T}

/-- While writers queue, a reader that holds the lock after a step held it before. -/
theorem no_reader_admitted (hs : (threads functions role spurious).Reachable s)
    (hqueue : Queue s.shared) (hstep : (threads functions role spurious).step s l s') {r : T}
    (hr : role r = .reader) (hhold : s'.thread r = .run .holding) :
    s.thread r = .run .holding := by
  rcases holding_of_step guards hs hstep hhold with hold | ⟨-, o, ho, hsection⟩
  · exact hold
  · have hwaits : ReaderLock s.shared = wait s.shared .read_phase := if_pos (Or.inr hqueue)
    have ho' : o = ReaderLock s.shared := by
      rcases hsection with ⟨-, ho⟩ | ⟨-, ho⟩
      · rw [ho, hr]; rfl
      · rw [ho, hr]; rfl
    rw [ho', hwaits] at ho
    cases ho

variable [Fintype T]

/-- A writer that waits is in the queue. -/
theorem queue_of_waits (hs : (threads functions role spurious).Reachable s) {w : T}
    (hrole : role w = .writer) (hw : Waits s.thread w) : Queue s.shared := by
  refine (queue_iff hs).2 ⟨w, hrole, ?_⟩
  rcases hw with ⟨c, p, hw⟩ | hw
  · obtain ⟨rfl, rfl⟩ := asleep_at_loop guards hs hw
    rw [hrole] at hw
    exact Or.inl hw
  · exact Or.inr hw

/-- From a state in which a writer waits to the step that admits it, no reader is admitted, and
the number of readers that hold the lock does not grow. -/
theorem writers_first (role : T → Role) (spurious : Prop)
    (hs : (threads functions role spurious).Reachable s) {w : T} (hrole : role w = .writer)
    (hw : ∃ c p, s.thread w = .asleep c p)
    (hu : (threads functions role spurious).Until (fun s => s.thread w = .run .holding) s s')
    (hstep : (threads functions role spurious).step s' l s'') :
    (∀ r, role r = .reader → s''.thread r = .run .holding → s'.thread r = .run .holding) ∧
      holders role .reader s''.thread ≤ holders role .reader s'.thread := by
  have hwaits := waits_until guards hs (Or.inl hw) hu
  have hs' := hs.until hu
  have hkeep : ∀ r, role r = .reader → s''.thread r = .run .holding →
      s'.thread r = .run .holding := fun r hr hhold =>
    no_reader_admitted hs' (queue_of_waits hs' hrole hwaits) hstep hr hhold
  refine ⟨hkeep, count_le ?_⟩
  rintro r ⟨hr, hhold⟩
  exact ⟨hr, hkeep r hr hhold⟩

/-- A writer that waits while the last reader unlocks. -/
theorem writers_first_last_reader : ∃ s s' : Config Bool Shared Cond Loc,
    s.thread true = .asleep .write_phase .loop ∧
    holders (fun b => cond b .writer .reader) .reader s'.thread ≤
      holders (fun b => cond b .writer .reader) .reader s.thread := by
  let role : Bool → Role := fun b => cond b .writer .reader
  have h₀ : (threads functions role True).Reachable ⟨⟨⟨0⟩, 0⟩, fun _ => .run .idle⟩ :=
    .init ⟨⟨⟨⟨0⟩, rfl⟩, rfl⟩, fun _ => rfl⟩
  have h₁ := h₀.step (.turn (t := false) rfl List.mem_cons_self .nil)
  have h₂ := h₁.step (.turn (t := true) rfl List.mem_cons_self .nil)
  exact ⟨_, _, rfl, (writers_first role True h₂ (w := true) rfl ⟨_, _, rfl⟩ .refl
    (.turn (t := false) rfl List.mem_cons_self (.signal (t := true) rfl .nil))).2⟩

end WriterPref

/-! ## The lock that prefers readers -/

namespace ReaderPref

/-- From a state in which a reader is asleep until it is admitted, no other writer gets the lock
than the one that holds it. -/
def Preferred (A : LTS (Config T read_write_lock Cond Loc) (Label T)) (role : T → Role) : Prop :=
  ∀ s r s', A.Reachable s → role r = .reader → s.thread r = .asleep .read_phase .loop →
    A.Until (fun s => s.thread r = .run .holding) s s' →
    ∀ w, role w = .writer → s'.thread w = .run .holding → s.thread w = .run .holding

/-- A reader waits for one writer, which wakes it, and another writer gets the lock first. -/
theorem not_preferred :
    ¬ Preferred (threads functions (fun t : Fin 3 => if t = 1 then .reader else .writer) False)
      (fun t => if t = 1 then .reader else .writer) := by
  intro hpref
  let role : Fin 3 → Role := fun t => if t = 1 then .reader else .writer
  have h₀ : (threads functions role False).Reachable ⟨⟨0⟩, fun _ => .run .idle⟩ :=
    .init ⟨⟨⟨0⟩, rfl⟩, fun _ => rfl⟩
  have h₁ := h₀.step (.turn (t := 0) rfl List.mem_cons_self .nil)
  have h₂ := h₁.step (.turn (t := 1) rfl List.mem_cons_self .nil)
  refine absurd (hpref _ 1 _ h₂ rfl rfl (.step (.step .refl (.turn (t := 0) rfl List.mem_cons_self
    (.broadcast (.lost ?_ .nil))) ?_) (.turn (t := 2) rfl List.mem_cons_self .nil) ?_) 2 rfl rfl) ?_
  · intro t p ht
    fin_cases t <;> cases ht
  · nofun
  · nofun
  · nofun

/-- Writers test the counter, and find it 0, only when no woken reader has yet to test it. -/
def ReadersTestFirst (role : T → Role) (s : Config T read_write_lock Cond Loc) (l : Label T)
    (s' : Config T read_write_lock Cond Loc) : Prop :=
  ∀ w, l = .turn w → role w = .writer →
    (s.thread w = .run .idle ∧ s'.thread w ≠ .run .finished) ∨ s.thread w = .run .loop →
    s.shared.resource_cnt = 0 → ∀ r, role r = .reader → s.thread r ≠ .run .loop

variable {s s' : Config T read_write_lock Cond Loc} {l : Label T}

omit [DecidableEq T] in
theorem readersTestFirst_of_reader {t : T} (ht : role t = .reader) :
    ReadersTestFirst role s (.turn t) s' := by
  rintro w ⟨⟩ hw
  rw [ht] at hw
  cases hw

omit [DecidableEq T] in
theorem readersTestFirst_of_holding {t : T} (ht : s.thread t = .run .holding) :
    ReadersTestFirst role s (.turn t) s' := by
  rintro w ⟨⟩ - htest
  rw [ht] at htest
  rcases htest with ⟨hidle, -⟩ | hloop
  · cases hidle
  · cases hloop

variable [Fintype T]

/-- While a reader waits, no writer is admitted in a step in which the readers test first. -/
theorem no_writer_admitted (hs : (threads functions role spurious).Reachable s) {r : T}
    (hr : role r = .reader) (hwaits : Waits s.thread r)
    (hstep : (threads functions role spurious).step s l s') (hfirst : ReadersTestFirst role s l s')
    {w : T} (hw : role w = .writer) (hhold : s'.thread w = .run .holding) :
    s.thread w = .run .holding := by
  rcases holding_of_step guards hs hstep hhold with hold | ⟨rfl, o, ho, hsection⟩
  · exact hold
  · -- the section of `WriterLock` that admits `w` finds the counter 0
    have ho' : o = WriterLock s.shared := by
      rcases hsection with ⟨-, ho⟩ | ⟨-, ho⟩
      · rw [ho, hw]; rfl
      · rw [ho, hw]; rfl
    have hzero : s.shared.resource_cnt = 0 := by
      by_contra hne
      rw [ho', WriterLock, if_pos hne] at ho
      cases ho
    rcases hwaits with ⟨c, p, hsleep⟩ | hloop
    · -- a reader sleeps only while a writer holds the lock
      obtain ⟨rfl, rfl⟩ := asleep_at_loop guards hs hsleep
      rw [hr] at hsleep
      rcases (awaited hs).reader r _ hsleep with ⟨u, hu, hold⟩ | hno
      · have hneg := (exclusive_of_reachable guards hs).neg_of_writer hu hold
        rw [hzero] at hneg
        cases hneg
      · exact hno.elim
    · refine absurd hloop (hfirst w rfl hw ?_ hzero r hr)
      rcases hsection with ⟨hidle, -⟩ | ⟨hloop, -⟩
      · refine Or.inl ⟨hidle, ?_⟩
        simp [hhold]
      · exact Or.inr hloop

/-- Where woken readers test the counter before writers, readers are preferred. -/
theorem preferred_of_readers_test_first (role : T → Role) (spurious : Prop) :
    Preferred ((threads functions role spurious).restrict (ReadersTestFirst role)) role := by
  intro s r s' hs hr hsleep hu
  have hwaits : ∀ s', ((threads functions role spurious).restrict
      (ReadersTestFirst role)).Until (fun s => s.thread r = .run .holding) s s' →
      Waits s'.thread r := by
    intro s' hu
    exact waits_until guards hs.of_restrict (Or.inl ⟨_, _, hsleep⟩) hu.of_restrict
  induction hu with
  | refl =>
    intro w _ hhold
    exact hhold
  | step hu hstep _ ih =>
    intro w hw hhold
    refine ih w hw ?_
    exact no_writer_admitted (hs.until hu).of_restrict hr (hwaits _ hu) hstep.1 hstep.2 hw hhold

/-- A reader and a writer wait for another writer, which wakes both; the reader tests first, and
gets the lock. -/
theorem preferred_of_readers_test_first_admitted :
    ∃ s s' : Config (Fin 3) read_write_lock Cond Loc,
      ((threads functions (fun t => if t = 1 then .reader else .writer) False).restrict
        (ReadersTestFirst fun t => if t = 1 then .reader else .writer)).Reachable s' ∧
      s.thread 1 = .asleep .read_phase .loop ∧ s.thread 2 = .asleep .write_phase .loop ∧
      ((threads functions (fun t => if t = 1 then .reader else .writer) False).restrict
        (ReadersTestFirst fun t => if t = 1 then .reader else .writer)).Until
          (fun s => s.thread 1 = .run .holding) s s' ∧
      s'.thread 2 = .run .loop ∧ s'.thread 2 ≠ .run .holding ∧
      ∃ s'', ((threads functions (fun t => if t = 1 then .reader else .writer) False).restrict
        (ReadersTestFirst fun t => if t = 1 then .reader else .writer)).step s' (.turn 1) s'' ∧
          s''.thread 1 = .run .holding := by
  let role : Fin 3 → Role := fun t => if t = 1 then .reader else .writer
  have h₀ : ((threads functions role False).restrict (ReadersTestFirst role)).Reachable
      ⟨⟨0⟩, fun _ => .run .idle⟩ := .init ⟨⟨⟨0⟩, rfl⟩, fun _ => rfl⟩
  have h₁ := h₀.step ⟨.turn (t := 0) rfl List.mem_cons_self .nil, fun _ _ _ _ _ _ _ => nofun⟩
  have h₂ := h₁.step ⟨.turn (t := 1) rfl List.mem_cons_self .nil, readersTestFirst_of_reader rfl⟩
  have h₃ := h₂.step ⟨.turn (t := 2) rfl List.mem_cons_self .nil, fun _ _ _ _ => nofun⟩
  let s₃ : Config (Fin 3) read_write_lock Cond Loc := ⟨⟨-1⟩, Function.update (Function.update
    (Function.update (fun _ => .run .idle) 0 (.run .holding)) 1 (.asleep .read_phase .loop)) 2
      (.asleep .write_phase .loop)⟩
  have h₃ : ((threads functions role False).restrict (ReadersTestFirst role)).Reachable s₃ := h₃
  have s₄ : ((threads functions role False).restrict (ReadersTestFirst role)).step s₃ (.turn 0) _ :=
    ⟨.turn (t := 0) rfl List.mem_cons_self (.broadcast (.signal (t := 2) rfl .nil)),
      readersTestFirst_of_holding rfl⟩
  have hu : ((threads functions role False).restrict (ReadersTestFirst role)).Until
      (fun s => s.thread 1 = .run .holding) s₃ _ := .step .refl s₄ nofun
  refine ⟨s₃, _, h₃.step s₄, rfl, rfl, hu, rfl, fun hhold => ?_, ?_⟩
  · have hold := preferred_of_readers_test_first role False s₃ 1 _ h₃ rfl rfl hu 2 rfl hhold
    cases hold
  · exact ⟨_, ⟨.turn (t := 1) rfl List.mem_cons_self .nil, readersTestFirst_of_reader rfl⟩, rfl⟩

end ReaderPref

/-! ## Starvation -/

/-- `Overtaken A role x n s s'`: in a run of `A` from `s` to `s'`, in which `x` never ceases to wait,
`n` times a thread of the other role gets the lock. -/
inductive Overtaken (A : LTS (Config T S Cond Loc) (Label T)) (role : T → Role) (x : T) :
    ℕ → Config T S Cond Loc → Config T S Cond Loc → Prop
  | refl {a} : Overtaken A role x 0 a a
  | step {n a b k c} : Overtaken A role x n a b → A.step b k c → Waits c.thread x →
      Overtaken A role x n a c
  | overtake {n a b k c y} : Overtaken A role x n a b → A.step b k c → Waits c.thread x →
      role y ≠ role x → b.thread y ≠ .run .holding → c.thread y = .run .holding →
      Overtaken A role x (n + 1) a c

omit [DecidableEq T] in
/-- A thread that can be overtaken once more in the states with the property `P`, which lead to such
states again, can be overtaken any number of times. -/
theorem Overtaken.exists {A : LTS (Config T S Cond Loc) (Label T)} {x : T}
    {P : Config T S Cond Loc → Prop} (hs : P s)
    (hagain : ∀ n s', Overtaken A role x n s s' → P s' →
      ∃ s'', Overtaken A role x (n + 1) s s'' ∧ P s'') (n : ℕ) :
    ∃ s', Overtaken A role x n s s' := by
  have hmany : ∃ s', Overtaken A role x n s s' ∧ P s' := by
    induction n with
    | zero => exact ⟨s, .refl, hs⟩
    | succ n ih =>
      obtain ⟨s', h, hs'⟩ := ih
      exact hagain n s' h hs'
  obtain ⟨s', h, -⟩ := hmany
  exact ⟨s', h⟩

omit [DecidableEq T] in
theorem ne_of_role {t u : T} {r r' : Role} (ht : role t = r) (hu : role u = r') (hr : r ≠ r') :
    t ≠ u := by
  rintro rfl
  exact hr (ht.symm.trans hu)

variable (F role) in
theorem turn_exists {t : T} {p : Loc} {o : Section S} {g : T → Thread Cond Loc}
    (ht : s.thread t = .run p) (ho : o ∈ client F role t p s.shared)
    (hw : Wakes o.wakes s.thread g) :
    ∃ s', (threads F role spurious).step s (.turn t) s' ∧ s'.shared = o.shared ∧
      s'.thread = Function.update g t o.thread :=
  ⟨_, .turn ht ho hw, rfl, rfl⟩

/-- A reader holds the lock, a writer waits for it, and another reader is about to call `Lock`. -/
structure ReaderPref.Starves (r₁ r₂ w : T) (s : Config T read_write_lock Cond Loc) : Prop where
  cnt : s.shared.resource_cnt = 1
  holder : s.thread r₁ = .run .holding
  next : s.thread r₂ = .run .idle
  sleeper : s.thread w = .asleep .write_phase .loop

/-- The second reader gets the lock before the first one gives it back, and the writer sleeps on. -/
theorem ReaderPref.Starves.again {r₁ r₂ w : T} (hr₁ : role r₁ = .reader) (hr₂ : role r₂ = .reader)
    (hw : role w = .writer) {s₀ s : Config T read_write_lock Cond Loc} {n : ℕ}
    (h : Overtaken (threads functions role False) role w n s₀ s) (hs : Starves r₁ r₂ w s) :
    ∃ s', Overtaken (threads functions role False) role w (n + 1) s₀ s' ∧ Starves r₂ r₁ w s' := by
  have hne : r₁ ≠ r₂ := by
    rintro rfl
    have := hs.holder.symm.trans hs.next
    cases this
  have hw₁ : w ≠ r₁ := ne_of_role hw hr₁ (by decide)
  have hw₂ : w ≠ r₂ := ne_of_role hw hr₂ (by decide)
  have hlock : functions.Lock (role r₂) s.shared = unlock ⟨2⟩ [] .holding := by
    rw [hr₂]
    change ReaderLock s.shared = _
    rw [ReaderLock, hs.cnt, if_neg (by decide)]
    rfl
  have hunlock : functions.Unlock (role r₁) ⟨2⟩ = unlock ⟨1⟩ [] .idle := by
    rw [hr₁]
    rfl
  -- the second reader
  obtain ⟨s₁, hstep₁, hshared₁, hthread₁⟩ := turn_exists functions role (p := .idle)
    (o := unlock ⟨2⟩ [] .holding) hs.next (List.mem_cons.2 (Or.inl hlock.symm)) .nil
  have hsleep₁ : s₁.thread w = .asleep .write_phase .loop := by
    rw [hthread₁, Function.update_of_ne hw₂, hs.sleeper]
  have hhold₁ : s₁.thread r₂ = .run .holding := by
    rw [hthread₁, Function.update_self]
    rfl
  -- the first reader
  obtain ⟨s₂, hstep₂, hshared₂, hthread₂⟩ := turn_exists functions role (s := s₁) (t := r₁)
    (p := .holding) (o := unlock ⟨1⟩ [] .idle) (by rw [hthread₁, Function.update_of_ne hne, hs.holder])
    (List.mem_singleton.2 (by rw [hshared₁]; exact hunlock.symm)) .nil
  have hsleep₂ : s₂.thread w = .asleep .write_phase .loop := by
    rw [hthread₂, Function.update_of_ne hw₁, hsleep₁]
  refine ⟨s₂, (h.overtake hstep₁ (Or.inl ⟨_, _, hsleep₁⟩) (y := r₂) (by rw [hr₂, hw]; decide)
    (by rw [hs.next]; rintro ⟨⟩) hhold₁).step hstep₂ (Or.inl ⟨_, _, hsleep₂⟩), ?_, ?_, ?_, hsleep₂⟩
  · rw [hshared₂]
    rfl
  · rw [hthread₂, Function.update_of_ne hne.symm, hhold₁]
  · rw [hthread₂, Function.update_self]
    rfl

/-- A writer holds the lock, a reader waits for it, and another writer is about to call `Lock`. -/
structure WriterPref.Starves (w₁ w₂ r : T) (s : Config T Shared Cond Loc) : Prop where
  cnt : s.shared = ⟨⟨-1⟩, 0⟩
  holder : s.thread w₁ = .run .holding
  next : s.thread w₂ = .run .idle
  sleeper : s.thread r = .asleep .read_phase .loop

/-- The second writer joins the queue before the first one gives the lock back, which then wakes no
reader. -/
theorem WriterPref.Starves.again {w₁ w₂ r : T} (hw₁ : role w₁ = .writer) (hw₂ : role w₂ = .writer)
    (hr : role r = .reader) {s₀ s : Config T Shared Cond Loc} {n : ℕ}
    (h : Overtaken (threads functions role False) role r n s₀ s) (hs : Starves w₁ w₂ r s) :
    ∃ s', Overtaken (threads functions role False) role r (n + 1) s₀ s' ∧ Starves w₂ w₁ r s' := by
  have hne : w₁ ≠ w₂ := by
    rintro rfl
    have := hs.holder.symm.trans hs.next
    cases this
  have hr₁ : r ≠ w₁ := ne_of_role hr hw₁ (by decide)
  have hr₂ : r ≠ w₂ := ne_of_role hr hw₂ (by decide)
  have hlock : functions.Lock (role w₂) s.shared = wait ⟨⟨-1⟩, 1⟩ .write_phase := by
    rw [hw₂, hs.cnt]
    rfl
  have hunlock : functions.Unlock (role w₁) ⟨⟨-1⟩, 1⟩ =
      unlock ⟨⟨0⟩, 1⟩ [.signal .write_phase] .idle := by
    rw [hw₁]
    rfl
  have hloop : functions.Loop (role w₂) ⟨⟨0⟩, 1⟩ = unlock ⟨⟨-1⟩, 0⟩ [] .holding := by
    rw [hw₂]
    rfl
  -- the second writer goes to sleep
  obtain ⟨s₁, hstep₁, hshared₁, hthread₁⟩ := turn_exists functions role (p := .idle)
    (o := wait ⟨⟨-1⟩, 1⟩ .write_phase) hs.next (List.mem_cons.2 (Or.inl hlock.symm)) .nil
  have hsleep₁ : s₁.thread r = .asleep .read_phase .loop := by
    rw [hthread₁, Function.update_of_ne hr₂, hs.sleeper]
  -- the first writer wakes it
  obtain ⟨s₂, hstep₂, hshared₂, hthread₂⟩ := turn_exists functions role (s := s₁) (t := w₁)
    (p := .holding) (o := unlock ⟨⟨0⟩, 1⟩ [.signal .write_phase] .idle)
    (by rw [hthread₁, Function.update_of_ne hne, hs.holder])
    (List.mem_singleton.2 (by rw [hshared₁]; exact hunlock.symm))
    (.signal (t := w₂) (by rw [hthread₁, Function.update_self]; rfl) .nil)
  have hsleep₂ : s₂.thread r = .asleep .read_phase .loop := by
    rw [hthread₂, Function.update_of_ne hr₁, Function.update_of_ne hr₂, hsleep₁]
  have hloop₂ : s₂.thread w₂ = .run .loop := by
    rw [hthread₂, Function.update_of_ne hne.symm, Function.update_self]
  have hidle₂ : s₂.thread w₁ = .run .idle := by
    rw [hthread₂, Function.update_self]
    rfl
  -- and it gets the lock
  obtain ⟨s₃, hstep₃, hshared₃, hthread₃⟩ := turn_exists functions role (s := s₂)
    (p := .loop) (o := unlock ⟨⟨-1⟩, 0⟩ [] .holding) hloop₂
    (List.mem_singleton.2 (by rw [hshared₂]; exact hloop.symm)) .nil
  have hsleep₃ : s₃.thread r = .asleep .read_phase .loop := by
    rw [hthread₃, Function.update_of_ne hr₂, hsleep₂]
  have hhold₃ : s₃.thread w₂ = .run .holding := by
    rw [hthread₃, Function.update_self]
    rfl
  refine ⟨s₃, ((h.step hstep₁ (Or.inl ⟨_, _, hsleep₁⟩)).step hstep₂ (Or.inl ⟨_, _, hsleep₂⟩)).overtake
    hstep₃ (Or.inl ⟨_, _, hsleep₃⟩) (y := w₂) (by rw [hw₂, hr]; decide)
    (by rw [hloop₂]; nofun) hhold₃, ?_, hhold₃, ?_, hsleep₃⟩
  · rw [hshared₃]
    rfl
  · rw [hthread₃, Function.update_of_ne hne, hidle₂]

/-- Either lock starves threads: a writer that waits for the lock that prefers readers can be
overtaken by two readers any number of times, and a reader that waits for the lock that prefers
writers by two writers. -/
theorem starvation (role : T → Role) :
    (∀ r₁ r₂ w, r₁ ≠ r₂ → role r₁ = .reader → role r₂ = .reader → role w = .writer → ∀ n, ∃ s s',
      (threads ReaderPref.functions role False).Reachable s ∧ Waits s.thread w ∧
        Overtaken (threads ReaderPref.functions role False) role w n s s') ∧
    ∀ w₁ w₂ r, w₁ ≠ w₂ → role w₁ = .writer → role w₂ = .writer → role r = .reader → ∀ n, ∃ s s',
      (threads WriterPref.functions role False).Reachable s ∧ Waits s.thread r ∧
        Overtaken (threads WriterPref.functions role False) role r n s s' := by
  constructor
  · intro r₁ r₂ w hne hr₁ hr₂ hw n
    have hw₁ : w ≠ r₁ := ne_of_role hw hr₁ (by decide)
    have hw₂ : w ≠ r₂ := ne_of_role hw hr₂ (by decide)
    -- a reader gets the lock, and the writer goes to sleep
    have h₀ : (threads ReaderPref.functions role False).Reachable ⟨⟨0⟩, fun _ => .run .idle⟩ :=
      .init ⟨⟨⟨0⟩, rfl⟩, fun _ => rfl⟩
    obtain ⟨s₁, hstep₁, hshared₁, hthread₁⟩ := turn_exists ReaderPref.functions role
      (s := ⟨⟨0⟩, fun _ => .run .idle⟩) (t := r₁) (p := .idle)
      (o := unlock ⟨1⟩ [] .holding) rfl (List.mem_cons.2 (Or.inl (by rw [hr₁]; rfl))) .nil
    obtain ⟨s₂, hstep₂, hshared₂, hthread₂⟩ := turn_exists ReaderPref.functions role
      (s := s₁) (t := w) (p := .idle) (o := wait ⟨1⟩ .write_phase)
      (by rw [hthread₁, Function.update_of_ne hw₁])
      (List.mem_cons.2 (Or.inl (by rw [hw, hshared₁]; rfl))) .nil
    have hs : ReaderPref.Starves r₁ r₂ w s₂ := by
      constructor
      · rw [hshared₂]
        rfl
      · rw [hthread₂, Function.update_of_ne hw₁.symm, hthread₁, Function.update_self]
        rfl
      · rw [hthread₂, Function.update_of_ne hw₂.symm, hthread₁, Function.update_of_ne hne.symm]
      · rw [hthread₂, Function.update_self]
        rfl
    obtain ⟨s', h⟩ := Overtaken.exists (P := fun s => ReaderPref.Starves r₁ r₂ w s ∨
        ReaderPref.Starves r₂ r₁ w s) (Or.inl hs) (by
      rintro n s' h (hs' | hs')
      · obtain ⟨s'', h, hs''⟩ := hs'.again hr₁ hr₂ hw h
        exact ⟨s'', h, Or.inr hs''⟩
      · obtain ⟨s'', h, hs''⟩ := hs'.again hr₂ hr₁ hw h
        exact ⟨s'', h, Or.inl hs''⟩) n
    exact ⟨s₂, s', (h₀.step hstep₁).step hstep₂, Or.inl ⟨_, _, hs.sleeper⟩, h⟩
  · intro w₁ w₂ r hne hw₁ hw₂ hr n
    have hr₁ : r ≠ w₁ := ne_of_role hr hw₁ (by decide)
    have hr₂ : r ≠ w₂ := ne_of_role hr hw₂ (by decide)
    -- a writer gets the lock, and the reader goes to sleep
    have h₀ : (threads WriterPref.functions role False).Reachable
        ⟨⟨⟨0⟩, 0⟩, fun _ => .run .idle⟩ := .init ⟨⟨⟨⟨0⟩, rfl⟩, rfl⟩, fun _ => rfl⟩
    obtain ⟨s₁, hstep₁, hshared₁, hthread₁⟩ := turn_exists WriterPref.functions role
      (s := ⟨⟨⟨0⟩, 0⟩, fun _ => .run .idle⟩) (t := w₁)
      (p := .idle) (o := unlock ⟨⟨-1⟩, 0⟩ [] .holding) rfl (List.mem_cons.2 (Or.inl (by rw [hw₁]; rfl))) .nil
    obtain ⟨s₂, hstep₂, hshared₂, hthread₂⟩ := turn_exists WriterPref.functions role
      (s := s₁) (t := r) (p := .idle)
      (o := wait ⟨⟨-1⟩, 0⟩ .read_phase) (by rw [hthread₁, Function.update_of_ne hr₁])
      (List.mem_cons.2 (Or.inl (by rw [hr, hshared₁]; rfl))) .nil
    have hs : WriterPref.Starves w₁ w₂ r s₂ := by
      constructor
      · rw [hshared₂]
        rfl
      · rw [hthread₂, Function.update_of_ne hr₁.symm, hthread₁, Function.update_self]
        rfl
      · rw [hthread₂, Function.update_of_ne hr₂.symm, hthread₁, Function.update_of_ne hne.symm]
      · rw [hthread₂, Function.update_self]
        rfl
    obtain ⟨s', h⟩ := Overtaken.exists (P := fun s => WriterPref.Starves w₁ w₂ r s ∨
        WriterPref.Starves w₂ w₁ r s) (Or.inl hs) (by
      rintro n s' h (hs' | hs')
      · obtain ⟨s'', h, hs''⟩ := hs'.again hw₁ hw₂ hr h
        exact ⟨s'', h, Or.inr hs''⟩
      · obtain ⟨s'', h, hs''⟩ := hs'.again hw₂ hw₁ hr h
        exact ⟨s'', h, Or.inl hs''⟩) n
    exact ⟨s₂, s', (h₀.step hstep₁).step hstep₂, Or.inl ⟨_, _, hs.sleeper⟩, h⟩

/-- A writer that five readers overtake. -/
theorem starvation_writer : ∃ s s' : Config (Fin 3) read_write_lock Cond Loc,
    Waits s.thread 2 ∧ Overtaken (threads ReaderPref.functions
      (fun t => if t = 2 then .writer else .reader) False)
      (fun t => if t = 2 then .writer else .reader) 2 5 s s' := by
  obtain ⟨s, s', -, hw, h⟩ := (starvation fun t : Fin 3 => if t = 2 then .writer else .reader).1
    0 1 2 (by decide) rfl rfl rfl 5
  exact ⟨s, s', hw, h⟩

end RWLock

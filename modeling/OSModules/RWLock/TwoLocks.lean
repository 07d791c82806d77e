/-
  Two locks of `rwlock-writer-pref.cpp` in one process. Each has its counter and its
  condition variables, but both count their waiting writers in the global `waiting_writers`.
-/
import OSModules.RWLock.WriterPref

namespace RWLock.WriterPref

open Runs Monitor

/-- The two locks. -/
inductive Obj
  | A
  | B
  deriving DecidableEq

/-- The locks of the process and its global. -/
structure Process where
  rw : Obj → read_write_lock
  waiting_writers : ℤ

/-- A thread chooses the lock that it calls next, or is in a call; `loc k` is where it is with the
lock `k`. -/
inductive Place
  | choose (loc : Obj → Loc)
  | call (k : Obj) (loc : Obj → Loc)

def Place.loc : Place → Obj → Loc
  | choose loc => loc
  | call _ loc => loc

/-- A thread that calls a lock unlocks it if it holds it, and else locks it. -/
def operation (r : Role) : Loc → Shared → List (Section Shared)
  | .idle, s => [functions.Lock r s]
  | .loop, s => [functions.Loop r s]
  | .holding, s => [functions.Unlock r s]
  | .finished, _ => []

/-- What becomes of a thread, in the process. -/
def embed (k : Obj) (loc : Obj → Loc) : Thread Cond Loc → Thread (Obj × Cond) Place
  | .run q => .run (.choose (Function.update loc k q))
  | .asleep c q => .asleep (k, c) (.call k (Function.update loc k q))

def own (k : Obj) : Wake Cond → Wake (Obj × Cond)
  | .signal c => .signal (k, c)
  | .broadcast c => .broadcast (k, c)

/-- A section of the lock `k`, in the process. -/
def onLock (s : Process) (k : Obj) (loc : Obj → Loc) (o : Section Shared) :
    Outcome Process (Obj × Cond) Place where
  shared := ⟨Function.update s.rw k o.shared.rw, o.shared.waiting_writers⟩
  wakes := o.wakes.map (own k)
  thread := embed k loc o.thread

variable {T : Type}

/-- A thread is a reader or a writer of each lock, and calls the locks in any order. -/
def calls (role : Obj → T → Role) : Code T Process (Obj × Cond) Place
  | _, .choose loc, s => [⟨s, [], .run (.call .A loc)⟩, ⟨s, [], .run (.call .B loc)⟩]
  | t, .call k loc, s => (operation (role k t) (loc k) ⟨s.rw k, s.waiting_writers⟩).map (onLock s k loc)

variable [DecidableEq T]

def process (role : Obj → T → Role) (spurious : Prop) :
    LTS (Config T Process (Obj × Cond) Place) (Label T) :=
  system (fun s => (∀ k, ∃ rw₀, s.rw k = InitalizeReadWriteLock rw₀) ∧ s.waiting_writers = 0)
    (.choose fun _ => .idle) (calls role) spurious

/-! ## One lock of the process -/

/-- What a thread does with the lock `k`. -/
def view (k : Obj) : Thread (Obj × Cond) Place → Thread Cond Loc
  | .run p => .run (p.loc k)
  | .asleep (k', c) p => if k' = k then .asleep c (p.loc k) else .run (p.loc k)

/-- A step is a step with the lock `k`. -/
def concerns (k : Obj) (x : Config T Process (Obj × Cond) Place × Label T) : Bool :=
  match x.2 with
  | .turn t => match x.1.thread t with
    | .run (.call k' _) => k' = k
    | _ => false
  | .spurious t => match x.1.thread t with
    | .asleep (k', _) _ => k' = k
    | _ => false

/-- The sections that test `waiting_writers`. -/
def TestsWriters : Role → Loc → read_write_lock → Prop
  | .reader, p, rw => (p = .idle ∨ p = .loop) ∧ rw.resource_cnt ≠ -1
  | .writer, p, _ => p = .holding

/-- If a section of the lock `k` tests `waiting_writers`, then it is positive only if a writer waits
for `k`. -/
def OwnWriters (role : Obj → T → Role) (s : Config T Process (Obj × Cond) Place) (l : Label T) :
    Prop :=
  ∀ t k loc, l = .turn t → s.thread t = .run (.call k loc) →
    TestsWriters (role k t) (loc k) (s.shared.rw k) →
    (0 < s.shared.waiting_writers ↔ ∃ w, role k w = .writer ∧
      (view k (s.thread w) = .asleep .write_phase .loop ∨ view k (s.thread w) = .run .loop))

variable {role : Obj → T → Role} {spurious : Prop}

omit [DecidableEq T] in
theorem operation_sub {r : Role} {p : Loc} {s : Shared} {t : T} {role : T → Role}
    (hr : role t = r) {o : Section Shared} (ho : o ∈ operation r p s) :
    o ∈ client functions role t p s := by
  subst hr
  cases p with
  | idle => exact List.mem_cons.2 (Or.inl (List.mem_singleton.1 ho))
  | loop => exact ho
  | holding => exact ho
  | finished => exact ho

/-- Two sections do the same but for `waiting_writers`. -/
def Same (o o' : Section Shared) : Prop :=
  o'.shared.rw = o.shared.rw ∧ o'.wakes = o.wakes ∧ o'.thread = o.thread

theorem same_ReaderLock {rw : read_write_lock} {n m : ℤ}
    (h : rw.resource_cnt ≠ -1 → (0 < n ↔ 0 < m)) :
    Same (ReaderLock ⟨rw, n⟩) (ReaderLock ⟨rw, m⟩) := by
  by_cases hcnt : rw.resource_cnt = -1
  · simp [Same, ReaderLock, hcnt, wait]
  · by_cases hn : 0 < n
    · simp [Same, ReaderLock, hn, (h hcnt).1 hn, wait]
    · simp [Same, ReaderLock, hcnt, hn, mt (h hcnt).2 hn, unlock]

theorem same_WriterLock_loop (rw : read_write_lock) (n m : ℤ) :
    Same (WriterLock_loop ⟨rw, n⟩) (WriterLock_loop ⟨rw, m⟩) := by
  by_cases hcnt : rw.resource_cnt = 0
  · simp [Same, WriterLock_loop, hcnt, unlock]
  · simp [Same, WriterLock_loop, hcnt, wait]

theorem same_WriterUnlock {rw : read_write_lock} {n m : ℤ} (h : 0 < n ↔ 0 < m) :
    Same (WriterUnlock ⟨rw, n⟩) (WriterUnlock ⟨rw, m⟩) := by
  simp [Same, WriterUnlock, unlock, h]

/-- What a section does does not depend on how many writers wait, but on whether some do. -/
theorem operation_congr {r : Role} {p : Loc} {rw : read_write_lock} {n m : ℤ}
    (htests : TestsWriters r p rw → (0 < n ↔ 0 < m)) {o : Section Shared}
    (ho : o ∈ operation r p ⟨rw, n⟩) : ∃ o' ∈ operation r p ⟨rw, m⟩, Same o o' := by
  cases p with
  | idle =>
    obtain rfl := List.mem_singleton.1 ho
    refine ⟨_, List.mem_singleton.2 rfl, ?_⟩
    cases r with
    | reader => exact same_ReaderLock fun h => htests ⟨Or.inl rfl, h⟩
    | writer => exact same_WriterLock_loop rw (n + 1) (m + 1)
  | loop =>
    obtain rfl := List.mem_singleton.1 ho
    refine ⟨_, List.mem_singleton.2 rfl, ?_⟩
    cases r with
    | reader => exact same_ReaderLock fun h => htests ⟨Or.inr rfl, h⟩
    | writer => exact same_WriterLock_loop rw n m
  | holding =>
    obtain rfl := List.mem_singleton.1 ho
    refine ⟨_, List.mem_singleton.2 rfl, ?_⟩
    cases r with
    | reader => exact ⟨rfl, rfl, rfl⟩
    | writer => exact same_WriterUnlock (htests rfl)
  | finished => exact absurd ho List.not_mem_nil

/-! ## What signals do to one lock -/

variable {f g : T → Thread (Obj × Cond) Place} {ws : List (Wake Cond)}

theorem view_embed (k : Obj) (loc : Obj → Loc) (x : Thread Cond Loc) :
    view k (embed k loc x) = x := by
  cases x with
  | run q => simp [embed, view, Place.loc]
  | asleep c q => simp [embed, view, Place.loc]

theorem view_embed_of_ne {k k' : Obj} (hk : k' ≠ k) (loc : Obj → Loc) (x : Thread Cond Loc) :
    view k (embed k' loc x) = .run (loc k) := by
  cases x with
  | run q => simp [embed, view, Place.loc, hk.symm]
  | asleep c q => simp [embed, view, Place.loc, hk, hk.symm]

theorem view_update (k : Obj) (f : T → Thread (Obj × Cond) Place) (t : T)
    (x : Thread (Obj × Cond) Place) :
    (fun u => view k (Function.update f t x u)) =
      Function.update (fun u => view k (f u)) t (view k x) :=
  Function.comp_update (view k) f t x

theorem view_woken (k : Obj) (c : Cond) (x : Thread (Obj × Cond) Place) :
    view k (x.woken (k, c)) = (view k x).woken c := by
  cases x with
  | run p => rfl
  | asleep d p =>
    obtain ⟨k', d⟩ := d
    by_cases hk : k' = k
    · subst hk
      by_cases hd : d = c
      · simp [Thread.woken, view, hd]
      · simp [Thread.woken, view, hd]
    · simp [Thread.woken, view, hk]

theorem view_woken_of_ne {k k' : Obj} (hk : k' ≠ k) (c : Cond) (x : Thread (Obj × Cond) Place) :
    view k (x.woken (k', c)) = view k x := by
  cases x with
  | run p => rfl
  | asleep d p =>
    obtain ⟨k'', d⟩ := d
    by_cases hd : (k'', d) = (k', c)
    · cases hd
      simp [Thread.woken, view, hk]
    · simp [Thread.woken, hd]

/-- In view of the lock `k`, the signals of `k` are signals. -/
theorem view_wakes {k : Obj} (h : Wakes (ws.map (own k)) f g) :
    Wakes ws (fun t => view k (f t)) (fun t => view k (g t)) := by
  generalize hws : ws.map (own k) = ws' at h
  induction h generalizing ws with
  | nil =>
    obtain rfl := List.map_eq_nil_iff.1 hws
    exact .nil
  | @signal c ws' f g t p ht _ ih =>
    obtain ⟨w, ws, rfl, hw, rfl⟩ := List.map_eq_cons_iff.1 hws
    cases w with
    | broadcast => cases hw
    | signal c =>
      cases hw
      have hview : view k (f t) = .asleep c (p.loc k) := by rw [ht, view, if_pos rfl]
      refine .signal (t := t) hview ?_
      have ih := ih rfl
      rwa [view_update] at ih
  | @lost c ws' f g hno _ ih =>
    obtain ⟨w, ws, rfl, hw, rfl⟩ := List.map_eq_cons_iff.1 hws
    cases w with
    | broadcast => cases hw
    | signal c =>
      cases hw
      refine .lost ?_ (ih rfl)
      intro t p ht
      cases hft : f t with
      | run q => rw [hft] at ht; cases ht
      | asleep d q =>
        obtain ⟨k', d⟩ := d
        rw [hft, view] at ht
        split at ht
        · next hk =>
          cases ht
          subst hk
          exact hno t q hft
        · cases ht
  | @broadcast c ws' f g _ ih =>
    obtain ⟨w, ws, rfl, hw, rfl⟩ := List.map_eq_cons_iff.1 hws
    cases w with
    | signal => cases hw
    | broadcast c =>
      cases hw
      refine .broadcast ?_
      have ih := ih rfl
      simpa only [view_woken] using ih

/-- In view of the lock `k`, the signals of another lock do nothing. -/
theorem view_wakes_of_ne {k k' : Obj} (hk : k' ≠ k) (h : Wakes (ws.map (own k')) f g) :
    (fun t => view k (g t)) = fun t => view k (f t) := by
  generalize hws : ws.map (own k') = ws' at h
  induction h generalizing ws with
  | nil => rfl
  | @signal c ws' f g t p ht _ ih =>
    obtain ⟨w, ws, rfl, hw, rfl⟩ := List.map_eq_cons_iff.1 hws
    cases w with
    | broadcast => cases hw
    | signal c =>
      cases hw
      have hview : view k (f t) = view k (.run p) := by
        rw [ht]
        exact if_neg hk
      rw [ih rfl, view_update, ← hview]
      exact Function.update_eq_self t fun u => view k (f u)
  | lost _ _ ih =>
    obtain ⟨w, ws, rfl, -, rfl⟩ := List.map_eq_cons_iff.1 hws
    exact ih rfl
  | @broadcast c ws' f g _ ih =>
    obtain ⟨w, ws, rfl, hw, rfl⟩ := List.map_eq_cons_iff.1 hws
    cases w with
    | signal => cases hw
    | broadcast c =>
      cases hw
      rw [ih rfl]
      funext t
      exact view_woken_of_ne hk c (f t)

/-! ## Runs -/

/-- A step that concerns the lock `k` is a step of `k` alone, if the writers it counts are those of
`k`. -/
theorem alone_step {k : Obj} {s s' : Config T Process (Obj × Cond) Place} {l : Label T}
    (hstep : (process role spurious).step s l s') (hk : concerns k (s, l)) (hown : OwnWriters role s l)
    {c : Config T Shared Cond Loc} (hrw : c.shared.rw = s.shared.rw k)
    (hthread : c.thread = fun t => view k (s.thread t))
    (hqueue : Queue c.shared ↔ ∃ w, role k w = .writer ∧
      (c.thread w = .asleep .write_phase .loop ∨ c.thread w = .run .loop)) :
    ∃ c', (threads functions (role k) spurious).step c l c' ∧ c'.shared.rw = s'.shared.rw k ∧
      c'.thread = fun t => view k (s'.thread t) := by
  obtain ⟨⟨rw, n⟩, f⟩ := c
  subst hrw hthread
  cases hstep with
  | @turn t p o g ht ho hw =>
    cases p with
    | choose loc => simp [concerns, ht] at hk
    | call k' loc =>
      obtain rfl : k' = k := by simpa [concerns, ht] using hk
      obtain ⟨o, hop, rfl⟩ := List.mem_map.1 ho
      obtain ⟨o', ho', hrw, hwakes, hthread⟩ := operation_congr
        (fun htests => (hown t k' loc rfl ht htests).trans hqueue.symm) hop
      refine ⟨_, .turn (t := t) (p := loc k') (congrArg (view k') ht) (operation_sub rfl ho')
        (hwakes ▸ view_wakes hw), ?_, ?_⟩
      · simp [onLock, hrw]
      · simp only [view_update, onLock, view_embed, hthread]
  | @spurious t d p hsp ht =>
    obtain ⟨k', d⟩ := d
    obtain rfl : k' = k := by simpa [concerns, ht] using hk
    refine ⟨_, .spurious (t := t) (c := d) (p := p.loc k') hsp ?_, rfl, ?_⟩
    · simp [ht, view]
    · exact (view_update k' s.thread t (.run p)).symm

/-- A step that does not concern the lock `k` changes nothing about it. -/
theorem view_step_of_not {k : Obj} {s s' : Config T Process (Obj × Cond) Place} {l : Label T}
    (hstep : (process role spurious).step s l s') (hk : concerns k (s, l) = false) :
    s'.shared.rw k = s.shared.rw k ∧
      (fun t => view k (s'.thread t)) = fun t => view k (s.thread t) := by
  cases hstep with
  | @turn t p o g ht ho hw =>
    have hself : ∀ x, view k x = view k (s.thread t) → (fun u => view k (g u)) =
        (fun u => view k (s.thread u)) →
        (fun u => view k (Function.update g t x u)) = fun u => view k (s.thread u) := by
      intro x hx hg
      rw [view_update, hg, hx]
      exact Function.update_eq_self t fun u => view k (s.thread u)
    cases p with
    | choose loc =>
      rcases List.mem_cons.1 ho with rfl | ho
      · obtain rfl := hw.of_nil
        exact ⟨rfl, hself _ (by rw [ht]; rfl) rfl⟩
      · obtain rfl := List.mem_singleton.1 ho
        obtain rfl := hw.of_nil
        exact ⟨rfl, hself _ (by rw [ht]; rfl) rfl⟩
    | call k' loc =>
      have hne : k' ≠ k := by simpa [concerns, ht] using hk
      obtain ⟨o, -, rfl⟩ := List.mem_map.1 ho
      refine ⟨Function.update_of_ne hne.symm _ _, hself _ ?_ (view_wakes_of_ne hne hw)⟩
      rw [ht]
      exact view_embed_of_ne hne loc o.thread
  | @spurious t d p hsp ht =>
    obtain ⟨k', d⟩ := d
    have hne : k' ≠ k := by simpa [concerns, ht] using hk
    refine ⟨rfl, ?_⟩
    have hview : view k (.run p) = view k (s.thread t) := by
      rw [ht]
      exact (if_neg hne).symm
    simp only [view_update, hview]
    exact Function.update_eq_self t fun u => view k (s.thread u)

variable [Fintype T]

/-- If all tests of `waiting_writers` are about the writers of the lock that is called, then each
lock behaves as if it were alone: the steps that concern it are a run of it. -/
theorem alone_of_own_writers {xs : List (Config T Process (Obj × Cond) Place × Label T)}
    {s : Config T Process (Obj × Cond) Place} (h : (process role spurious).Exec xs s)
    (hown : ∀ x ∈ xs, OwnWriters role x.1 x.2) (k : Obj) :
    ∃ c, (threads functions (role k) spurious).Run ((xs.filter (concerns k)).map Prod.snd) c ∧
      c.shared.rw = s.shared.rw k ∧ c.thread = fun t => view k (s.thread t) := by
  induction h with
  | @init s h =>
    obtain ⟨⟨hinit, -⟩, hstart⟩ := h
    refine ⟨⟨⟨s.shared.rw k, 0⟩, fun t => view k (s.thread t)⟩, .init ⟨⟨hinit k, rfl⟩, ?_⟩, rfl, rfl⟩
    intro t
    simp only [hstart t]
    rfl
  | @step xs s l s' _ hstep ih =>
    obtain ⟨c, hrun, hrw, hthread⟩ := ih fun x hx => hown x (List.mem_append_left _ hx)
    rw [List.filter_append, List.map_append]
    cases hk : concerns k (s, l) with
    | false =>
      obtain ⟨hrw', hthread'⟩ := view_step_of_not hstep hk
      refine ⟨c, ?_, hrw.trans hrw'.symm, hthread.trans hthread'.symm⟩
      simpa [hk] using hrun
    | true =>
      obtain ⟨c', hstep', hc'⟩ := alone_step hstep hk
        (hown (s, l) (List.mem_append_right _ (List.mem_singleton.2 rfl))) hrw hthread
        (queue_iff ⟨_, hrun⟩)
      refine ⟨c', ?_, hc'⟩
      simpa [hk] using hrun.step hstep'

/-- A reader that sleeps on a lock waits for a writer that holds it, or that waits for it. -/
def ReadersAwaitOwnWriters (role : Obj → T → Role) (s : Config T Process (Obj × Cond) Place) : Prop :=
  ∀ k r p, s.thread r = .asleep (k, .read_phase) p → ∃ w, role k w = .writer ∧
    (view k (s.thread w) = .run .holding ∨ view k (s.thread w) = .asleep .write_phase .loop ∨
      view k (s.thread w) = .run .loop)

omit [Fintype T] in
/-- A writer that waits for the lock `A` keeps a reader out of the lock `B`, which nobody uses. -/
theorem reader_awaits_other_writer :
    ¬ ∀ s, (process (fun _ (t : Fin 3) => if t = 2 then .reader else .writer) False).Reachable s →
      ReadersAwaitOwnWriters (fun _ (t : Fin 3) => if t = 2 then .reader else .writer) s := by
  intro hall
  let role : Obj → Fin 3 → Role := fun _ t => if t = 2 then .reader else .writer
  have h₀ : (process role False).Reachable ⟨⟨fun _ => ⟨0⟩, 0⟩, fun _ => .run (.choose fun _ => .idle)⟩ :=
    .init ⟨⟨fun _ => ⟨⟨0⟩, rfl⟩, rfl⟩, fun _ => rfl⟩
  have h₁ := h₀.step (.turn (t := 0) rfl List.mem_cons_self .nil)
  have h₂ := h₁.step (.turn (t := 0) rfl List.mem_cons_self .nil)
  have h₃ := h₂.step (.turn (t := 1) rfl List.mem_cons_self .nil)
  have h₄ := h₃.step (.turn (t := 1) rfl List.mem_cons_self .nil)
  have h₅ := h₄.step (.turn (t := 2) rfl (List.mem_cons_of_mem _ List.mem_cons_self) .nil)
  have h₆ := h₅.step (.turn (t := 2) rfl List.mem_cons_self .nil)
  obtain ⟨w, hw, hview⟩ := hall _ h₆ .B 2 _ rfl
  fin_cases w
  · rcases hview with h | h | h <;> cases h
  · rcases hview with h | h | h <;> cases h
  · cases hw

/-- If all tests of `waiting_writers` are about the writers of the lock that is called, then what
happens to a lock is a run of the lock alone, and a reader sleeps on it only if a writer holds it or
waits for it. -/
theorem locks_independent (role : Obj → T → Role) (spurious : Prop)
    {xs : List (Config T Process (Obj × Cond) Place × Label T)}
    {s : Config T Process (Obj × Cond) Place} (h : (process role spurious).Exec xs s)
    (hown : ∀ x ∈ xs, OwnWriters role x.1 x.2) :
    (∀ k, ∃ c, (threads functions (role k) spurious).Run ((xs.filter (concerns k)).map Prod.snd) c ∧
      c.shared.rw = s.shared.rw k ∧ c.thread = fun t => view k (s.thread t)) ∧
    ReadersAwaitOwnWriters role s := by
  refine ⟨alone_of_own_writers h hown, ?_⟩
  intro k r p hr
  obtain ⟨c, hrun, -, hthread⟩ := alone_of_own_writers h hown k
  have hsleep : c.thread r = .asleep .read_phase (p.loc k) := by
    rw [hthread]
    simp [hr, view]
  rcases (awaited ⟨_, hrun⟩).reader r _ hsleep with ⟨w, hw, hold⟩ | hqueue
  · rw [hthread] at hold
    exact ⟨w, hw, Or.inl hold⟩
  · obtain ⟨w, hw, hwaits⟩ := (queue_iff ⟨_, hrun⟩).1 hqueue
    rw [hthread] at hwaits
    exact ⟨w, hw, Or.inr hwaits⟩

/-! What has to be shown of a step: nothing where a lock is chosen, and nothing where its section
does not test `waiting_writers`. -/

omit [Fintype T] [DecidableEq T] in
theorem own_choose {s : Config T Process (Obj × Cond) Place} {t : T} {loc : Obj → Loc}
    (ht : s.thread t = .run (.choose loc)) : OwnWriters role s (.turn t) := by
  rintro t' k loc' ⟨⟩ ht'
  rw [ht] at ht'
  cases ht'

omit [Fintype T] [DecidableEq T] in
theorem own_call {s : Config T Process (Obj × Cond) Place} {t : T} {k : Obj} {loc : Obj → Loc}
    (ht : s.thread t = .run (.call k loc))
    (h : TestsWriters (role k t) (loc k) (s.shared.rw k) →
      (0 < s.shared.waiting_writers ↔ ∃ w, role k w = .writer ∧
        (view k (s.thread w) = .asleep .write_phase .loop ∨ view k (s.thread w) = .run .loop))) :
    OwnWriters role s (.turn t) := by
  rintro t' k' loc' ⟨⟩ ht' htests
  rw [ht] at ht'
  cases ht'
  exact h htests

omit [Fintype T] in
/-- A run under the condition goes on. -/
theorem own_snoc {s s' : Config T Process (Obj × Cond) Place} {l : Label T}
    (h : ∃ xs, (process role spurious).Exec xs s ∧ ∀ x ∈ xs, OwnWriters role x.1 x.2)
    (hstep : (process role spurious).step s l s') (hown : OwnWriters role s l) :
    ∃ xs, (process role spurious).Exec xs s' ∧ ∀ x ∈ xs, OwnWriters role x.1 x.2 := by
  obtain ⟨xs, hexec, hall⟩ := h
  refine ⟨_, hexec.step hstep, fun x hx => ?_⟩
  rcases List.mem_append.1 hx with hx | hx
  · exact hall x hx
  · rw [List.mem_singleton.1 hx]
    exact hown

/-- Two writers of the lock `B`, and a reader of both locks. The reader gets `A`, with no writer
that waits; the first writer unlocks `B` for the second one, which waits; and in the end the reader
sleeps on `B`, which that writer holds. -/
theorem locks_independent_sleeper : ∃ s : Config (Fin 3) Process (Obj × Cond) Place,
    (process (fun _ t => if t = 2 then .reader else .writer) False).Reachable s ∧
      (∃ p, s.thread 2 = .asleep (.B, .read_phase) p) ∧
      ReadersAwaitOwnWriters (fun _ t => if t = 2 then .reader else .writer) s := by
  let role : Obj → Fin 3 → Role := fun _ t => if t = 2 then .reader else .writer
  have h₀ : ∃ xs, (process role False).Exec xs
      ⟨⟨fun _ => ⟨0⟩, 0⟩, fun _ => .run (.choose fun _ => .idle)⟩ ∧
      ∀ x ∈ xs, OwnWriters role x.1 x.2 :=
    ⟨[], .init ⟨⟨fun _ => ⟨⟨0⟩, rfl⟩, rfl⟩, fun _ => rfl⟩, by simp⟩
  -- the first writer gets `B`
  have h₁ := own_snoc h₀ (.turn (t := 0) rfl (List.mem_cons_of_mem _ List.mem_cons_self) .nil)
    (own_choose rfl)
  have h₂ := own_snoc h₁ (.turn (t := 0) rfl List.mem_cons_self .nil)
    (own_call rfl fun htests => by cases htests)
  -- the reader gets `A`
  have h₃ := own_snoc h₂ (.turn (t := 2) rfl List.mem_cons_self .nil) (own_choose rfl)
  have h₄ := own_snoc h₃ (.turn (t := 2) rfl List.mem_cons_self .nil)
    (own_call rfl fun _ => iff_of_false (by decide) (by decide))
  -- the second writer waits for `B`
  have h₅ := own_snoc h₄ (.turn (t := 1) rfl (List.mem_cons_of_mem _ List.mem_cons_self) .nil)
    (own_choose rfl)
  have h₆ := own_snoc h₅ (.turn (t := 1) rfl List.mem_cons_self .nil)
    (own_call rfl fun htests => by cases htests)
  -- the first one unlocks it, and the second one gets it
  have h₇ := own_snoc h₆ (.turn (t := 0) rfl (List.mem_cons_of_mem _ List.mem_cons_self) .nil)
    (own_choose rfl)
  have h₈ := own_snoc h₇ (.turn (t := 0) rfl List.mem_cons_self (.signal (t := 1) rfl .nil))
    (own_call rfl fun _ => iff_of_true (by decide) (by decide))
  have h₉ := own_snoc h₈ (.turn (t := 1) rfl List.mem_cons_self .nil)
    (own_call rfl fun htests => by cases htests)
  -- the reader sleeps on `B`
  have h₁₀ := own_snoc h₉ (.turn (t := 2) rfl (List.mem_cons_of_mem _ List.mem_cons_self) .nil)
    (own_choose rfl)
  have h₁₁ := own_snoc h₁₀ (.turn (t := 2) rfl List.mem_cons_self .nil)
    (own_call rfl fun htests => absurd rfl htests.2)
  obtain ⟨xs, hexec, hown⟩ := h₁₁
  exact ⟨_, hexec.reachable, ⟨_, rfl⟩, (locks_independent role False hexec hown).2⟩

end RWLock.WriterPref

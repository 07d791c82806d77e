/-
  When the server does what it must not: it uses a buffer that is freed, writes past the end of one,
  or uses a word that is not there.
-/
import OSModules.KeyValue.Slots

namespace KeyValue

open CString CHeap Prog Runs

/-! ## Sequences of messages -/

/-- While the messages are served, `P` holds of each of them, of the state it comes in, and of the
messages and answers before it. -/
def EachStep (wide : Str → Int32) (room : ℕ → ℕ) (msgs : List (List Char))
    (P : List (List Char × Str) → Server → List Char → Prop) : Prop :=
  ∀ pre msg post, msgs = pre ++ msg :: post → ∀ tr s, (server wide room).Run tr s →
    tr.map Prod.fst = pre → P tr s msg

/-- A message of a request. -/
def IsRequest (wide : Str → Int32) (msg : List Char) : Prop :=
  msg.length ≤ TOKEN_SIZE ∧ ∃ c, requestOf wide msg = some c

section
variable {wide : Str → Int32} {room : ℕ → ℕ} {msgs : List (List Char)}
  {P P' : List (List Char × Str) → Server → List Char → Prop}

theorem EachStep.imp (hP : EachStep wide room msgs P)
    (h : ∀ tr s msg, (server wide room).Run tr s → msg ∈ msgs → P tr s msg → P' tr s msg) :
    EachStep wide room msgs P' := by
  intro pre msg post hsplit tr s hrun htr
  have hmem : msg ∈ msgs := by
    rw [hsplit]
    exact List.mem_append_right _ List.mem_cons_self
  exact h tr s msg hrun hmem (hP pre msg post hsplit tr s hrun htr)

theorem eachStep_of_forall (h : ∀ msg ∈ msgs, ∀ tr s, P tr s msg) : EachStep wide room msgs P :=
  EachStep.imp (P := fun _ _ _ => True) (fun _ _ _ _ _ _ _ _ => trivial)
    fun tr s msg _ hmsg _ => h msg hmsg tr s

/-- What is the same for each step of a run is the same for the sequence. -/
theorem eachStep_congr
    (h : ∀ tr s msg, (server wide room).Run tr s → msg ∈ msgs → (P tr s msg ↔ P' tr s msg)) :
    EachStep wide room msgs P ↔ EachStep wide room msgs P' :=
  ⟨fun hP => hP.imp fun tr s msg hrun hmsg => (h tr s msg hrun hmsg).1,
    fun hP => hP.imp fun tr s msg hrun hmsg => (h tr s msg hrun hmsg).2⟩

end

/-! ## Freed buffers -/

/-- The answer of a command that has found its key. -/
def Finds : Command → Str → Prop
  | .create _ _ _, a => a = "already key exists".toList
  | .read _, a => a ≠ "No such key".toList
  | .update _ _ _, a => a = "Updated".toList
  | .delete _, a => a = "Deleted key".toList
  | .disconnect, _ => False

/-- Before each slot that is deleted there is one that holds -1. -/
def Shielded (l : List (Option ℤ)) : Prop :=
  ∀ i : ℕ, l[i]? = some none → ∃ j < i, l[j]? = some (some (-1))

/-- What a command of -1 needs. -/
def Guarded (h : List Event) : Command → Prop
  | .create key _ _ => key = -1 → created h < MAX_KEYS → none ∈ slots h → EverCreated h (-1)
  | .read key | .update key _ _ | .delete key => key = -1 → Shielded (slots h)
  | .disconnect => True

variable {wide : Str → Int32} {room : ℕ → ℕ} {tr : List (List Char × Str)} {h : List Event}
  {l : List (Option ℤ)}
  {s : Server} {c : Command} {msg : List Char} {key : ℤ} {a : Str} {i : Fin MAX_KEYS}

/-- A search that ends at a freed buffer is one for -1, and no slot before holds it. -/
theorem Slots.not_shielded (hs : Slots room l s) (hi : s.first key = some i)
    (hd : ¬ s.Allocated i) : key = -1 ∧ ¬ Shielded l := by
  rcases hs.first hi with hx | ⟨rfl, hx⟩
  · exact absurd (hs.allocated hx) hd
  · refine ⟨rfl, fun hall => ?_⟩
    obtain ⟨j, hji, hj⟩ := hall i hx
    have hlt : j < MAX_KEYS := hji.trans i.2
    have hj : l[((⟨j, hlt⟩ : Fin MAX_KEYS) : ℕ)]? = some (some (-1)) := hj
    exact (first_eq_some.1 hi).2 ⟨j, hlt⟩ hji ⟨hs.lt_idx hj, (hs.held _ _ hj).1⟩

/-- If there is a deleted slot with none before it that holds -1, a search for -1 ends at one. -/
theorem Slots.exists_freed (hs : Slots room l s) (hno : ¬ Shielded l) :
    ∃ i, s.first (-1) = some i ∧ ¬ s.Allocated i := by
  rw [Shielded, not_forall] at hno
  obtain ⟨n, hno⟩ := hno
  rw [Classical.not_imp, not_exists] at hno
  obtain ⟨hn, hno⟩ := hno
  have hlt : n < MAX_KEYS := by
    have hlen := (List.getElem?_eq_some_iff.1 hn).1
    have hle := hs.idx_le
    rw [← hs.length] at hle
    exact hlen.trans_le hle
  have hn : l[((⟨n, hlt⟩ : Fin MAX_KEYS) : ℕ)]? = some none := hn
  have hat : s.At (-1) ⟨n, hlt⟩ := ⟨hs.lt_idx hn, (hs.freed _ hn).1⟩
  cases hfirst : s.first (-1) with
  | none => exact absurd hat (first_eq_none.1 hfirst _)
  | some k =>
    refine ⟨k, rfl, fun halloc => ?_⟩
    have hk := hs.first_allocated hfirst halloc
    rcases lt_trichotomy k ⟨n, hlt⟩ with hkn | rfl | hkn
    · exact hno k ⟨hkn, hk⟩
    · rw [hn] at hk
      cases hk
    · exact (first_eq_some.1 hfirst).2 _ hkn hat

theorem Slots.shielded (hs : Slots room l s) (hi : s.first (-1) = some i) (halloc : s.Allocated i) :
    Shielded l := by
  by_contra hno
  obtain ⟨k, hk, hd⟩ := hs.exists_freed hno
  rw [hi] at hk
  cases hk
  exact hd halloc

theorem Slots.shielded_of_none (hs : Slots room l s) (hnone : s.first (-1) = none) : Shielded l := by
  by_contra hno
  obtain ⟨k, hk, -⟩ := hs.exists_freed hno
  rw [hnone] at hk
  cases hk

theorem Follows.everCreated (hf : Follows room h s) (hi : s.first key = some i)
    (halloc : s.Allocated i) : EverCreated h key :=
  everCreated_of_mem (List.mem_of_getElem? (hf.slots.first_allocated hi halloc))

/-- Where a request stops at no freed buffer and finds no key that was never created, it has what it
needs. -/
theorem Follows.guarded (hf : Follows room h s)
    (ha : (∃ a s', Answers room s c a s' ∧ ∀ key, c.key = some key → Finds c a → EverCreated h key) ∨
      ∃ e, Fails room s c e ∧ e ≠ .notAllocated) : Guarded h c := by
  rcases ha with ⟨a, s', hans, hfinds⟩ | ⟨e, hfail, hne⟩
  · cases hans with
    | full hmax =>
      intro _ hlt
      rw [← hf.idx_eq] at hlt
      exact absurd hmax hlt.ne
    | found hlt hfirst =>
      rintro rfl _ _
      exact hfinds _ rfl rfl
    | added hlt hfirst hroom =>
      rintro rfl _ hnone
      exact absurd hnone (hf.slots.none_not_mem hfirst)
    | value hfirst hblock =>
      rintro rfl
      exact hf.slots.shielded hfirst (by simp [Server.Allocated, hblock])
    | noValue hfirst =>
      rintro rfl
      exact hf.slots.shielded_of_none hfirst
    | updated hfirst halloc hroom =>
      rintro rfl
      exact hf.slots.shielded hfirst halloc
    | notUpdated hfirst =>
      rintro rfl
      exact hf.slots.shielded_of_none hfirst
    | deleted hfirst halloc =>
      rintro rfl
      exact hf.slots.shielded hfirst halloc
    | notDeleted hfirst =>
      rintro rfl
      exact hf.slots.shielded_of_none hfirst
    | disconnected => trivial
  · cases hfail with
    | create hlt hfirst hroom =>
      rintro rfl _ hnone
      exact absurd hnone (hf.slots.none_not_mem hfirst)
    | read hfirst hd => exact absurd rfl hne
    | updateFreed hfirst hd => exact absurd rfl hne
    | update hfirst halloc hroom =>
      rintro rfl
      exact hf.slots.shielded hfirst halloc
    | delete hfirst hd => exact absurd rfl hne

theorem Follows.not_freed (hf : Follows room h s) (hg : Guarded h c) {e : Fault}
    (hfail : Fails room s c e) : e ≠ .notAllocated := by
  cases hfail with
  | create => simp
  | read hfirst hd =>
    obtain ⟨hkey, hno⟩ := hf.slots.not_shielded hfirst hd
    exact absurd (hg hkey) hno
  | updateFreed hfirst hd =>
    obtain ⟨hkey, hno⟩ := hf.slots.not_shielded hfirst hd
    exact absurd (hg hkey) hno
  | update => simp
  | delete hfirst hd =>
    obtain ⟨hkey, hno⟩ := hf.slots.not_shielded hfirst hd
    exact absurd (hg hkey) hno

theorem Follows.everCreated_of_finds (hf : Follows room h s) (hg : Guarded h c) {s' : Server}
    (hans : Answers room s c a s') (hkey : c.key = some key) (hfinds : Finds c a) :
    EverCreated h key := by
  cases hans with
  | full => exact absurd hfinds (by simp [Finds])
  | found hlt hfirst =>
    cases hkey
    rcases hf.slots.first hfirst with hx | ⟨rfl, hx⟩
    · exact everCreated_of_mem (List.mem_of_getElem? hx)
    · rw [hf.idx_eq] at hlt
      exact hg rfl hlt (List.mem_of_getElem? hx)
  | added => exact absurd hfinds (by simp [Finds])
  | value hfirst hblock =>
    cases hkey
    exact hf.everCreated hfirst (by simp [Server.Allocated, hblock])
  | noValue => exact absurd rfl hfinds
  | updated hfirst halloc =>
    cases hkey
    exact hf.everCreated hfirst halloc
  | notUpdated => exact absurd hfinds (by simp [Finds])
  | deleted hfirst halloc =>
    cases hkey
    exact hf.everCreated hfirst halloc
  | notDeleted => exact absurd hfinds (by simp [Finds])
  | disconnected => exact hfinds.elim

/-- A request uses no freed buffer and finds no key that was never created exactly if it has what it
needs. -/
theorem safe_iff (h : (server wide room).Run tr s) (hlen : msg.length ≤ TOKEN_SIZE)
    (hc : requestOf wide msg = some c) :
    wp (serve wide room msg) s (· ≠ .notAllocated) (fun a _ =>
        ∀ key, c.key = some key → Finds c a → EverCreated (requests wide tr) key) ↔
      Guarded (requests wide tr) c := by
  have hf := (follows_of_run h).received hlen
  have hspec := (follows_of_run h).wp_request hc
  constructor
  · intro hsafe
    refine hf.guarded ?_
    rcases returns_or_faults (serve wide room msg) s with ⟨a, s', hret⟩ | ⟨e, hfault⟩
    · exact Or.inl ⟨a, s', hspec.returns hret, hsafe.returns hret⟩
    · exact Or.inr ⟨e, hspec.faults hfault, hsafe.faults hfault⟩
  · intro hg
    refine hspec.mono ?_ ?_
    · intro e hfail
      exact hf.not_freed hg hfail
    · intro a s' hans key hkey hfinds
      exact hf.everCreated_of_finds hg hans hkey hfinds

/-- While any requests are served, no freed buffer is used and no key is found that was never created,
exactly if each command of -1 comes when it has what it needs. -/
theorem no_use_after_free_iff (wide : Str → Int32) (room : ℕ → ℕ) {msgs : List (List Char)}
    (hmsgs : ∀ msg ∈ msgs, IsRequest wide msg) :
    EachStep wide room msgs (fun tr s msg =>
        wp (serve wide room msg) s (· ≠ .notAllocated) fun a _ =>
          ∀ c, requestOf wide msg = some c → ∀ key, c.key = some key → Finds c a →
            EverCreated (requests wide tr) key) ↔
      EachStep wide room msgs fun tr _ msg =>
        ∀ c, requestOf wide msg = some c → Guarded (requests wide tr) c := by
  refine eachStep_congr fun tr s msg hrun hmsg => ?_
  obtain ⟨hlen, c, hc⟩ := hmsgs msg hmsg
  simp only [hc, Option.some.injEq, forall_eq', safe_iff hrun hlen hc]

/-- Without a command of -1. -/
theorem no_use_after_free_keys : EachStep 0 id
    ["create 5 2 a".toList, "delete 5".toList, "read 7".toList] fun tr s msg =>
      wp (serve 0 id msg) s (· ≠ .notAllocated) fun a _ => ∀ c, requestOf 0 msg = some c →
        ∀ key, c.key = some key → Finds c a → EverCreated (requests 0 tr) key := by
  have hc₁ : requestOf 0 "create 5 2 a".toList = some (.create 5 2 "a".toList) := rfl
  have hc₂ : requestOf 0 "delete 5".toList = some (.delete 5) := rfl
  have hc₃ : requestOf 0 "read 7".toList = some (.read 7) := rfl
  have hmsgs : ∀ msg ∈ ["create 5 2 a".toList, "delete 5".toList, "read 7".toList],
      IsRequest 0 msg := by
    simp only [List.forall_mem_cons]
    exact ⟨⟨by decide, _, hc₁⟩, ⟨by decide, _, hc₂⟩, ⟨by decide, _, hc₃⟩, by simp⟩
  refine (no_use_after_free_iff 0 id hmsgs).2 (eachStep_of_forall ?_)
  simp only [List.forall_mem_cons]
  refine ⟨?_, ?_, ?_, by simp⟩
  · rintro tr - c hc
    rw [hc₁] at hc
    cases hc
    exact fun hkey => absurd hkey (by simp)
  · rintro tr - c hc
    rw [hc₂] at hc
    cases hc
    exact fun hkey => absurd hkey (by simp)
  · rintro tr - c hc
    rw [hc₃] at hc
    cases hc
    exact fun hkey => absurd hkey (by simp)

/-- After a `delete`: -1, which was never created, is found, and `read`, `update` and `delete` of it use
the buffer that is freed. -/
theorem deleted_slot_found : ∃ s, (server 0 id).Run (churn 1) s ∧
    ¬ EverCreated (requests 0 (churn 1)) (-1) ∧
    Faults (serve 0 id "read -1".toList) s .notAllocated ∧
    Faults (serve 0 id "update -1 2 a".toList) s .notAllocated ∧
    Faults (serve 0 id "delete -1".toList) s .notAllocated ∧
    ∃ s', (server 0 id).step s ("create -1 2 a".toList, "already key exists".toList) s' := by
  have h : ∃ s, Returns (((churn 1).map Prod.fst).mapM (serve 0 id)) .init
        ((churn 1).map Prod.snd) s ∧
      Faults (serve 0 id "read -1".toList) s .notAllocated ∧
      Faults (serve 0 id "update -1 2 a".toList) s .notAllocated ∧
      Faults (serve 0 id "delete -1".toList) s .notAllocated ∧
      ∃ s', Returns (serve 0 id "create -1 2 a".toList) s "already key exists".toList s' ∧
        s'.idx = 1 := by
    decide +kernel
  obtain ⟨s, hret, hread, hupdate, hdelete, s', hcreate, -⟩ := h
  have hrun := run_of_mapM (.init rfl) (by decide) hret
  have hreq : requests 0 (churn 1) = [(.create 5 2 "a".toList, "Key Value pair Added".toList),
      (.delete 5, "Deleted key".toList)] := rfl
  refine ⟨s, hrun, ?_, hread, hupdate, hdelete, s', by decide, hcreate⟩
  rintro ⟨n, v, hmem⟩
  simp [hreq] at hmem

/-! ## Buffers that are too small -/

/-- Each present key has a buffer of the size of its value, with the NUL. -/
def BuffersFit (h : List Event) (s : Server) : Prop :=
  ∀ key, latest h key ≠ none → ∃ i n v, s.At key i ∧
    s.heap.block (s.value_arr i) = some ⟨n, some v⟩ ∧ v.length + 1 ≤ n

/-- The value has room where it is copied to, if it is copied. -/
def ValueFits (room : ℕ → ℕ) (s : Server) : Command → Prop
  | .create key n v => s.idx < MAX_KEYS → (∀ i, ¬ s.At key i) → v.length + 1 ≤ room (n % 2 ^ 64).toNat
  | .update key _ v => ∀ i, s.first key = some i → s.Allocated i → v.length + 1 ≤ room 4
  | _ => True

theorem Follows.buffersFit (hf : Follows room h s) (hroom : ∀ n, room n ≤ n) : BuffersFit h s := by
  intro key hkey
  obtain ⟨i, hx⟩ := hf.slots.exists_index ((hf.present key).1 hkey)
  obtain ⟨hi, n, v, hblock, hv⟩ := hf.slots.held i key hx
  exact ⟨i, n, v, ⟨hf.slots.lt_idx hx, hi⟩, hblock, hv.trans_le (hroom n)⟩

theorem Fails.valueFits {e : Fault} (hfail : Fails room s c e) :
    e ≠ .bufferOverflow ↔ ValueFits room s c := by
  cases hfail with
  | create hlt hfirst hroom =>
    exact iff_of_false (by simp) fun hfits => hroom (hfits hlt (first_eq_none.1 hfirst))
  | read => exact iff_of_true (by simp) trivial
  | updateFreed hfirst hd =>
    refine iff_of_true (by simp) fun i hi halloc => ?_
    rw [hfirst] at hi
    cases hi
    exact absurd halloc hd
  | update hfirst halloc hroom =>
    exact iff_of_false (by simp) fun hfits => hroom (hfits _ hfirst halloc)
  | delete => exact iff_of_true (by simp) trivial

theorem Answers.valueFits {s' : Server} (hans : Answers room s c a s') : ValueFits room s c := by
  cases hans with
  | full hmax =>
    intro hlt
    exact absurd hmax hlt.ne
  | found hlt hfirst =>
    intro _ hno
    exact absurd (first_eq_some.1 hfirst).1 (hno _)
  | added hlt hfirst hroom => exact fun _ _ => hroom
  | value => trivial
  | noValue => trivial
  | updated hfirst halloc hroom => exact fun _ _ _ => hroom
  | notUpdated hfirst =>
    intro i hi
    rw [hfirst] at hi
    cases hi
  | deleted => trivial
  | notDeleted => trivial
  | disconnected => trivial

/-- Where `malloc` gives a block of the size it is asked for, or none: while any requests are served,
each present key has a buffer of the size of its value and nothing is written past a buffer, exactly
if each value fits where it is copied to. -/
theorem no_overflow_iff (hroom : ∀ n, room n = n ∨ room n = 0) {msgs : List (List Char)}
    (hmsgs : ∀ msg ∈ msgs, IsRequest wide msg) :
    EachStep wide room msgs (fun tr s msg => BuffersFit (requests wide tr) s ∧
        wp (serve wide room msg) s (· ≠ .bufferOverflow) fun a s' =>
          BuffersFit (requests wide (tr ++ [(msg, a)])) s') ↔
      EachStep wide room msgs fun _ s msg =>
        ∀ c, requestOf wide msg = some c → ValueFits room s c := by
  have hle : ∀ n, room n ≤ n := by
    intro n
    rcases hroom n with h | h <;> omega
  refine eachStep_congr fun tr s msg hrun hmsg => ?_
  obtain ⟨hlen, c, hc⟩ := hmsgs msg hmsg
  have hf := follows_of_run hrun
  have hspec := hf.wp_request hc
  simp only [hc, Option.some.injEq, forall_eq']
  constructor
  · rintro ⟨-, hsafe⟩
    rcases returns_or_faults (serve wide room msg) s with ⟨a, s', hret⟩ | ⟨e, hfault⟩
    · exact (hspec.returns hret).valueFits
    · exact (hspec.faults hfault).valueFits.1 (hsafe.faults hfault)
  · intro hfits
    refine ⟨hf.buffersFit hle, wp_iff.2 ⟨fun a s' hret => ?_, fun e hfault => ?_⟩⟩
    · have hstep : (server wide room).step s (msg, a) s' := ⟨hlen, hret⟩
      exact (follows_of_run (hrun.step hstep)).buffersFit hle
    · exact (hspec.faults hfault).valueFits.2 hfits

/-- A value of three characters, and then another one, fits four bytes. -/
theorem no_overflow_update : ∃ s,
    (server 0 id).Run [("create 5 4 abc".toList, "Key Value pair Added".toList),
      ("update 5 4 xyz".toList, "Updated".toList)] s ∧
    BuffersFit (requests 0 [("create 5 4 abc".toList, "Key Value pair Added".toList),
      ("update 5 4 xyz".toList, "Updated".toList)]) s := by
  have h : ∃ s₁, Returns (serve 0 id "create 5 4 abc".toList) .init
        "Key Value pair Added".toList s₁ ∧
      ∃ s₂, Returns (serve 0 id "update 5 4 xyz".toList) s₁ "Updated".toList s₂ ∧ True := by
    decide +kernel
  obtain ⟨s₁, hcreate, s₂, hupdate, -⟩ := h
  have hc₁ : requestOf 0 "create 5 4 abc".toList = some (.create 5 4 "abc".toList) := rfl
  have hc₂ : requestOf 0 "update 5 4 xyz".toList = some (.update 5 4 "xyz".toList) := rfl
  have hmsgs : ∀ msg ∈ ["create 5 4 abc".toList, "update 5 4 xyz".toList], IsRequest 0 msg := by
    rw [List.forall_mem_cons, List.forall_mem_singleton]
    exact ⟨⟨by decide, _, hc₁⟩, by decide, _, hc₂⟩
  have hsafe := (no_overflow_iff (fun n => Or.inl rfl) hmsgs).2 (eachStep_of_forall (by
    rw [List.forall_mem_cons, List.forall_mem_singleton]
    simp only [hc₁, hc₂, Option.some.injEq, forall_eq']
    exact ⟨fun _ _ _ _ => by decide, fun _ _ _ _ _ => by decide⟩))
  have hrun₀ : (server 0 id).Run [] .init := .init rfl
  have hrun₁ := hrun₀.step (l := ("create 5 4 abc".toList, "Key Value pair Added".toList))
    ⟨by decide, hcreate⟩
  have hrun₂ := hrun₁.step (l := ("update 5 4 xyz".toList, "Updated".toList))
    ⟨by decide, hupdate⟩
  obtain ⟨-, hstep⟩ := hsafe _ _ [] rfl _ s₁ hrun₁ rfl
  exact ⟨s₂, hrun₂, hstep.returns hupdate⟩

/-- A declared size of one byte, and an update with four characters. -/
theorem value_too_long : Faults (serve 0 id "create 5 1 hello".toList) .init .bufferOverflow ∧
    ∃ s, (server 0 id).Run [("create 5 9 a".toList, "Key Value pair Added".toList)] s ∧
      Faults (serve 0 id "update 5 9 abcd".toList) s .bufferOverflow := by
  have h : Faults (serve 0 id "create 5 1 hello".toList) .init .bufferOverflow ∧
      ∃ s, Returns (serve 0 id "create 5 9 a".toList) .init "Key Value pair Added".toList s ∧
        Faults (serve 0 id "update 5 9 abcd".toList) s .bufferOverflow := by decide +kernel
  obtain ⟨hcreate, s, hret, hupdate⟩ := h
  have hrun : (server 0 id).Run [] .init := .init rfl
  have hstep : (server 0 id).step .init ("create 5 9 a".toList, "Key Value pair Added".toList) s :=
    ⟨by decide, hret⟩
  exact ⟨hcreate, s, hrun.step hstep, hupdate⟩

/-! ## Words that are missing -/

/-- How many words a command has. -/
def usage (w : Str) : ℕ :=
  if w = "create".toList ∨ w = "update".toList then 4
  else if w = "read".toList ∨ w = "delete".toList then 2
  else 1

/-- A command with too few arguments, or none at all. -/
def TooFew : List Str → Prop
  | [] => True
  | w :: args => args.length + 1 < usage w

theorem Asks.not_tooFew {ws : List Str} (hasks : Asks wide ws c) : ¬ TooFew ws := by
  cases hasks <;> simp [TooFew, usage]

theorem Asks.complete {ws : List Str} (hasks : Asks wide ws c) : Complete wide s ws := by
  cases hasks with
  | create hkey hsize =>
    exact ⟨fun _ _ _ => by simp [Enough], fun hne => absurd hne (by simp)⟩
  | read hkey => exact ⟨fun hne => absurd hne (by simp), fun hne => absurd hne (by simp)⟩
  | update hkey hsize =>
    exact ⟨fun hne => absurd hne (by simp), fun _ _ _ => by simp [Enough]⟩
  | delete hkey => exact ⟨fun hne => absurd hne (by simp), fun hne => absurd hne (by simp)⟩
  | @disconnect rest =>
    cases rest with
    | nil => exact ⟨by simp, by simp, by simp, by simp⟩
    | cons k args =>
      exact ⟨fun hne => absurd hne (by simp), fun hne => absurd hne (by simp)⟩

/-- Only a command with too few arguments has words missing that are used. -/
theorem tooFew_of_not_complete : ∀ {ws : List Str}, ¬ Complete wide s ws → TooFew ws
  | [], _ => trivial
  | [w], h => by
    simp only [Complete, ne_eq, not_and_or, not_not] at h
    rcases h with rfl | rfl | rfl | rfl <;> simp [TooFew, usage]
  | w :: k :: args, h => by
    by_contra hfew
    have hargs (hw : w = "create".toList ∨ w = "update".toList) : Enough args := by
      rw [TooFew, usage, if_pos hw, List.length_cons] at hfew
      rw [Enough]
      omega
    exact h ⟨fun hw _ _ => hargs (Or.inl hw), fun hw _ _ => hargs (Or.inr hw)⟩

theorem Fails.ne_uninitialised {e : Fault} (hfail : Fails room s c e) : e ≠ .uninitialised := by
  cases hfail <;> simp

/-- In every reachable state and for any message: no word is used that is not there, and a command
with too few arguments runs into no fault and changes nothing, exactly if no word is missing that
is used. -/
theorem missing_words_iff (h : (server wide room).Reachable s) (msg : List Char) :
    wp (serve wide room msg) s (fun e => e ≠ .uninitialised ∧ ¬ TooFew (tokenize msg))
        (fun _ s' => TooFew (tokenize msg) →
          s'.key_arr = s.key_arr ∧ s'.value_len = s.value_len ∧ s'.value_arr = s.value_arr ∧
            s'.idx = s.idx) ↔
      Complete wide s (tokenize msg) := by
  obtain ⟨tr, h⟩ := h
  have hf := follows_of_run h
  cases hc : requestOf wide msg with
  | some c =>
    have hasks := asks_of_request hc
    refine iff_of_true ?_ hasks.complete
    refine (hf.wp_request hc).mono (fun e hfail => ⟨hfail.ne_uninitialised, hasks.not_tooFew⟩)
      fun a s' _ hfew => ?_
    exact absurd hfew hasks.not_tooFew
  | none =>
    have hspec := hf.wp_other hc
    constructor
    · intro hsafe
      rcases returns_or_faults (serve wide room msg) s with ⟨a, s', hret⟩ | ⟨e, hfault⟩
      · exact (hspec.returns hret).2
      · exact absurd (tooFew_of_not_complete (hspec.faults hfault)) (hsafe.faults hfault).2
    · intro hcomplete
      refine hspec.mono (fun e hno => absurd hcomplete hno) ?_
      rintro a s' ⟨rfl, -⟩ _
      exact ⟨rfl, rfl, rfl, rfl⟩

/-- An `update` without a value, of a key that is not there. -/
theorem missing_words_update : ∃ s',
    Returns (serve 0 id "update 5".toList) .init "No such key".toList s' ∧
    s'.key_arr = Server.init.key_arr ∧ s'.idx = 0 := by
  have h : ∃ s', Returns (serve 0 id "update 5".toList) .init "No such key".toList s' ∧
      s'.idx = 0 := by
    decide +kernel
  obtain ⟨s', hret, hidx⟩ := h
  have htokens : tokenize "update 5".toList = ["update".toList, "5".toList] := rfl
  have hcomplete : Complete 0 .init (tokenize "update 5".toList) := by
    rw [htokens]
    refine ⟨fun hne => absurd hne (by simp), fun _ i hi => ?_⟩
    exact absurd (first_eq_some.1 hi).1.1 (Nat.not_lt_zero _)
  have hreach : (server 0 id).Reachable .init := .init rfl
  have hsafe := (missing_words_iff hreach _).2 hcomplete
  obtain ⟨hkeys, -⟩ := hsafe.returns hret (by
    rw [htokens]
    simp [TooFew, usage])
  exact ⟨s', hret, hkeys, hidx⟩

/-- The end of a connection, a blank, and commands without their arguments, whatever their numbers
are. -/
theorem missing_words_used : Faults (serve 0 id []) .init .uninitialised ∧
    Faults (serve 0 id " ".toList) .init .uninitialised ∧
    Faults (serve 0 id "read".toList) .init .uninitialised ∧
    Faults (serve 0 id "create 5".toList) .init .uninitialised ∧
    Faults (serve 0 id "create 99999999999".toList) .init .uninitialised ∧
    Faults (serve 0 id "create 5 2147483648".toList) .init .uninitialised := by
  decide +kernel

end KeyValue

/-
  The store keeps the map of its history: no key is in two slots, and a deleted key is in none.
-/
import OSModules.KeyValue.Map
import OSModules.KeyValue.Store

namespace KeyValue

open CString CHeap Prog Runs

/-- A slot that holds a value. -/
def Server.Present (s : Server) (i : Fin MAX_KEYS) : Prop := i < s.idx ∧ s.key_arr i ≠ -1

/-- The value in a slot. -/
def Server.Holds (s : Server) (i : Fin MAX_KEYS) (v : Str) : Prop :=
  ∃ n, s.heap.block (s.value_arr i) = some ⟨n, some v⟩

/-- The slots hold the map `m`. -/
structure Rep (m : ℤ → Option Str) (s : Server) : Prop where
  idx_le : s.idx ≤ MAX_KEYS
  unique : ∀ i j, s.Present i → s.Present j → s.key_arr i = s.key_arr j → i = j
  apart : ∀ i j, s.Present i → s.Present j → s.value_arr i = s.value_arr j → i = j
  holds : ∀ i, s.Present i → ∃ v, s.Holds i v ∧ m (s.key_arr i) = some v
  total : ∀ k, m k ≠ none → ∃ i, s.Present i ∧ s.key_arr i = k

variable {s : Server} {m : ℤ → Option Str} {key len : ℤ} {v : Str} {i j : Fin MAX_KEYS}

theorem Server.At.present (h : s.At key i) (hkey : key ≠ -1) : s.Present i := ⟨h.1, by rwa [h.2]⟩

theorem Server.Holds.ne_none (h : s.Holds i v) : s.heap.block (s.value_arr i) ≠ none := by
  obtain ⟨n, h⟩ := h
  rw [h]
  exact Option.some_ne_none _

theorem present_added (hi : (i : ℕ) = s.idx) (hkey : key ≠ -1) :
    (s.added i key len v).Present j ↔ j = i ∨ s.Present j := by
  simp only [Server.Present, Server.added]
  by_cases hji : j = i
  · subst hji
    simp [hkey, hi]
  · have hne : (j : ℕ) ≠ i := fun h => hji (Fin.ext h)
    rw [Function.update_of_ne hji, or_iff_right hji]
    refine and_congr_left fun _ => ?_
    omega

theorem present_deleted : (s.deleted i).Present j ↔ j ≠ i ∧ s.Present j := by
  simp only [Server.Present, Server.deleted]
  by_cases hji : j = i
  · subst hji
    simp
  · simp [hji]

/-- An array with different entries in some slots, after one slot gets an entry that none of them
has. -/
theorem unique_update {α : Type} {P P' : Fin MAX_KEYS → Prop} {f : Fin MAX_KEYS → α} {x : α}
    (hf : ∀ j k, P j → P k → f j = f k → j = k) (hP : ∀ j, P' j → j ≠ i → P j)
    (hx : ∀ j, P j → j ≠ i → f j ≠ x) (j k : Fin MAX_KEYS) (hj : P' j) (hk : P' k)
    (he : Function.update f i x j = Function.update f i x k) : j = k := by
  by_cases hji : j = i <;> by_cases hki : k = i
  · exact hji.trans hki.symm
  · rw [hji, Function.update_self, Function.update_of_ne hki] at he
    exact absurd he.symm (hx k (hP k hk hki) hki)
  · rw [hki, Function.update_self, Function.update_of_ne hji] at he
    exact absurd he (hx j (hP j hj hji) hji)
  · rw [Function.update_of_ne hji, Function.update_of_ne hki] at he
    exact hf j k (hP j hj hji) (hP k hk hki) he

namespace Rep
variable (h : Rep m s)
include h

theorem holds_at (hi : s.At key i) (hkey : key ≠ -1) : ∃ v, s.Holds i v ∧ m key = some v := by
  rw [← hi.2]
  exact h.holds i (hi.present hkey)

theorem live_at (hi : s.At key i) (hkey : key ≠ -1) : s.heap.block (s.value_arr i) ≠ none := by
  obtain ⟨v, hv, -⟩ := h.holds_at hi hkey
  exact hv.ne_none

/-- A key in no slot is not in the map. -/
theorem absent (hno : ∀ i, ¬ s.At key i) : m key = none := by
  by_contra hne
  obtain ⟨i, hi, hkey⟩ := h.total key hne
  exact hno i ⟨hi.1, hkey⟩

theorem ne_next (hi : s.Present i) : s.value_arr i ≠ s.heap.next := by
  obtain ⟨v, hv, -⟩ := h.holds i hi
  exact Heap.ne_next hv.ne_none

theorem added (hi : (i : ℕ) = s.idx) (hkey : key ≠ -1) (hno : ∀ i, ¬ s.At key i) :
    Rep (Function.update m key (some v)) (s.added i key len v) := by
  have hold : ∀ j, s.Present j → j ≠ i := by
    rintro j hj rfl
    exact absurd hj.1 (by omega)
  have hother : ∀ j, s.Present j → s.key_arr j ≠ key := fun j hj hjk => hno j ⟨hj.1, hjk⟩
  have hpresent : ∀ j, (s.added i key len v).Present j → j ≠ i → s.Present j := fun j hj hji =>
    ((present_added hi hkey).1 hj).resolve_left hji
  refine ⟨?_, ?_, ?_, ?_, ?_⟩
  · have hlt := i.2
    simp only [Server.added]
    omega
  · exact unique_update h.unique hpresent fun j hj _ => hother j hj
  · exact unique_update h.apart hpresent fun j hj _ => h.ne_next hj
  · intro j hj
    simp only [Server.Holds, Server.added, Heap.put_block]
    rcases (present_added hi hkey).1 hj with rfl | hj
    · simp only [Function.update_self]
      exact ⟨v, ⟨_, rfl⟩, rfl⟩
    · rw [Function.update_of_ne (hold j hj), Function.update_of_ne (hold j hj),
        Function.update_of_ne (h.ne_next hj), Function.update_of_ne (hother j hj)]
      exact h.holds j hj
  · intro k hk
    by_cases hkk : k = key
    · subst hkk
      exact ⟨i, (present_added hi hkey).2 (Or.inl rfl), Function.update_self _ _ _⟩
    · rw [Function.update_of_ne hkk] at hk
      obtain ⟨j, hj, hjk⟩ := h.total k hk
      exact ⟨j, (present_added hi hkey).2 (Or.inr hj), (Function.update_of_ne (hold j hj) _ _).trans hjk⟩

theorem updated (hi : s.At key i) (hkey : key ≠ -1) :
    Rep (Function.update m key (some v)) (s.updated i len v) := by
  have hpresent := hi.present hkey
  have hother : ∀ j, s.Present j → j ≠ i → s.key_arr j ≠ key := fun j hj hji hjk =>
    hji (h.unique j i hj hpresent (hjk.trans hi.2.symm))
  refine ⟨h.idx_le, h.unique, ?_, ?_, ?_⟩
  · exact unique_update h.apart (fun j hj _ => hj) fun j hj _ => h.ne_next hj
  · intro j hj
    simp only [Server.Holds, Server.updated, Heap.put_block, Heap.release_next, Heap.release_block]
    by_cases hji : j = i
    · subst hji
      rw [hi.2]
      simp only [Function.update_self]
      exact ⟨v, ⟨_, rfl⟩, rfl⟩
    · have hapart : s.value_arr j ≠ s.value_arr i := fun he => hji (h.apart j i hj hpresent he)
      rw [Function.update_of_ne hji, Function.update_of_ne (h.ne_next hj),
        Function.update_of_ne hapart, Function.update_of_ne (hother j hj hji)]
      exact h.holds j hj
  · intro k hk
    by_cases hkk : k = key
    · exact ⟨i, hpresent, hi.2.trans hkk.symm⟩
    · rw [Function.update_of_ne hkk] at hk
      exact h.total k hk

theorem deleted (hi : s.At key i) (hkey : key ≠ -1) :
    Rep (Function.update m key none) (s.deleted i) := by
  have hpresent := hi.present hkey
  have hother : ∀ j, s.Present j → j ≠ i → s.key_arr j ≠ key := fun j hj hji hjk =>
    hji (h.unique j i hj hpresent (hjk.trans hi.2.symm))
  refine ⟨h.idx_le, ?_, ?_, ?_, ?_⟩
  · intro j k hj hk
    obtain ⟨hji, hj⟩ := present_deleted.1 hj
    obtain ⟨hki, hk⟩ := present_deleted.1 hk
    simp only [Server.deleted, Function.update_of_ne hji, Function.update_of_ne hki]
    exact h.unique j k hj hk
  · intro j k hj hk
    exact h.apart j k (present_deleted.1 hj).2 (present_deleted.1 hk).2
  · intro j hj
    obtain ⟨hji, hj⟩ := present_deleted.1 hj
    have hapart : s.value_arr j ≠ s.value_arr i := fun he => hji (h.apart j i hj hpresent he)
    simp only [Server.Holds, Server.deleted, Heap.release_block, Function.update_of_ne hji,
      Function.update_of_ne hapart, Function.update_of_ne (hother j hj hji)]
    exact h.holds j hj
  · intro k hk
    have hkk : k ≠ key := by
      rintro rfl
      exact hk (Function.update_self _ _ _)
    rw [Function.update_of_ne hkk] at hk
    obtain ⟨j, hj, hjk⟩ := h.total k hk
    have hji : j ≠ i := by
      rintro rfl
      exact hkk (hjk.symm.trans hi.2)
    exact ⟨j, present_deleted.2 ⟨hji, hj⟩, (Function.update_of_ne hji _ _).trans hjk⟩

end Rep

/-! ## Messages -/

/-- The command that a message spells. -/
def commandOf (wide : Str → Int32) (msg : List Char) : Option Command :=
  command wide (words isDelim (cstr msg))

/-- The block for a value is large enough. -/
def Roomy (room : ℕ → ℕ) : Command → Prop
  | .create _ size v => v.length < room (size % 2 ^ 64).toNat
  | .update _ _ v => v.length < room 4
  | _ => True

/-- A message of a command, with a block that is large enough for its value. -/
def WellFormed (wide : Str → Int32) (room : ℕ → ℕ) (msg : List Char) : Prop :=
  msg.length ≤ TOKEN_SIZE ∧ ∃ c, commandOf wide msg = some c ∧ Roomy room c

/-- Behind the bytes of a message there are no others. -/
def Server.Clean (s : Server) : Prop := ∀ c ∈ s.buffer.drop TOKEN_SIZE, c = '\x00'

variable {msg : List Char} {wide : Str → Int32} {room : ℕ → ℕ} {c : Command}

theorem drop_receive (hlen : msg.length ≤ TOKEN_SIZE) (buffer : List Char) :
    (receive msg buffer).drop TOKEN_SIZE = buffer.drop TOKEN_SIZE := by
  simp only [receive]
  rw [List.drop_append, List.drop_of_length_le hlen, List.nil_append, List.drop_drop,
    Nat.add_sub_cancel' hlen, List.drop_left' List.length_replicate]

/-- What is split is the message. -/
theorem tokenize_receive (hs : s.Clean) :
    tokenize (receive msg s.buffer) = (words isDelim (cstr msg)).take MAX_TOKENS := by
  rw [tokenize, strtoks_eq_take, receive, cstr_append]
  intro c hc
  rcases List.mem_append.1 (List.mem_of_mem_drop hc) with hc | hc
  · exact List.eq_of_mem_replicate hc
  · exact hs c hc

/-- What a command does to the map, and what it answers. -/
structure Served (m : ℤ → Option Str) (s : Server) (c : Command) (a : Str) (s' : Server) : Prop where
  answers : a = answer m s.idx c
  rep : Rep (after m (c, a)) s'
  idx : s'.idx = s.idx + if Created (c, a) then 1 else 0
  buffer : s'.buffer = s.buffer

/-- A command that changes nothing. -/
theorem Served.same (h : Rep m s) {a : Str} (ha : a = answer m s.idx c) (hm : after m (c, a) = m)
    (hc : ¬ Created (c, a)) : Served m s c a s := by
  refine ⟨ha, ?_, ?_, rfl⟩
  · rwa [hm]
  · rw [if_neg hc, add_zero]

section
variable {tokens : List Str} {k t : Str} (h : Rep m s) (hk : tokens[1]? = some k)
  (hkey : atoi wide k = key) (hne : key ≠ -1)
include h hk hkey hne

theorem served_create (ht : tokens[2]? = some t) (hlen : atoi wide t = len)
    (hv : tokens[3]? = some v) (hroom : v.length < room (len % 2 ^ 64).toNat) :
    wp (create_key_value_pair wide tokens room) s (fun _ => False)
      (Served m s (.create key len v)) := by
  refine wp_create_key_value_pair h.idx_le hk hkey ht hlen hv ?_ ?_ ?_ ?_
  · intro hfull
    have hno : "storage full".toList ≠ "Key Value pair Added".toList := by simp
    refine .same h ?_ (after_create_of_ne m hno) hno
    rw [answer_create, if_pos hfull.ge]
  · intro i hlt hi
    obtain ⟨w, -, hw⟩ := h.holds_at (first_eq_some.1 hi).1 hne
    have hno : "already key exists".toList ≠ "Key Value pair Added".toList := by simp
    refine .same h ?_ (after_create_of_ne m hno) hno
    rw [answer_create, if_neg (not_le.2 hlt), hw, if_neg (Option.some_ne_none w)]
  · intro hlt hno _
    have hno := first_eq_none.1 hno
    refine ⟨?_, ?_, ?_, rfl⟩
    · rw [answer_create, if_neg (not_le.2 hlt), if_pos (h.absent hno)]
    · rw [after_create]
      exact h.added rfl hne hno
    · rw [if_pos (created_create.2 rfl)]
      rfl
  · intro _ _ hover
    exact hover hroom

theorem served_read : wp (Read wide tokens) s (fun _ => False) (Served m s (.read key)) := by
  refine wp_Read h.idx_le hk hkey ?_ ?_
  · intro i hi
    obtain ⟨v, ⟨n, hblock⟩, hv⟩ := h.holds_at (first_eq_some.1 hi).1 hne
    refine Or.inl ⟨n, v, hblock, .same h ?_ (after_read m) not_created_read⟩
    rw [answer_read, hv, Option.getD_some]
  · intro hno
    refine .same h ?_ (after_read m) not_created_read
    rw [answer_read, h.absent (first_eq_none.1 hno), Option.getD_none]

theorem served_update (ht : tokens[2]? = some t) (hlen : atoi wide t = len)
    (hv : tokens[3]? = some v) (hroom : v.length < room 4) :
    wp (update wide tokens room) s (fun _ => False) (Served m s (.update key len v)) := by
  refine wp_update h.idx_le hk hkey ht hlen hv ?_ ?_ ?_ ?_
  · intro i hi _ _
    have hi := (first_eq_some.1 hi).1
    obtain ⟨w, -, hw⟩ := h.holds_at hi hne
    refine ⟨?_, ?_, ?_, rfl⟩
    · rw [answer_update, hw, if_neg (Option.some_ne_none w)]
    · rw [after_update]
      exact h.updated hi hne
    · rw [if_neg not_created_update]
      rfl
  · intro i _ _ hover
    exact hover hroom
  · intro i hi hfreed
    exact absurd hfreed (h.live_at (first_eq_some.1 hi).1 hne)
  · intro hno
    refine .same h ?_ (after_update_of_ne m (by simp)) not_created_update
    rw [answer_update, if_pos (h.absent (first_eq_none.1 hno))]

theorem served_delete : wp (delete wide tokens) s (fun _ => False) (Served m s (.delete key)) := by
  refine wp_delete h.idx_le hk hkey ?_ ?_ ?_
  · intro i hi _
    have hi := (first_eq_some.1 hi).1
    obtain ⟨w, -, hw⟩ := h.holds_at hi hne
    refine ⟨?_, ?_, ?_, rfl⟩
    · rw [answer_delete, hw, if_neg (Option.some_ne_none w)]
    · rw [after_delete]
      exact h.deleted hi hne
    · rw [if_neg not_created_delete]
      rfl
  · intro i hi hfreed
    exact absurd hfreed (h.live_at (first_eq_some.1 hi).1 hne)
  · intro hno
    refine .same h ?_ (after_delete_of_ne m (by simp)) not_created_delete
    rw [answer_delete, if_pos (h.absent (first_eq_none.1 hno))]

end

theorem Rep.receive (h : Rep m s) (buffer : List Char) : Rep m { s with buffer := buffer } :=
  ⟨h.idx_le, h.unique, h.apart, h.holds, h.total⟩

/-- A command is answered, and does to the slots what it does to the map. -/
theorem served_message (h : Rep m s) (hs : s.Clean)
    (hc : commandOf wide msg = some c) (hroom : Roomy room c) :
    wp (serve wide room msg) s (fun _ => False)
      (Served m { s with buffer := receive msg s.buffer } c) := by
  have hspell := spells_of_command hc
  rw [serve, wp_bind, wp_modify, wp_bind, wp_get]
  dsimp only
  rw [tokenize_receive hs]
  generalize words isDelim (cstr msg) = ws at hspell
  have hrep := h.receive (receive msg s.buffer)
  have htoken : ∀ {n w}, n < 4 → ws[n]? = some w → (ws.take MAX_TOKENS)[n]? = some w := by
    intro n w hn hw
    rw [List.getElem?_take_of_lt (hn.trans (by decide)), hw]
  cases hspell with
  | create hkey hne hsize =>
    rw [wp_bind]
    refine wp_token (htoken (by simp) rfl) ?_
    rw [if_pos rfl]
    exact served_create hrep (htoken (by simp) rfl) hkey hne (htoken (by simp) rfl) hsize
      (htoken (by simp) rfl) hroom
  | read hkey hne =>
    rw [wp_bind]
    refine wp_token (htoken (by simp) rfl) ?_
    rw [if_neg (by simp), if_pos rfl]
    exact served_read hrep (htoken (by simp) rfl) hkey hne
  | update hkey hne hsize =>
    rw [wp_bind]
    refine wp_token (htoken (by simp) rfl) ?_
    rw [if_neg (by simp), if_neg (by simp), if_pos rfl]
    exact served_update hrep (htoken (by simp) rfl) hkey hne (htoken (by simp) rfl) hsize
      (htoken (by simp) rfl) hroom
  | delete hkey hne =>
    rw [wp_bind]
    refine wp_token (htoken (by simp) rfl) ?_
    rw [if_neg (by simp), if_neg (by simp), if_neg (by simp), if_pos rfl]
    exact served_delete hrep (htoken (by simp) rfl) hkey hne
  | disconnect =>
    rw [wp_bind]
    refine wp_token (htoken (by simp) rfl) ?_
    rw [if_neg (by simp), if_neg (by simp), if_neg (by simp), if_neg (by simp), if_pos rfl]
    exact .same hrep rfl (after_disconnect m) not_created_disconnect

/-! ## Runs -/

/-- The commands of a run and their answers. -/
def history (wide : Str → Int32) (tr : List (List Char × Str)) : List Event :=
  tr.filterMap fun x => (commandOf wide x.1).map (·, x.2)

theorem history_snoc {tr : List (List Char × Str)} {a : Str} (hc : commandOf wide msg = some c) :
    history wide (tr ++ [(msg, a)]) = history wide tr ++ [(c, a)] := by
  rw [history, List.filterMap_append]
  simp [history, hc]

/-- The slots hold the map of the history `h`. -/
structure Keeps (h : List Event) (s : Server) : Prop where
  rep : Rep (latest h) s
  idx : s.idx = created h
  clean : s.Clean

theorem Keeps.init : Keeps [] .init := by
  refine ⟨⟨Nat.zero_le _, ?_, ?_, ?_, ?_⟩, rfl, ?_⟩
  · exact fun i j hi => absurd hi.1 (Nat.not_lt_zero _)
  · exact fun i j hi => absurd hi.1 (Nat.not_lt_zero _)
  · exact fun i hi => absurd hi.1 (Nat.not_lt_zero _)
  · exact fun k hk => absurd rfl hk
  · intro c hc
    rw [Server.init, List.drop_replicate] at hc
    exact List.eq_of_mem_replicate hc

/-- A command is answered. -/
theorem Keeps.step {h : List Event} (hk : Keeps h s) (hlen : msg.length ≤ TOKEN_SIZE)
    (hc : commandOf wide msg = some c) (hroom : Roomy room c) :
    wp (serve wide room msg) s (fun _ => False) fun a s' =>
      a = answer (latest h) (created h) c ∧ Keeps (h ++ [(c, a)]) s' := by
  refine (served_message hk.rep hk.clean hc hroom).imp fun a s' hserved => ⟨?_, ?_, ?_, ?_⟩
  · rw [← hk.idx]
    exact hserved.answers
  · rw [latest_snoc]
    exact hserved.rep
  · rw [created_snoc, ← hk.idx]
    exact hserved.idx
  · rw [Server.Clean, hserved.buffer, drop_receive hlen]
    exact hk.clean

/-- Each command of a run was answered as the map of the commands before it says. -/
def Answered (wide : Str → Int32) (tr : List (List Char × Str)) : Prop :=
  Along (fun pre x => ∀ c, commandOf wide x.1 = some c →
    x.2 = answer (latest (history wide pre)) (created (history wide pre)) c) tr

theorem keeps_of_run {tr : List (List Char × Str)} (h : (server wide room).Run tr s)
    (hwf : ∀ x ∈ tr, WellFormed wide room x.1) : Keeps (history wide tr) s ∧ Answered wide tr := by
  refine h.invariant (I := fun tr s => (∀ x ∈ tr, WellFormed wide room x.1) →
    Keeps (history wide tr) s ∧ Answered wide tr) ?_ ?_ hwf
  · rintro s rfl -
    exact ⟨.init, .nil⟩
  · rintro tr s ⟨msg, a⟩ s' ih ⟨hlen, hret⟩ hwf
    obtain ⟨hkeeps, hanswered⟩ := ih fun x hx => hwf x (List.mem_append_left _ hx)
    obtain ⟨-, c, hc, hroom⟩ := hwf (msg, a) (List.mem_append_right _ List.mem_cons_self)
    obtain ⟨ha, hkeeps⟩ := (hkeeps.step hlen hc hroom).returns hret
    refine ⟨?_, hanswered.snoc fun c' hc' => ?_⟩
    · rwa [history_snoc hc]
    · obtain rfl : c = c' := Option.some.inj (hc.symm.trans hc')
      exact ha

theorem Keeps.exists_step {h : List Event} (hk : Keeps h s) (hwf : WellFormed wide room msg) :
    ∃ a s', (server wide room).step s (msg, a) s' := by
  obtain ⟨hlen, c, hc, hroom⟩ := hwf
  obtain ⟨a, s', hret, -⟩ := (hk.step hlen hc hroom).total
  exact ⟨a, s', hlen, hret⟩

theorem Rep.lookup (h : Rep m s) (hkey : key ≠ -1) :
    (∃ i, s.At key i ∧ s.Holds i v) ↔ m key = some v := by
  constructor
  · rintro ⟨i, hi, n, hn⟩
    obtain ⟨w, ⟨n', hn'⟩, hw⟩ := h.holds_at hi hkey
    rw [hn] at hn'
    cases hn'
    exact hw
  · intro hv
    obtain ⟨i, hi, hik⟩ := h.total key (by rw [hv]; exact Option.some_ne_none v)
    obtain ⟨w, hw, hmw⟩ := h.holds i hi
    rw [hik, hv] at hmw
    cases hmw
    exact ⟨i, ⟨hi.1, hik⟩, hw⟩

/-- In a run of commands with blocks that are large enough, no key is in two slots, the slots hold
the latest values, each command was answered as the map of the commands before it says, and each
further command is answered. -/
theorem store_refines_map (wide : Str → Int32) (room : ℕ → ℕ) {tr : List (List Char × Str)}
    {s : Server} (h : (server wide room).Run tr s) (hwf : ∀ x ∈ tr, WellFormed wide room x.1) :
    (∀ i j : Fin MAX_KEYS, i < s.idx → j < s.idx → s.key_arr i = s.key_arr j → s.key_arr i ≠ -1 →
      i = j) ∧
    (∀ key, key ≠ -1 → ∀ v,
      (∃ i, s.At key i ∧ s.Holds i v) ↔ latest (history wide tr) key = some v) ∧
    Answered wide tr ∧
    ∀ msg, WellFormed wide room msg → ∃ a s', (server wide room).step s (msg, a) s' := by
  obtain ⟨hkeeps, hanswered⟩ := keeps_of_run h hwf
  refine ⟨?_, ?_, hanswered, fun msg => hkeeps.exists_step⟩
  · intro i j hi hj hij hne
    exact hkeeps.rep.unique i j ⟨hi, hne⟩ ⟨hj, by rwa [← hij]⟩ hij
  · intro key hkey v
    exact hkeeps.rep.lookup hkey

/-- All commands can be sent, one after the other. -/
theorem exists_run {msgs : List (List Char)} (hwf : ∀ msg ∈ msgs, WellFormed wide room msg) :
    ∃ tr s, (server wide room).Run tr s ∧ tr.map Prod.fst = msgs := by
  induction msgs using List.reverseRecOn with
  | nil => exact ⟨[], _, .init rfl, rfl⟩
  | append_singleton msgs msg ih =>
    obtain ⟨tr, s, h, hmsgs⟩ := ih fun msg hmsg => hwf msg (List.mem_append_left _ hmsg)
    have htr : ∀ x ∈ tr, WellFormed wide room x.1 := by
      intro x hx
      refine hwf x.1 (List.mem_append_left _ ?_)
      rw [← hmsgs]
      exact List.mem_map_of_mem hx
    obtain ⟨a, s', hstep⟩ := (keeps_of_run h htr).1.exists_step
      (hwf msg (List.mem_append_right _ List.mem_cons_self))
    exact ⟨_, s', h.step hstep, by rw [List.map_append, hmsgs]; rfl⟩

/-- A key that is deleted and created again. -/
theorem store_refines_map_create_again : ∃ tr s, (server 0 id).Run tr s ∧
    tr = [("create 5 4 abc".toList, "Key Value pair Added".toList),
      ("delete 5".toList, "Deleted key".toList),
      ("create 5 3 hi".toList, "Key Value pair Added".toList), ("read 5".toList, "hi".toList)] := by
  have hc₁ : commandOf 0 "create 5 4 abc".toList = some (.create 5 4 "abc".toList) := rfl
  have hc₂ : commandOf 0 "delete 5".toList = some (.delete 5) := rfl
  have hc₃ : commandOf 0 "create 5 3 hi".toList = some (.create 5 3 "hi".toList) := rfl
  have hc₄ : commandOf 0 "read 5".toList = some (.read 5) := rfl
  have hwf : ∀ msg ∈ ["create 5 4 abc".toList, "delete 5".toList, "create 5 3 hi".toList,
      "read 5".toList], WellFormed 0 id msg := by
    simp only [List.forall_mem_cons]
    exact ⟨⟨by decide, _, hc₁, show 3 < 4 by decide⟩, ⟨by decide, _, hc₂, trivial⟩,
      ⟨by decide, _, hc₃, show 2 < 3 by decide⟩, ⟨by decide, _, hc₄, trivial⟩, nofun⟩
  obtain ⟨tr, s, h, hmsgs⟩ := exists_run hwf
  have htr : ∀ x ∈ tr, WellFormed 0 id x.1 := fun x hx => hwf x.1 (hmsgs ▸ List.mem_map_of_mem hx)
  obtain ⟨-, -, hanswered, -⟩ := store_refines_map 0 id h htr
  refine ⟨tr, s, h, ?_⟩
  match tr, hmsgs with
  | [(m₁, a₁), (m₂, a₂), (m₃, a₃), (m₄, a₄)], hmsgs =>
    simp only [List.map_cons, List.map_nil, List.cons.injEq, and_true] at hmsgs
    obtain ⟨rfl, rfl, rfl, rfl⟩ := hmsgs
    obtain rfl := hanswered [] _ _ rfl _ hc₁
    obtain rfl := hanswered [_] _ _ rfl _ hc₂
    obtain rfl := hanswered [_, _] _ _ rfl _ hc₃
    obtain rfl := hanswered [_, _, _] _ _ rfl _ hc₄
    decide

end KeyValue

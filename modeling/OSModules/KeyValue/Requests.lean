/-
  What the server does with any message: requests of any key, -1 included, and messages whose words
  are no request.
-/
import OSModules.KeyValue.Refine

namespace KeyValue

open CString CHeap Prog Runs

/-! ## Requests -/

/-- The request that a message is. -/
def requestOf (wide : Str → Int32) (msg : List Char) : Option Command := request wide (tokenize msg)

/-! ## What is done with a request -/

variable {s : Server} {wide : Str → Int32} {room : ℕ → ℕ} {ws : List Str} {c : Command}

/-- The buffer of a slot is allocated. -/
def Server.Allocated (s : Server) (i : Fin MAX_KEYS) : Prop := s.heap.block (s.value_arr i) ≠ none

/-- The answers to requests. -/
inductive Answers (room : ℕ → ℕ) (s : Server) : Command → Str → Server → Prop
  | full {key n v} : s.idx = MAX_KEYS → Answers room s (.create key n v) "storage full".toList s
  | found {key n v i} : s.idx < MAX_KEYS → s.first key = some i →
      Answers room s (.create key n v) "already key exists".toList s
  | added {key n v} (hlt : s.idx < MAX_KEYS) : s.first key = none →
      v.length < room (n % 2 ^ 64).toNat →
      Answers room s (.create key n v) "Key Value pair Added".toList (s.added ⟨s.idx, hlt⟩ key n v)
  | value {key i n v} : s.first key = some i → s.heap.block (s.value_arr i) = some ⟨n, some v⟩ →
      Answers room s (.read key) v s
  | noValue {key} : s.first key = none → Answers room s (.read key) "No such key".toList s
  | updated {key n v i} : s.first key = some i → s.Allocated i → v.length < room 4 →
      Answers room s (.update key n v) "Updated".toList (s.updated i n v)
  | notUpdated {key n v} : s.first key = none →
      Answers room s (.update key n v) "No such key".toList s
  | deleted {key i} : s.first key = some i → s.Allocated i →
      Answers room s (.delete key) "Deleted key".toList (s.deleted i)
  | notDeleted {key} : s.first key = none → Answers room s (.delete key) "No such key".toList s
  | disconnected : Answers room s .disconnect "disconnecting".toList s

/-- The requests that get no answer. -/
inductive Fails (room : ℕ → ℕ) (s : Server) : Command → Fault → Prop
  | create {key n v} : s.idx < MAX_KEYS → s.first key = none →
      ¬ v.length < room (n % 2 ^ 64).toNat → Fails room s (.create key n v) .bufferOverflow
  | read {key i} : s.first key = some i → ¬ s.Allocated i → Fails room s (.read key) .notAllocated
  | updateFreed {key n v i} : s.first key = some i → ¬ s.Allocated i →
      Fails room s (.update key n v) .notAllocated
  | update {key n v i} : s.first key = some i → s.Allocated i → ¬ v.length < room 4 →
      Fails room s (.update key n v) .bufferOverflow
  | delete {key i} : s.first key = some i → ¬ s.Allocated i →
      Fails room s (.delete key) .notAllocated

/-- The slots in use have been given a buffer, which has a text as long as it is allocated. -/
structure Server.Sound (s : Server) : Prop where
  idx_le : s.idx ≤ MAX_KEYS
  ne_null : ∀ i : Fin MAX_KEYS, i < s.idx → s.value_arr i ≠ NULL
  text : ∀ i : Fin MAX_KEYS, i < s.idx → s.Allocated i → ∃ v, s.Holds i v

/-- The commands of `main`. -/
def dispatch (wide : Str → Int32) (room : ℕ → ℕ) (ws : List Str) : KV Str := do
  let command ← token ws 0
  if command = "create".toList then create_key_value_pair wide ws room
  else if command = "read".toList then Read wide ws
  else if command = "update".toList then update wide ws room
  else if command = "delete".toList then delete wide ws
  else if command = "disconnect".toList then return "disconnecting".toList
  else return "I got your message".toList

def Server.received (s : Server) (msg : List Char) : Server :=
  { s with buffer := receive msg s.buffer }

theorem wp_serve {msg : List Char} (hs : s.Clean) {E : Fault → Prop} {Q : Str → Server → Prop} :
    wp (serve wide room msg) s E Q ↔
      wp (dispatch wide room (tokenize msg)) (s.received msg) E Q := by
  have htokens : tokenize (receive msg s.buffer) = tokenize msg := by
    rw [tokenize_receive hs, tokenize, strtoks_eq_take]
  rw [serve, wp_bind, wp_modify, wp_bind, wp_get]
  dsimp only
  rw [htokens]
  rfl

namespace Server.Sound
variable {i : Fin MAX_KEYS} {k t v : Str} {key len : ℤ} (hs : s.Sound)
include hs

theorem value_ne_null (hi : s.first key = some i) : s.value_arr i ≠ NULL :=
  hs.ne_null i (first_eq_some.1 hi).1.1

variable (hk : ws[1]? = some k) (hkey : atoi wide k = key)
include hk hkey

theorem wp_create (ht : ws[2]? = some t) (hlen : atoi wide t = len) (hv : ws[3]? = some v) :
    wp (create_key_value_pair wide ws room) s (Fails room s (.create key len v))
      (Answers room s (.create key len v)) :=
  wp_create_key_value_pair hs.idx_le hk hkey ht hlen hv .full (fun _ => .found) .added .create

theorem wp_read : wp (Read wide ws) s (Fails room s (.read key)) (Answers room s (.read key)) := by
  refine wp_Read hs.idx_le hk hkey (fun i hi => ?_) .noValue
  by_cases halloc : s.Allocated i
  · obtain ⟨v, n, hblock⟩ := hs.text i (first_eq_some.1 hi).1.1 halloc
    exact Or.inl ⟨n, v, hblock, .value hi hblock⟩
  · exact Or.inr ⟨not_not.1 halloc, .read hi halloc⟩

theorem wp_update (ht : ws[2]? = some t) (hlen : atoi wide t = len) (hv : ws[3]? = some v) :
    wp (update wide ws room) s (Fails room s (.update key len v))
      (Answers room s (.update key len v)) := by
  refine KeyValue.wp_update hs.idx_le hk hkey ht hlen hv (fun _ => .updated) (fun _ => .update)
    (fun i hi hfreed => ?_) .notUpdated
  exact ⟨hs.value_ne_null hi, .updateFreed hi (not_not.2 hfreed)⟩

theorem wp_delete :
    wp (delete wide ws) s (Fails room s (.delete key)) (Answers room s (.delete key)) := by
  refine KeyValue.wp_delete hs.idx_le hk hkey (fun _ => .deleted) (fun i hi hfreed => ?_)
    .notDeleted
  exact ⟨hs.value_ne_null hi, .delete hi (not_not.2 hfreed)⟩

end Server.Sound

/-- A request is answered, or it fails. -/
theorem Server.Sound.wp_request (hs : s.Sound) (hc : request wide ws = some c) :
    wp (dispatch wide room ws) s (Fails room s c) (Answers room s c) := by
  have hasks := asks_of_request hc
  rw [dispatch, wp_bind]
  cases hasks with
  | create hkey hsize =>
    refine wp_token rfl ?_
    rw [if_pos rfl]
    exact hs.wp_create rfl hkey rfl hsize rfl
  | read hkey =>
    refine wp_token rfl ?_
    rw [if_neg (by simp), if_pos rfl]
    exact hs.wp_read rfl hkey
  | update hkey hsize =>
    refine wp_token rfl ?_
    rw [if_neg (by simp), if_neg (by simp), if_pos rfl]
    exact hs.wp_update rfl hkey rfl hsize rfl
  | delete hkey =>
    refine wp_token rfl ?_
    rw [if_neg (by simp), if_neg (by simp), if_neg (by simp), if_pos rfl]
    exact hs.wp_delete rfl hkey
  | disconnect =>
    refine wp_token rfl ?_
    rw [if_neg (by simp), if_neg (by simp), if_neg (by simp), if_neg (by simp), if_pos rfl]
    exact .disconnected

/-! ## Messages that are no request -/

/-- A size and a value. -/
def Enough (args : List Str) : Prop := 2 ≤ args.length

theorem Enough.exists_cons {args : List Str} (h : Enough args) :
    ∃ n v rest, args = n :: v :: rest := by
  match args, h with
  | n :: v :: rest, _ => exact ⟨n, v, rest, rfl⟩

/-- No word is missing that the server uses, be it behind a `free` of a buffer that is freed. -/
def Complete (wide : Str → Int32) (s : Server) : List Str → Prop
  | [] => False
  | [c] => c ≠ "create".toList ∧ c ≠ "read".toList ∧ c ≠ "update".toList ∧ c ≠ "delete".toList
  | c :: k :: args =>
    (c = "create".toList → s.idx < MAX_KEYS → s.first (atoi wide k) = none → Enough args) ∧
    (c = "update".toList → ∀ i, s.first (atoi wide k) = some i → Enough args)

/-- Behind the key there are not enough words. -/
theorem wp_args {k : Str} {args : List Str} {w : Str} (hargs : ¬ Enough args) {E : Fault → Prop}
    (hmissing : E .uninitialised) {f : ℤ → Server → Server} {Q : ℤ → Server → Str → Server → Prop} :
    wp (intToken wide (w :: k :: args) 2) s E fun len s' =>
      wp (token (w :: k :: args) 3) (f len s') E (Q len s') := by
  rcases args with _ | ⟨n, _ | ⟨v, rest⟩⟩
  · exact wp_intToken_missing rfl hmissing
  · exact wp_intToken rfl rfl (wp_token_missing rfl hmissing)
  · exact absurd (by simp [Enough]) hargs

section
variable {k : Str} {args : List Str} (hs : s.Sound) (hargs : ¬ Enough args)
include hs hargs

theorem Server.Sound.wp_create_other :
    wp (create_key_value_pair wide ("create".toList :: k :: args) room) s
      (fun _ => ¬ Complete wide s ("create".toList :: k :: args))
      fun _ s' => s' = s ∧ Complete wide s ("create".toList :: k :: args) := by
  have hcomplete : Complete wide s ("create".toList :: k :: args) ↔
      (s.idx < MAX_KEYS → s.first (atoi wide k) = none → Enough args) := by
    simp [Complete]
  rw [create_key_value_pair, wp_bind]
  refine wp_intToken rfl rfl ?_
  rw [wp_bind, wp_get]
  dsimp only
  split
  · next hmax => exact ⟨rfl, hcomplete.2 fun hlt => absurd hmax hlt.ne⟩
  · next hmax =>
    have hlt : s.idx < MAX_KEYS := lt_of_le_of_ne hs.idx_le hmax
    rw [wp_bind]
    refine wp_scan_first hs.idx_le ?_
    cases hfirst : s.first (atoi wide k) with
    | some i =>
      refine ⟨rfl, hcomplete.2 fun _ hnone => ?_⟩
      rw [hfirst] at hnone
      cases hnone
    | none =>
      simp only [wp_bind, wp_modify, wp_onHeap, wp_malloc]
      refine wp_index ⟨s.idx, hlt⟩ rfl (wp_args hargs ?_)
      exact fun hall => hargs (hcomplete.1 hall hlt hfirst)

theorem Server.Sound.wp_update_other :
    wp (update wide ("update".toList :: k :: args) room) s
      (fun _ => ¬ Complete wide s ("update".toList :: k :: args))
      fun _ s' => s' = s ∧ Complete wide s ("update".toList :: k :: args) := by
  have hcomplete : Complete wide s ("update".toList :: k :: args) ↔
      ∀ i, s.first (atoi wide k) = some i → Enough args := by
    simp [Complete]
  rw [update, wp_bind]
  refine wp_intToken rfl rfl ?_
  rw [wp_bind, wp_get, wp_bind]
  refine wp_scan_first hs.idx_le ?_
  cases hfirst : s.first (atoi wide k) with
  | none =>
    refine ⟨rfl, hcomplete.2 fun i hi => ?_⟩
    rw [hfirst] at hi
    cases hi
  | some i =>
    have hno : ¬ Complete wide s ("update".toList :: k :: args) :=
      fun hall => hargs (hcomplete.1 hall i hfirst)
    simp only [wp_bind, wp_get, wp_modify, wp_onHeap, wp_malloc]
    by_cases halloc : s.Allocated i
    · exact wp_free halloc (wp_args hargs hno)
    · refine wp_free_freed (hs.value_ne_null hfirst) (not_not.1 halloc) ?_
      exact hno

end

/-- A command without a key. -/
theorem wp_keyless {w : Str} {E : Fault → Prop} {Q : Str → Server → Prop} (hE : E .uninitialised)
    {f : ℤ → KV Str} : wp (intToken wide [w] 1 >>= f) s E Q := by
  rw [wp_bind]
  exact wp_intToken_missing rfl hE

/-- Words that are no request change nothing, or one of them is missing. -/
theorem Server.Sound.wp_other (hs : s.Sound) (hc : request wide ws = none) :
    wp (dispatch wide room ws) s (fun _ => ¬ Complete wide s ws)
      fun _ s' => s' = s ∧ Complete wide s ws := by
  have hno : ∀ {c}, ¬ Asks wide ws c := by
    intro c hasks
    rw [hasks.request] at hc
    cases hc
  rw [dispatch, wp_bind]
  rcases ws with _ | ⟨w, _ | ⟨k, args⟩⟩
  · exact wp_token_missing rfl id
  · refine wp_token rfl ?_
    split_ifs with hcreate hread hupdate hdelete hdisconnect
    · exact wp_keyless fun hall => hall.1 hcreate
    · exact wp_keyless fun hall => hall.2.1 hread
    · exact wp_keyless fun hall => hall.2.2.1 hupdate
    · exact wp_keyless fun hall => hall.2.2.2 hdelete
    · subst hdisconnect
      exact absurd .disconnect hno
    · exact ⟨rfl, hcreate, hread, hupdate, hdelete⟩
  · refine wp_token rfl ?_
    split_ifs with hcreate hread hupdate hdelete hdisconnect
    · subst hcreate
      refine hs.wp_create_other fun hargs => ?_
      obtain ⟨n, v, rest, rfl⟩ := hargs.exists_cons
      exact hno (.create rfl rfl)
    · subst hread
      exact absurd (.read rfl) hno
    · subst hupdate
      refine hs.wp_update_other fun hargs => ?_
      obtain ⟨n, v, rest, rfl⟩ := hargs.exists_cons
      exact hno (.update rfl rfl)
    · subst hdelete
      exact absurd (.delete rfl) hno
    · subst hdisconnect
      exact absurd .disconnect hno
    · exact ⟨rfl, fun h => absurd h hcreate, fun h => absurd h hupdate⟩

end KeyValue

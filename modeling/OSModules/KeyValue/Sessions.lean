/-
  Sessions of clients, one after the other: a client leaves exactly if the server lets it go, and
  what is typed and printed is what a map under `int` keys answers.
-/
import OSModules.KeyValue.Client

namespace KeyValue

open CString CHeap Prog Runs

/-! ## The end of a session

No value is as long as `disconnecting`: a message has room for twelve characters of it. -/

variable {s : Server} {wide : Str → Int32} {room : ℕ → ℕ} {ws : List Str} {msg typed : List Char}

/-- The longest value of a message. -/
abbrev VALUE_SIZE : ℕ := 12

def Server.Short (s : Server) : Prop :=
  ∀ p n v, s.heap.block p = some ⟨n, some v⟩ → v.length ≤ VALUE_SIZE

/-- The words of a message with room for a command, a key, a size and a value. -/
def Brief (ws : List Str) : Prop := (∀ w ∈ ws, w ≠ []) ∧ ws.flatten.length ≤ TOKEN_SIZE

theorem brief_tokenize (hlen : msg.length ≤ TOKEN_SIZE) : Brief (tokenize msg) := by
  rw [tokenize, strtoks_eq_take]
  constructor
  · intro w hw
    have hw := List.mem_of_mem_take hw
    rw [words, List.mem_filter] at hw
    simpa using hw.2
  · have htake : ((words isDelim (cstr msg)).take MAX_TOKENS).flatten.length ≤
        (words isDelim (cstr msg)).flatten.length :=
      ((List.take_sublist _ _).flatten).length_le
    have hfilter : (words isDelim (cstr msg)).flatten.length ≤ (cstr msg).length := by
      rw [flatten_words]
      exact List.length_filter_le _ _
    have hcstr : (cstr msg).length ≤ msg.length := (List.takeWhile_prefix _).length_le
    omega

theorem Brief.length_value (hws : Brief ws) {c k n v : Str} (hc : ws[0]? = some c)
    (hsix : 6 ≤ c.length) (hk : ws[1]? = some k) (hn : ws[2]? = some n) (hv : ws[3]? = some v) :
    v.length ≤ VALUE_SIZE := by
  obtain ⟨hne, hlen⟩ := hws
  match ws with
  | c' :: k' :: n' :: v' :: rest =>
    cases hc
    cases hk
    cases hn
    cases hv
    have hkpos : 0 < k.length := List.length_pos_of_ne_nil (hne k (by simp))
    have hnpos : 0 < n.length := List.length_pos_of_ne_nil (hne n (by simp))
    simp only [List.flatten_cons, List.length_append, TOKEN_SIZE, VALUE_SIZE] at hlen ⊢
    omega

/-! What the parts of a command return, if they do. -/

abbrev anyFault : Fault → Prop := fun _ => True

theorem token_returns {n : ℕ} {Q : Str → Server → Prop} (hQ : ∀ t, ws[n]? = some t → Q t s) :
    wp (token ws n) s anyFault Q := by
  cases ht : ws[n]? with
  | none => exact wp_token_missing ht trivial
  | some t => exact wp_token ht (hQ t ht)

theorem intToken_returns {n : ℕ} {Q : ℤ → Server → Prop} (hQ : ∀ x t, ws[n]? = some t → Q x s) :
    wp (intToken wide ws n) s anyFault Q := by
  rw [intToken, wp_bind]
  exact token_returns fun t ht => hQ _ t ht

theorem index_returns {n : ℕ} {i : ℤ} {e : Fault} {Q : Fin n → Server → Prop} (hQ : ∀ k, Q k s) :
    wp (index n i e) s anyFault Q := by
  rw [index]
  split
  · exact hQ _
  · exact trivial

theorem scan_returns {key : ℤ} {i n : ℕ} {Q : Option (Fin MAX_KEYS) → Server → Prop}
    (hQ : ∀ k, Q k s) : wp (scan key i n) s anyFault Q := by
  induction n generalizing i with
  | zero => exact hQ none
  | succ n ih =>
    rw [scan, wp_bind]
    refine index_returns fun k => ?_
    rw [wp_bind, wp_get]
    split
    · exact hQ (some k)
    · exact ih

namespace Server.Short
variable (hs : s.Short)
include hs

/-- A new block gets a text. -/
theorem strcpy_returns {n : ℕ} {v : Str} (hv : v.length ≤ VALUE_SIZE) {Q : Unit → Server → Prop}
    (hQ : ∀ s' : Server, s'.Short → Q () s') :
    wp (onHeap (CHeap.strcpy room s.heap.next v .notAllocated .bufferOverflow))
      { s with heap := s.heap.alloc n } anyFault Q := by
  rw [wp_onHeap]
  by_cases hroom : v.length < room n
  · refine wp_strcpy (Heap.alloc_block_next _ _) hroom (hQ _ fun p m w hp => ?_)
    change (s.heap.put n v).block p = _ at hp
    rw [Heap.put_block, Function.update_apply] at hp
    split at hp
    · cases hp
      exact hv
    · exact hs p m w hp
  · exact wp_strcpy_overflow (Heap.alloc_block_next _ _) hroom trivial

theorem free_returns {p : ℕ} {Q : Unit → Server → Prop} (hQ : ∀ s' : Server, s'.Short → Q () s') :
    wp (onHeap (free p .notAllocated)) s anyFault Q := by
  rw [wp_onHeap]
  by_cases hnull : p = NULL
  · simp only [free, wp_bind, wp_get, if_pos hnull]
    exact hQ s hs
  · by_cases hp : s.heap.block p = none
    · exact wp_free_freed hnull hp trivial
    · refine wp_free hp (hQ _ fun q n v hq => ?_)
      rw [Heap.release_block, Function.update_apply] at hq
      split at hq
      · cases hq
      · exact hs q n v hq

end Server.Short

/-- An answer that ends no session, and a store whose values are still short. -/
def StaysOpen (a : Str) (s : Server) : Prop := a ≠ "disconnecting".toList ∧ s.Short

namespace Server.Short
variable (hs : s.Short) (hws : Brief ws)
include hs

include hws in
theorem create (hc : ws[0]? = some "create".toList) :
    wp (create_key_value_pair wide ws room) s anyFault StaysOpen := by
  rw [create_key_value_pair, wp_bind]
  refine intToken_returns fun key k hk => ?_
  rw [wp_bind, wp_get]
  dsimp only
  split
  · exact ⟨by simp, hs⟩
  · rw [wp_bind]
    refine scan_returns fun i => ?_
    cases i with
    | some i => exact ⟨by simp, hs⟩
    | none =>
      simp only [wp_bind, wp_modify]
      refine index_returns fun i => intToken_returns fun len n hn => ?_
      rw [wp_onHeap, wp_malloc]
      refine token_returns fun v hv => ?_
      exact strcpy_returns (s := { s with
          key_arr := Function.update s.key_arr i key
          value_len := Function.update s.value_len i len
          value_arr := Function.update s.value_arr i s.heap.next }) hs
        (hws.length_value hc (by simp) hk hn hv) fun s' hs' => ⟨by simp, hs'⟩

theorem read : wp (Read wide ws) s anyFault StaysOpen := by
  rw [Read, wp_bind]
  refine intToken_returns fun key k hk => ?_
  rw [wp_bind, wp_get, wp_bind]
  refine scan_returns fun i => ?_
  cases i with
  | none => exact ⟨by simp, hs⟩
  | some i =>
    simp only [wp_bind, wp_get]
    rw [wp_onHeap]
    rcases hblock : s.heap.block (s.value_arr i) with _ | ⟨n, _ | v⟩
    · exact wp_load_freed hblock trivial
    · simp only [load, wp_bind, wp_get, hblock]
      exact trivial
    · refine wp_load hblock ⟨?_, hs⟩
      rintro rfl
      exact absurd (hs _ _ _ hblock) (by simp)

include hws in
theorem update (hc : ws[0]? = some "update".toList) :
    wp (KeyValue.update wide ws room) s anyFault StaysOpen := by
  rw [KeyValue.update, wp_bind]
  refine intToken_returns fun key k hk => ?_
  rw [wp_bind, wp_get, wp_bind]
  refine scan_returns fun i => ?_
  cases i with
  | none => exact ⟨by simp, hs⟩
  | some i =>
    simp only [wp_bind, wp_get, wp_modify]
    refine free_returns hs fun s' hs' => intToken_returns fun len n hn => ?_
    rw [wp_onHeap, wp_malloc]
    refine token_returns fun v hv => ?_
    exact strcpy_returns (s := { s' with
        value_len := Function.update s'.value_len i len
        value_arr := Function.update s'.value_arr i s'.heap.next }) hs'
      (hws.length_value hc (by simp) hk hn hv) fun s'' hs'' => ⟨by simp, hs''⟩

theorem delete : wp (KeyValue.delete wide ws) s anyFault StaysOpen := by
  rw [KeyValue.delete, wp_bind]
  refine intToken_returns fun key k hk => ?_
  rw [wp_bind, wp_get, wp_bind]
  refine scan_returns fun i => ?_
  cases i with
  | none => exact ⟨by simp, hs⟩
  | some i =>
    simp only [wp_bind, wp_get, wp_modify]
    exact free_returns hs fun s' hs' => ⟨by simp, hs'⟩

end Server.Short

/-- A session is ended with `disconnect`, and with nothing else. -/
theorem Server.Short.dispatch (hs : s.Short) (hws : Brief ws) :
    wp (dispatch wide room ws) s anyFault fun a s' =>
      (a = "disconnecting".toList ↔ ws[0]? = some "disconnect".toList) ∧ s'.Short := by
  have hopen : ∀ {w : Str} {a : Str} {s' : Server}, ws[0]? = some w → w ≠ "disconnect".toList →
      StaysOpen a s' → (a = "disconnecting".toList ↔ ws[0]? = some "disconnect".toList) ∧
        s'.Short := by
    intro w a s' hw hne hstays
    refine ⟨iff_of_false hstays.1 fun hdis => hne ?_, hstays.2⟩
    exact Option.some.inj (hw.symm.trans hdis)
  rw [KeyValue.dispatch, wp_bind]
  refine token_returns fun w hw => ?_
  split_ifs with hcreate hread hupdate hdelete hdisconnect
  · subst hcreate
    exact (hs.create hws hw).imp fun a s' => hopen hw (by simp)
  · subst hread
    exact hs.read.imp fun a s' => hopen hw (by simp)
  · subst hupdate
    exact (hs.update hws hw).imp fun a s' => hopen hw (by simp)
  · subst hdelete
    exact hs.delete.imp fun a s' => hopen hw (by simp)
  · subst hdisconnect
    exact ⟨iff_of_true rfl hw, hs⟩
  · exact hopen hw hdisconnect ⟨by simp, hs⟩

theorem Server.Short.serve (wide : Str → Int32) (room : ℕ → ℕ) (hs : s.Short) (hclean : s.Clean)
    (hlen : msg.length ≤ TOKEN_SIZE) :
    wp (serve wide room msg) s anyFault fun a s' =>
      (a = "disconnecting".toList ↔ (tokenize msg)[0]? = some "disconnect".toList) ∧ s'.Short := by
  rw [wp_serve hclean]
  exact Server.Short.dispatch (s := s.received msg) hs (brief_tokenize hlen)

theorem short_of_run {tr : List (List Char × Str)} (h : (server wide room).Run tr s) : s.Short := by
  refine (h.invariant (I := fun tr s => (server wide room).Run tr s ∧ s.Short) ?_ ?_).2
  · rintro s rfl
    exact ⟨.init rfl, fun p n v hp => by cases hp⟩
  · rintro tr s ⟨msg, a⟩ s' ⟨hrun, hs⟩ ⟨hlen, hret⟩
    refine ⟨hrun.step ⟨hlen, hret⟩, ?_⟩
    exact ((hs.serve wide room (follows_of_run hrun).clean hlen).returns hret).2

theorem serve_disconnect (hclean : s.Clean)
    (hmsg : (tokenize msg)[0]? = some "disconnect".toList) :
    Returns (serve wide room msg) s "disconnecting".toList (s.received msg) := by
  refine .of_wp ?_
  rw [wp_serve hclean, dispatch, wp_bind]
  refine wp_token hmsg ?_
  rw [if_neg (by simp), if_neg (by simp), if_neg (by simp), if_neg (by simp), if_pos rfl]
  exact ⟨rfl, rfl⟩

/-- In any session without a fault of the server so far, whatever was typed and stored, a client
leaves after a line that is answered exactly if the message that is sent starts with `disconnect`,
for which the server gives it up; and such a line is answered. -/
theorem client_leaves_iff {x : Session} (h : (session wide room).Reachable x) {stdin : List Char}
    (hx : x.client = some ⟨stdin, true⟩) :
    (∀ typed a x', (session wide room).step x (.command typed a) x' →
      (x'.client = none ↔ (tokenize (message typed))[0]? = some "disconnect".toList)) ∧
    ((tokenize (message (fgets 255 stdin).1))[0]? = some "disconnect".toList →
      ∃ a x', (session wide room).step x (.command (fgets 255 stdin).1 a) x') := by
  obtain ⟨tr, hrun⟩ := server_reachable h
  have hclean := (follows_of_run hrun).clean
  constructor
  · intro typed a x' hstep
    cases hstep with
    | command hread hret =>
      have hserve := (short_of_run hrun).serve wide room hclean (length_message typed)
      rw [← (hserve.returns hret).1]
      dsimp only
      split_ifs with ha
      · exact iff_of_true rfl ha
      · exact iff_of_false (by simp) ha
  · intro hmsg
    obtain ⟨_, server⟩ := x
    cases hx
    exact ⟨_, _, .command rfl (serve_disconnect hclean hmsg)⟩

theorem client_leaves_disconnect :
    ∃ x : Session, x.client = some ⟨"disconnect\n".toList, true⟩ ∧
      ∃ a x', (session 0 id).step x (.command "disconnect\n".toList a) x' ∧ x'.client = none := by
  have hreach : (session 0 id).Reachable _ := reachable_connected "disconnect".toList
  obtain ⟨hleaves, hanswer⟩ := client_leaves_iff hreach rfl
  have hmsg : (tokenize (message "disconnect\n".toList))[0]? = some "disconnect".toList := by
    decide +kernel
  obtain ⟨a, x', hstep⟩ := hanswer hmsg
  exact ⟨_, rfl, a, x', hstep, (hleaves _ _ _ hstep).2 hmsg⟩

/-! ## The store as its clients see it -/

/-- Whether a client runs, and is connected; the map; and how many `create`s succeeded. -/
structure Service where
  client : Option Bool
  map : ℤ → Option Str
  created : ℕ

inductive Service.Step (wide : Str → Int32) : Service → Session.Event → Service → Prop
  | start {m n stdin} : Step wide ⟨none, m, n⟩ (.start stdin) ⟨some false, m, n⟩
  | idle {m n typed w} : (words isDelim typed)[0]? = some w → w ≠ "connect".toList →
      Step wide ⟨some false, m, n⟩ (.offline typed) ⟨some false, m, n⟩
  | connect {m n typed ip port rest} : words isDelim typed = "connect".toList :: ip :: port :: rest →
      Step wide ⟨some false, m, n⟩ (.offline typed) ⟨some true, m, n⟩
  | command {m n typed c} : command wide (words isDelim typed) = some c →
      Step wide ⟨some true, m, n⟩ (.command typed (answer m n c))
        ⟨if c = .disconnect then none else some true, after m (c, answer m n c),
          n + if Created (c, answer m n c) then 1 else 0⟩

/-- Clients, one after the other, of a map. -/
def service (wide : Str → Int32) : LTS Service Session.Event where
  init b := b = ⟨none, fun _ => none, 0⟩
  step := Service.Step wide

/-- A command, with a key other than -1, that a message has room for, and the server a block for its
value. -/
structure Fits (wide : Str → Int32) (room : ℕ → ℕ) (typed : List Char) : Prop where
  nul : '\x00' ∉ typed
  short : ∀ c ∈ typed.drop TOKEN_SIZE, isDelim c
  command : ∃ c, command wide (words isDelim typed) = some c ∧ Roomy room c

theorem Fits.of_length (hnul : '\x00' ∉ typed) (hlen : typed.length ≤ TOKEN_SIZE) {c : Command}
    (hc : KeyValue.command wide (words isDelim typed) = some c) (hroom : Roomy room c) :
    Fits wide room typed := by
  refine ⟨hnul, ?_, c, hc, hroom⟩
  rw [List.drop_of_length_le hlen]
  exact fun c hc => absurd hc List.not_mem_nil

def Session.Event.Fits (wide : Str → Int32) (room : ℕ → ℕ) : Session.Event → Prop
  | .start _ => True
  | .offline typed => '\x00' ∉ typed
  | .command typed _ => KeyValue.Fits wide room typed

/-- The session does what the service does. -/
structure Stands (x : Session) (b : Service) : Prop where
  client : x.client.map Client.connection_flag = b.client
  rep : Rep b.map x.server
  idx : x.server.idx = b.created
  clean : x.server.Clean
  short : x.server.Short

theorem Fits.words_message (h : Fits wide room typed) :
    words isDelim (cstr (message typed)) = words isDelim typed := by
  have hnul : '\x00' ∉ typed.take TOKEN_SIZE := fun hc => h.nul (List.mem_of_mem_take hc)
  rw [cstr_message, cstr_of_notMem hnul]
  conv_rhs => rw [← List.take_append_drop TOKEN_SIZE typed, words_append_of_delim _ h.short]

theorem tokenize_cleared (hnul : '\x00' ∉ typed) :
    tokenize (cleared typed) = (words isDelim typed).take MAX_TOKENS := by
  rw [tokenize, strtoks_eq_take, cleared, cstr_append fun c => List.eq_of_mem_replicate,
    cstr_of_notMem hnul]

variable {x x' : Session} {b : Service}

/-- A command is answered as the map says. -/
theorem Stands.serve (h : Stands x b) (hfit : Fits wide room typed) :
    ∃ c, command wide (words isDelim typed) = some c ∧
      wp (serve wide room (message typed)) x.server (fun _ => False) fun a s' =>
        a = answer b.map b.created c ∧ (a = "disconnecting".toList ↔ c = .disconnect) ∧
          ∀ client, Stands ⟨client, s'⟩
            ⟨client.map Client.connection_flag, after b.map (c, a),
              b.created + if Created (c, a) then 1 else 0⟩ := by
  obtain ⟨c, hc, hroom⟩ := hfit.command
  have hcommand : commandOf wide (message typed) = some c := by
    rw [commandOf, hfit.words_message, hc]
  have hdisconnect : (tokenize (message typed))[0]? = some "disconnect".toList ↔ c = .disconnect := by
    have hspell := spells_of_command hc
    rw [tokenize, strtoks_eq_take, hfit.words_message, List.getElem?_take_of_lt (by simp)]
    generalize words isDelim typed = ws at hspell
    cases hspell <;> simp
  refine ⟨c, hc, ?_⟩
  obtain ⟨a, s', hret, hserved⟩ := (served_message h.rep h.clean hcommand hroom).total
  have hshort := (h.short.serve wide room h.clean (length_message typed)).returns hret
  refine hret.wp ⟨?_, ?_, fun client => ?_⟩
  · rw [← h.idx]
    exact hserved.answers
  · rw [hshort.1, hdisconnect]
  · refine ⟨rfl, hserved.rep, ?_, ?_, hshort.2⟩
    · rw [← h.idx]
      exact hserved.idx
    · rw [Server.Clean, hserved.buffer, drop_receive (length_message typed)]
      exact h.clean

theorem Stands.step (h : Stands x b) {e : Session.Event} (hfit : e.Fits wide room)
    (hstep : (session wide room).step x e x') :
    ∃ b', (service wide).step b e b' ∧ Stands x' b' := by
  obtain ⟨client, m, n⟩ := b
  have hclient := h.client
  cases hstep with
  | start =>
    cases hclient
    exact ⟨_, .start, rfl, h.rep, h.idx, h.clean, h.short⟩
  | idle hread htoken hne =>
    cases hclient
    refine ⟨_, .idle ?_ hne, rfl, h.rep, h.idx, h.clean, h.short⟩
    rwa [tokenize_cleared hfit, List.getElem?_take_of_lt (by simp)] at htoken
  | @connect _ typed _ _ ip port _ hread htokens =>
    cases hclient
    rw [tokenize_cleared hfit] at htokens
    have hwords := List.take_append_drop MAX_TOKENS (words isDelim typed)
    rw [htokens] at hwords
    exact ⟨_, .connect hwords.symm, rfl, h.rep, h.idx, h.clean, h.short⟩
  | command hread hret =>
    cases hclient
    obtain ⟨c, hc, hserve⟩ := h.serve hfit
    obtain ⟨rfl, hdisconnect, hstands⟩ := hserve.returns hret
    dsimp only at hdisconnect hstands ⊢
    refine ⟨_, .command hc, ?_⟩
    by_cases hc' : c = .disconnect
    · rw [if_pos (hdisconnect.2 hc'), if_pos hc']
      exact hstands none
    · rw [if_neg fun ha => hc' (hdisconnect.1 ha), if_neg hc']
      exact hstands (some _)

theorem Stands.init : Stands ⟨none, .init⟩ ⟨none, fun _ => none, 0⟩ := by
  have hkeeps := Keeps.init
  refine ⟨rfl, hkeeps.rep, rfl, hkeeps.clean, ?_⟩
  exact short_of_run (show (server 0 id).Run [] .init from .init rfl)

theorem stands_of_run {tr : List Session.Event} (h : (session wide room).Run tr x)
    (hfit : ∀ e ∈ tr, e.Fits wide room) : ∃ b, (service wide).Run tr b ∧ Stands x b := by
  refine h.simulate (G := fun _ e => e.Fits wide room) ?_ ?_ ?_
  · rintro x rfl
    exact ⟨_, rfl, .init⟩
  · intro x b e x' hstands hfit hstep
    exact hstands.step hfit hstep
  · rintro pre e post rfl b -
    exact hfit e (by simp)

/-- Sessions of clients, any number of them one after the other, whose commands have keys other than
-1 and fit into messages and blocks: what was typed and printed is what the map does and answers,
the slots hold the map in the end, and the next such command of a client that is connected is
answered. -/
theorem sessions_refine_map (wide : Str → Int32) (room : ℕ → ℕ) {tr : List Session.Event}
    {x : Session} (h : (session wide room).Run tr x) (hfit : ∀ e ∈ tr, e.Fits wide room) :
    (∃ b, (service wide).Run tr b ∧ x.client.map Client.connection_flag = b.client ∧
      ∀ key, key ≠ -1 → ∀ v, (∃ i, x.server.At key i ∧ x.server.Holds i v) ↔ b.map key = some v) ∧
    ∀ stdin, x.client = some ⟨stdin, true⟩ → Fits wide room (fgets 255 stdin).1 →
      ∃ a x', (session wide room).step x (.command (fgets 255 stdin).1 a) x' := by
  obtain ⟨b, hrun, hstands⟩ := stands_of_run h hfit
  refine ⟨⟨b, hrun, hstands.client, ?_⟩, ?_⟩
  · intro key hkey v
    exact hstands.rep.lookup hkey
  · intro stdin hstdin hline
    obtain ⟨c, -, hserve⟩ := hstands.serve hline
    obtain ⟨a, s', hret, -⟩ := hserve.total
    obtain ⟨_, server⟩ := x
    cases hstdin
    exact ⟨a, _, .command rfl hret⟩

/-- The second client finds what the first one left. -/
theorem sessions_refine_map_second : ∃ tr x b, (session 0 id).Run tr x ∧ (service 0).Run tr b ∧
    b.map 1 = some "hi".toList ∧
    ∃ a x', (session 0 id).step x (.command "read 1\n".toList a) x' := by
  have h : ∃ s₁, Returns (serve 0 id (message "create 1 3 hi\n".toList)) .init
      "Key Value pair Added".toList s₁ ∧
      ∃ s₂, Returns (serve 0 id (message "disconnect\n".toList)) s₁ "disconnecting".toList s₂ ∧
        0 < s₂.idx ∧ s₂.key_arr 0 = 1 ∧
          s₂.heap.block (s₂.value_arr 0) = some ⟨3, some "hi".toList⟩ := by decide +kernel
  obtain ⟨s₁, hcreate, s₂, hdisconnect, hidx, hkey, hblock⟩ := h
  have hconnect : tokenize (cleared "connect h 1\n".toList) =
      ["connect".toList, "h".toList, "1".toList] := by decide +kernel
  have hline : fgets 255 "connect h 1\ncreate 1 3 hi\ndisconnect\n".toList =
      ("connect h 1\n".toList, "create 1 3 hi\ndisconnect\n".toList) ∧
      fgets 255 "create 1 3 hi\ndisconnect\n".toList =
        ("create 1 3 hi\n".toList, "disconnect\n".toList) ∧
      fgets 255 "disconnect\n".toList = ("disconnect\n".toList, []) ∧
      fgets 255 "connect h 1\nread 1\n".toList =
        ("connect h 1\n".toList, "read 1\n".toList) := by decide +kernel
  obtain ⟨hline₁, hline₂, hline₃, hline₄⟩ := hline
  have hrun : (session 0 id).Run [] ⟨none, .init⟩ := .init rfl
  have hrun := hrun.step
    (show Session.Step 0 id _
      (.start "connect h 1\ncreate 1 3 hi\ndisconnect\n".toList) _ from .start)
  have hrun := hrun.step (show Session.Step 0 id _ (.offline _) _ from .connect hline₁ hconnect)
  have hrun := hrun.step (show Session.Step 0 id _ (.command _ _) _ from .command hline₂ hcreate)
  have hrun := hrun.step
    (show Session.Step 0 id _ (.command _ _) _ from .command hline₃ hdisconnect)
  have hrun := hrun.step
    (show Session.Step 0 id _ (.start "connect h 1\nread 1\n".toList) _ from .start)
  have hrun := hrun.step (show Session.Step 0 id _ (.offline _) _ from .connect hline₄ hconnect)
  have hc₁ : command 0 (words isDelim "create 1 3 hi\n".toList) =
    some (.create 1 3 "hi".toList) := rfl
  have hc₂ : command 0 (words isDelim "disconnect\n".toList) = some .disconnect := rfl
  have hc₃ : command 0 (words isDelim "read 1\n".toList) = some (.read 1) := rfl
  have hread : Fits 0 id "read 1\n".toList := .of_length (by decide) (by decide) hc₃ trivial
  obtain ⟨⟨b, hb, -, hmap⟩, hanswer⟩ := sessions_refine_map 0 id hrun (by
    simp only [List.nil_append, List.cons_append, List.forall_mem_cons]
    refine ⟨trivial, by simp [Session.Event.Fits], ?_, ?_, trivial, by simp [Session.Event.Fits], nofun⟩
    · exact .of_length (by decide) (by decide) hc₁ (show 2 < 3 by decide)
    · exact .of_length (by decide) (by decide) hc₂ trivial)
  refine ⟨_, _, b, hrun, hb, ?_, hanswer _ rfl hread⟩
  exact (hmap 1 (by decide) _).1 ⟨0, ⟨hidx, hkey⟩, 3, hblock⟩

end KeyValue

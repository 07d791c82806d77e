/-
  `my_client.c`: the lines that are typed go to the server as messages of a fixed length, and
  its answers are printed.
-/
import OSModules.KeyValue.Slots

namespace KeyValue

open CString Prog Runs

/-! ## The client -/

/-- `fgets(buffer, n, stdin)`: the characters that are read, and those that are left. -/
def fgets : ℕ → List Char → List Char × List Char
  | 0, stdin | 1, stdin => ([], stdin)
  | _, [] => ([], [])
  | n + 2, c :: stdin =>
    if c = '\n' then ([c], stdin) else (c :: (fgets (n + 1) stdin).1, (fgets (n + 1) stdin).2)

/-- The buffer after `bzero(buffer, 256)` and the characters read into it. -/
def cleared (typed : List Char) : List Char := typed ++ List.replicate (256 - typed.length) '\x00'

/-- What is written to the socket. -/
def message (typed : List Char) : List Char := (cleared typed).take TOKEN_SIZE

/-- What is left of `stdin`, and whether there is a connection. -/
structure Client where
  stdin : List Char
  connection_flag : Bool

/-- The server and the client that runs, if any. -/
structure Session where
  client : Option Client
  server : Server

inductive Session.Event where
  | start (stdin : List Char)
  | offline (typed : List Char)
  | command (typed : List Char) (answer : Str)

/-- One round of the loop of the client, or the start of a client. Its `tokenize` is that of the
server. A line at which the server faults has no step: it ends the session. -/
inductive Session.Step (wide : Str → Int32) (room : ℕ → ℕ) :
    Session → Session.Event → Session → Prop
  | start {stdin s} : Step wide room ⟨none, s⟩ (.start stdin) ⟨some ⟨stdin, false⟩, s⟩
  | idle {stdin typed rest s t} : fgets 255 stdin = (typed, rest) →
      (tokenize (cleared typed))[0]? = some t → t ≠ "connect".toList →
      Step wide room ⟨some ⟨stdin, false⟩, s⟩ (.offline typed) ⟨some ⟨rest, false⟩, s⟩
  /-- `connect <server-ip> <server-port>` -/
  | connect {stdin typed rest s ip port tokens} : fgets 255 stdin = (typed, rest) →
      tokenize (cleared typed) = "connect".toList :: ip :: port :: tokens →
      Step wide room ⟨some ⟨stdin, false⟩, s⟩ (.offline typed) ⟨some ⟨rest, true⟩, s⟩
  | command {stdin typed rest s answer s'} : fgets 255 stdin = (typed, rest) →
      Returns (serve wide room (message typed)) s answer s' →
      Step wide room ⟨some ⟨stdin, true⟩, s⟩ (.command typed answer)
        ⟨if answer = "disconnecting".toList then none else some ⟨rest, true⟩, s'⟩

def session (wide : Str → Int32) (room : ℕ → ℕ) : LTS Session Session.Event where
  init x := x = ⟨none, .init⟩
  step := Session.Step wide room

/-! ## Lines and messages -/

/-- A line that fits is read with its newline. -/
theorem fgets_line {line : List Char} (hline : '\n' ∉ line) {n : ℕ} (hlen : line.length + 1 < n)
    (rest : List Char) : fgets n (line ++ '\n' :: rest) = (line ++ ['\n'], rest) := by
  induction line generalizing n with
  | nil =>
    obtain ⟨n, rfl⟩ : ∃ m, n = m + 2 := ⟨n - 2, by simp at hlen; omega⟩
    rfl
  | cons c line ih =>
    obtain ⟨n, rfl⟩ : ∃ m, n = m + 2 := ⟨n - 2, by simp at hlen; omega⟩
    rw [List.mem_cons, not_or] at hline
    rw [List.length_cons] at hlen
    rw [List.cons_append, fgets, if_neg (Ne.symm hline.1), ih hline.2 (by omega)]
    rfl

/-- Of a longer line, the first characters are read. -/
theorem fgets_long {line : List Char} (hline : '\n' ∉ line) (rest : List Char) :
    fgets (line.length + 1) (line ++ rest) = (line, rest) := by
  induction line with
  | nil => cases rest <;> rfl
  | cons c line ih =>
    rw [List.mem_cons, not_or] at hline
    rw [List.length_cons, List.cons_append, fgets, if_neg (Ne.symm hline.1), ih hline.2]

theorem length_message (typed : List Char) : (message typed).length ≤ TOKEN_SIZE :=
  List.length_take_le _ _

/-- What is sent behind the line does not count. -/
theorem cstr_message (typed : List Char) : cstr (message typed) = cstr (typed.take TOKEN_SIZE) := by
  have hsplit : message typed = typed.take TOKEN_SIZE ++
      (List.replicate (256 - typed.length) '\x00').take (TOKEN_SIZE - typed.length) :=
    List.take_append
  rw [hsplit, cstr_append]
  intro c hc
  exact List.eq_of_mem_replicate (List.mem_of_mem_take hc)

/-- The words of a message are those of the line exactly if nothing but delimiters is cut off. -/
theorem words_message_iff (typed : List Char) :
    (words isDelim (cstr (message typed))).take MAX_TOKENS = (words isDelim typed).take MAX_TOKENS ↔
      '\x00' ∉ typed ∧ ∀ c ∈ typed.drop TOKEN_SIZE, isDelim c := by
  constructor
  · intro heq
    have hpre : cstr (typed.take TOKEN_SIZE) <+: typed :=
      (List.takeWhile_prefix _).trans (List.take_prefix TOKEN_SIZE typed)
    have hlen : (cstr (typed.take TOKEN_SIZE)).length ≤ TOKEN_SIZE :=
      (List.takeWhile_prefix _).length_le.trans (List.length_take_le _ _)
    have hnul := notMem_cstr (typed.take TOKEN_SIZE)
    rw [cstr_message] at heq
    generalize cstr (typed.take TOKEN_SIZE) = sent at heq hpre hlen hnul
    obtain ⟨rest, rfl⟩ := hpre
    -- a message is too short for as many words as an array of tokens has room for
    have hshort : (words isDelim sent).length < MAX_TOKENS := by
      have hwords : 2 * (words isDelim sent).length ≤ sent.length + 1 := length_words sent
      simp only [TOKEN_SIZE, MAX_TOKENS] at hlen ⊢
      omega
    rw [List.take_of_length_le hshort.le] at heq
    have hall : (words isDelim (sent ++ rest)).take MAX_TOKENS = words isDelim (sent ++ rest) := by
      have hmin := congrArg List.length heq
      rw [List.length_take] at hmin
      exact List.take_of_length_le (by omega)
    -- so the rest of the line has no characters of words
    have hflat := congrArg List.flatten (heq.trans hall)
    rw [flatten_words, flatten_words, List.filter_append, List.self_eq_append_right,
      List.filter_eq_nil_iff] at hflat
    have hdelim : ∀ c ∈ rest, isDelim c := by
      intro c hc
      simpa using hflat c hc
    constructor
    · intro hc
      rcases List.mem_append.1 hc with hc | hc
      · exact hnul hc
      · exact absurd (hdelim _ hc) (by simp [isDelim])
    · intro c hc
      rw [List.drop_append, List.drop_of_length_le hlen, List.nil_append] at hc
      exact hdelim c (List.mem_of_mem_drop hc)
  · rintro ⟨hnul, hdelim⟩
    rw [cstr_message, cstr_of_notMem fun hc => hnul (List.mem_of_mem_take hc)]
    conv_rhs => rw [← List.take_append_drop TOKEN_SIZE typed, words_append_of_delim _ hdelim]

/-! ## Sessions -/

variable {wide : Str → Int32} {room : ℕ → ℕ} {x : Session}

/-- The messages of clients are messages of the server. -/
theorem server_reachable (h : (session wide room).Reachable x) :
    (server wide room).Reachable x.server := by
  refine h.invariant (I := fun x => (server wide room).Reachable x.server) ?_ ?_
  · rintro x rfl
    exact .init rfl
  · intro x e x' hx hstep
    cases hstep with
    | start => exact hx
    | idle => exact hx
    | connect => exact hx
    | @command _ typed _ _ answer _ _ hret =>
      exact hx.step (l := (message typed, answer)) ⟨length_message typed, hret⟩

/-- A client can connect and have any line typed next. -/
theorem reachable_connected (line : List Char) :
    (session wide room).Reachable ⟨some ⟨line ++ ['\n'], true⟩, .init⟩ := by
  have hstart : (session wide room).Reachable
      ⟨some ⟨"connect h 1\n".toList ++ (line ++ ['\n']), false⟩, .init⟩ :=
    (LTS.Reachable.init rfl).step (l := .start _) .start
  have htokens : tokenize (cleared "connect h 1\n".toList) =
      ["connect".toList, "h".toList, "1".toList] := by decide +kernel
  exact hstart.step (l := .offline _) (.connect rfl htokens)

/-- The tokens that the server gets with the next line of a connected client. -/
def Session.tokens (x : Session) : Option (List Str) := x.client.bind fun c =>
  if c.connection_flag then
    some (tokenize (receive (message (fgets 255 c.stdin).1) x.server.buffer))
  else none

/-- In any session, the server gets the tokens of the line that is typed next exactly if it has no
`NUL`, and nothing but delimiters behind the bytes of a message. -/
theorem tokens_agree_iff (h : (session wide room).Reachable x) {line rest : List Char}
    (hx : x.client = some ⟨line ++ '\n' :: rest, true⟩) (hline : '\n' ∉ line)
    (hlen : line.length ≤ 254) :
    x.tokens = some ((words isDelim line).take MAX_TOKENS) ↔
      '\x00' ∉ line ∧ ∀ c ∈ line.drop TOKEN_SIZE, isDelim c := by
  obtain ⟨tr, hrun⟩ := server_reachable h
  have htokens : x.tokens = some (tokenize (receive (message (fgets 255 (line ++ '\n' :: rest)).1)
      x.server.buffer)) := by
    rw [Session.tokens, hx]
    rfl
  rw [htokens, Option.some.injEq, tokenize_receive (follows_of_run hrun).clean]
  rcases Nat.lt_or_ge line.length 254 with hlt | hge
  · rw [fgets_line hline (by omega)]
    have hwords : words isDelim (line ++ ['\n']) = words isDelim line :=
      words_append_of_delim line (by simp [isDelim])
    rw [← hwords, words_message_iff]
    refine and_congr (by simp) ?_
    rw [List.drop_append]
    constructor
    · intro hd c hc
      exact hd c (List.mem_append_left _ hc)
    · intro hd c hc
      rcases List.mem_append.1 hc with hc | hc
      · exact hd c hc
      · rw [List.mem_singleton.1 (List.mem_of_mem_drop hc)]
        rfl
  · have hfgets := fgets_long hline ('\n' :: rest)
    rw [show line.length + 1 = 255 by omega] at hfgets
    rw [hfgets]
    exact words_message_iff line

theorem tokens_agree_read :
    Session.tokens ⟨some ⟨"read 1".toList ++ '\n' :: [], true⟩, .init⟩ =
        some ((words isDelim "read 1".toList).take MAX_TOKENS) ↔
      '\x00' ∉ "read 1".toList ∧ ∀ c ∈ "read 1".toList.drop TOKEN_SIZE, isDelim c :=
  tokens_agree_iff (show (session 0 id).Reachable _ from reachable_connected "read 1".toList) rfl
    (by decide) (by decide)

/-- The value of a longer line is cut off. -/
theorem value_cut : ∃ x, (session 0 id).Reachable x ∧
    x.client = some ⟨"create 1 12 abcdefghijkl\n".toList, true⟩ ∧
    x.tokens = some ["create".toList, "1".toList, "12".toList, "abcdefgh".toList] ∧
    (words isDelim "create 1 12 abcdefghijkl".toList).take MAX_TOKENS =
      ["create".toList, "1".toList, "12".toList, "abcdefghijkl".toList] := by
  refine ⟨_, reachable_connected "create 1 12 abcdefghijkl".toList, rfl, ?_, ?_⟩
  · decide +kernel
  · decide +kernel

end KeyValue

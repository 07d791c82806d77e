/-
  `my_server.c`: a store of strings under `int` keys. One message is one command, and the answer
  is sent before the next message is read.
-/
import OSModules.Lib.CHeap
import OSModules.Lib.Runs

namespace KeyValue

open CString CHeap Prog Runs

abbrev MAX_TOKENS : ℕ := 20
/-- The bytes of a message. -/
abbrev TOKEN_SIZE : ℕ := 20
abbrev MAX_KEYS : ℕ := 20

/-- The globals, and what is allocated for values. What `strtok` writes into `buffer` is not kept:
it is cleared before the next message. -/
structure Server where
  buffer : List Char
  key_arr : Fin MAX_KEYS → ℤ
  value_len : Fin MAX_KEYS → ℤ
  value_arr : Fin MAX_KEYS → ℕ
  idx : ℕ
  heap : Heap

/-- Why a message gets no answer. -/
inductive Fault
  /-- `tokens[j]` without a token `j`. -/
  | uninitialised
  /-- An array access out of bounds. -/
  | outOfBounds
  /-- A pointer to nothing that is allocated. -/
  | notAllocated
  /-- `strcpy` past the end of a block. -/
  | bufferOverflow
  deriving DecidableEq

abbrev KV (α : Type) := Program Fault Server α

/-- A function of the C library. -/
def onHeap {α : Type} (x : Program Fault Heap α) : KV α :=
  zoom Server.heap (fun h s => { s with heap := h }) x

/-! ## Messages -/

def isDelim (c : Char) : Bool := c = ' ' ∨ c = '\t' ∨ c = '\n'

/-- `bzero` and `read`. -/
def receive (msg : List Char) (buffer : List Char) : List Char :=
  let buffer := List.replicate TOKEN_SIZE '\x00' ++ buffer.drop TOKEN_SIZE
  msg ++ buffer.drop msg.length

def tokenize (buffer : List Char) : List Str := strtoks isDelim MAX_TOKENS (cstr buffer)

/-! `wide` is what `atoi` returns for a number that is no `int`, `room` what a block of a size has
room for. -/

section
variable (wide : Str → Int32) (tokens : List Str)

/-- `tokens[j]` -/
def token (j : ℕ) : KV Str :=
  match tokens[j]? with
  | some t => pure t
  | none => throw .uninitialised

/-- `atoi(tokens[j])` -/
def intToken (j : ℕ) : KV ℤ := do return atoi wide (← token tokens j)

/-! ## Commands -/

/-- The loop over the slots from `i`, `n` of them, up to the first with the key. -/
def scan (key : ℤ) : (i n : ℕ) → KV (Option (Fin MAX_KEYS))
  | _, 0 => return none
  | i, n + 1 => do
    let k ← index MAX_KEYS i .outOfBounds
    if (← get).key_arr k = key then return some k
    scan key (i + 1) n

def create_key_value_pair (room : ℕ → ℕ) : KV Str := do
  let key ← intToken wide tokens 1
  let idx := (← get).idx
  if idx = MAX_KEYS then return "storage full".toList
  match ← scan key 0 idx with
  | some _ => return "already key exists".toList
  | none =>
    let i ← index MAX_KEYS idx .outOfBounds
    modify fun s => { s with key_arr := Function.update s.key_arr i key }
    let len ← intToken wide tokens 2
    modify fun s => { s with value_len := Function.update s.value_len i len }
    -- a negative size is converted to a `size_t`
    let p ← onHeap (malloc (len % 2 ^ 64).toNat)
    modify fun s => { s with value_arr := Function.update s.value_arr i p }
    let text ← token tokens 3
    onHeap (strcpy room p text .notAllocated .bufferOverflow)
    modify fun s => { s with idx := s.idx + 1 }
    return "Key Value pair Added".toList

/-- The string in the block is sent after the return. -/
def Read : KV Str := do
  let key ← intToken wide tokens 1
  match ← scan key 0 (← get).idx with
  | some i => onHeap (load ((← get).value_arr i) .notAllocated)
  | none => return "No such key".toList

def update (room : ℕ → ℕ) : KV Str := do
  let key ← intToken wide tokens 1
  match ← scan key 0 (← get).idx with
  | some i =>
    onHeap (free ((← get).value_arr i) .notAllocated)
    let len ← intToken wide tokens 2
    modify fun s => { s with value_len := Function.update s.value_len i len }
    -- `sizeof(value_len[idx])`
    let p ← onHeap (malloc 4)
    modify fun s => { s with value_arr := Function.update s.value_arr i p }
    let text ← token tokens 3
    onHeap (strcpy room p text .notAllocated .bufferOverflow)
    return "Updated".toList
  | none => return "No such key".toList

def delete : KV Str := do
  let key ← intToken wide tokens 1
  match ← scan key 0 (← get).idx with
  | some i =>
    onHeap (free ((← get).value_arr i) .notAllocated)
    modify fun s => { s with
      key_arr := Function.update s.key_arr i (-1)
      value_len := Function.update s.value_len i (-1) }
    return "Deleted key".toList
  | none => return "No such key".toList

end

/-- One round of the loop of `main`: a message and its answer. After a `disconnect` the next
message is another client's. -/
def serve (wide : Str → Int32) (room : ℕ → ℕ) (msg : List Char) : KV Str := do
  modify fun s => { s with buffer := receive msg s.buffer }
  let tokens := tokenize (← get).buffer
  let command ← token tokens 0
  if command = "create".toList then create_key_value_pair wide tokens room
  else if command = "read".toList then Read wide tokens
  else if command = "update".toList then update wide tokens room
  else if command = "delete".toList then delete wide tokens
  else if command = "disconnect".toList then return "disconnecting".toList
  else return "I got your message".toList

/-! ## Runs -/

def Server.init : Server where
  buffer := List.replicate 256 '\x00'
  key_arr _ := 0
  value_len _ := 0
  value_arr _ := NULL
  idx := 0
  heap := .empty

/-- The loop of `main`. The labels are the messages and their answers. The loop ends with a message
of no bytes, but not without the fault of a message of no tokens. -/
def server (wide : Str → Int32) (room : ℕ → ℕ) : LTS Server (List Char × Str) where
  init s := s = .init
  step s x s' := x.1.length ≤ TOKEN_SIZE ∧ Returns (serve wide room x.1) s x.2 s'

end KeyValue

/-
  `my_shell.c`: a line is read and split into tokens, the tokens into commands, and these are
  executed.
-/
import OSModules.Lib.CArray
import OSModules.Lib.CString
import OSModules.Shell.Background

namespace Shell

open CArray CString Prog

abbrev MAX_INPUT_SIZE : ℕ := 1024
abbrev MAX_TOKEN_SIZE : ℕ := 64
abbrev MAX_NUM_TOKENS : ℕ := 64

/-- The arrays of a round of `main`. Those from `malloc` hold whatever was there before. -/
structure Mem where
  token : Fin MAX_TOKEN_SIZE → Char
  tokens : Fin MAX_NUM_TOKENS → Option Str
  /-- The arrays of `make_cmds` for commands, by their addresses. -/
  arrays : ℕ → Fin MAX_NUM_TOKENS → Option Str
  allocated : ℕ
  cmds : Fin MAX_BG_PROCS → Option ℕ

/-- An access past the end of an array, or a `NULL` where a string is expected. -/
inductive Fault where
  | line | token | tokens | cmd | cmds | null
  deriving DecidableEq

abbrev Sh (α : Type) := Program Fault Mem α

/-! ## Reading a line -/

/-- `scanf("%[^\n]", line)` into the cleared line, and the newline behind its string. -/
def readLine (input : List Char) : Sh Str := do
  let typed := input.takeWhile (· ≠ '\n')
  assert (typed.length < MAX_INPUT_SIZE) .line
  let line := typed ++ List.replicate (MAX_INPUT_SIZE - typed.length) '\x00'
  let line := line.set (cstr line).length '\n'
  -- without a `NUL`, `strlen(line)` goes on past the end
  assert ('\x00' ∈ line) .line
  return cstr line

/-! ## Tokens -/

def isSep (c : Char) : Bool := c = ' ' ∨ c = '\n' ∨ c = '\t'

/-- `token[i] = c` -/
def setToken (i : ℕ) (c : Char) : Sh Unit := do
  let token ← store (← get).token i c .token
  modify fun s => { s with token }

/-- `tokens[i] = token` -/
def setTokens (i : ℕ) (token : Option Str) : Sh Unit := do
  let tokens ← store (← get).tokens i token .tokens
  modify fun s => { s with tokens }

/-- The loop of `tokenize` over the rest of the line. -/
def scan : Str → (tokenIndex tokenNo : ℕ) → Sh ℕ
  | [], _, tokenNo => return tokenNo
  | readChar :: line, tokenIndex, tokenNo => do
    if isSep readChar then
      setToken tokenIndex '\x00'
      if tokenIndex ≠ 0 then
        setTokens tokenNo (some (cstr (List.ofFn (← get).token)))
        scan line 0 (tokenNo + 1)
      else scan line tokenIndex tokenNo
    else
      setToken tokenIndex readChar
      scan line (tokenIndex + 1) tokenNo

def tokenize (line : Str) : Sh Unit := do
  let tokenNo ← scan line 0 0
  setTokens tokenNo none

/-! ## Commands -/

/-- `&`, `&&` or `&&&` -/
def isOp (token : Str) : Bool :=
  token = "&".toList ∨ token = "&&".toList ∨ token = "&&&".toList

/-- `cmd[i] = token` for the array at the address `cmd`. -/
def setCmd (cmd i : ℕ) (token : Option Str) : Sh Unit := do
  let a ← store ((← get).arrays cmd) i token .cmd
  modify fun s => { s with arrays := Function.update s.arrays cmd a }

/-- `cmds[i] = cmd` -/
def setCmds (i : ℕ) (cmd : Option ℕ) : Sh Unit := do
  let cmds ← store (← get).cmds i cmd .cmds
  modify fun s => { s with cmds }

/-- `calloc(MAX_NUM_TOKENS, sizeof(char*))` -/
def calloc : Sh ℕ := do
  let s ← get
  set { s with
    arrays := Function.update s.arrays s.allocated fun _ => none
    allocated := s.allocated + 1 }
  return s.allocated

/-- The variables of `make_cmds`. -/
structure Split where
  cmd : ℕ
  cmd_itr : ℕ
  cmds_itr : ℕ
  cmd_type : ℕ

/-- The body of the loop of `make_cmds`. -/
def split (v : Split) (token : Str) : Sh Split := do
  if isOp token then
    setCmd v.cmd v.cmd_itr none
    setCmds v.cmds_itr (some v.cmd)
    if token = "&&".toList then
      let cmd ← calloc
      return { cmd, cmd_itr := 0, cmds_itr := v.cmds_itr + 1, cmd_type := 2 }
    else if token = "&&&".toList then
      let cmd ← calloc
      return { cmd, cmd_itr := 0, cmds_itr := v.cmds_itr + 1, cmd_type := 3 }
    else
      -- the array is used again
      return { cmd := v.cmd, cmd_itr := 0, cmds_itr := v.cmds_itr + 1, cmd_type := 1 }
  else
    setCmd v.cmd v.cmd_itr (some token)
    return { v with cmd_itr := v.cmd_itr + 1 }

/-- What `make_cmds` does after its loop. -/
def close (v : Split) : Sh ℕ := do
  setCmd v.cmd v.cmd_itr none
  setCmds v.cmds_itr (some v.cmd)
  setCmds (v.cmds_itr + 1) none
  return v.cmd_type

/-- The result is the type of the commands. -/
def make_cmds (cmd_type : ℕ) : Sh ℕ := do
  let cmd ← calloc
  let v ← foldToNull split .tokens ⟨cmd, 0, 0, cmd_type⟩ (List.ofFn (← get).tokens)
  close v

/-- A round of `main` up to the commands. -/
def parse (input : List Char) : Sh ℕ := do
  let line ← readLine input
  tokenize line
  make_cmds 0

/-! ## Execution -/

/-- What becomes of a command. -/
inductive Action where
  | exit
  | cd (dir : Option Str)
  | run (argv : List Str) (is_background : Bool)

def start_executing (tokens : Fin MAX_NUM_TOKENS → Option Str) (is_background : Bool) : Sh Action :=
  match tokens 0 with
  | none => throw .null
  | some t =>
    if t = "cd".toList then return .cd (tokens 1)
    else return .run (upToNull (List.ofFn tokens)) is_background

def execute_cmd (cmd : Fin MAX_NUM_TOKENS → Option Str) (is_background : Bool) : Sh Action :=
  match cmd 0 with
  | none => throw .null
  | some t => if t = "exit".toList then return .exit else start_executing cmd is_background

/-- A call of `execute_cmd`: the array that is passed, and what becomes of it. -/
structure Call where
  cmd : Fin MAX_NUM_TOKENS → Option Str
  action : Action

/-- The body of the loop of `main` over the commands; the calls are in order. -/
def executeNext (is_background : Bool) (calls : List Call) (cmd : ℕ) : Sh (List Call) := do
  let cmd := (← get).arrays cmd
  let action ← execute_cmd cmd is_background
  return calls ++ [⟨cmd, action⟩]

/-- A round of `main`. -/
def round (input : List Char) : Sh (List Call) := do
  let cmd_type ← parse input
  let is_background := decide (cmd_type = 1 ∨ cmd_type = 3)
  foldToNull (executeNext is_background) .cmds [] (List.ofFn (← get).cmds)

end Shell

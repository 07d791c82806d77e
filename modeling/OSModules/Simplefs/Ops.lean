/-
  simplefs-ops.c: create, delete, open, close, read, write and seek.
-/
import OSModules.Simplefs.Disk

namespace Simplefs

open CInt Prog

/-- A NUL-terminated string, with the memory that follows its NUL. -/
structure CString where
  chars : List UInt8
  nonzero : ∀ c ∈ chars, c ≠ 0
  rest : ℕ → UInt8

/-- The memory from the start of the string on. -/
def CString.byte (s : CString) (k : ℕ) : UInt8 :=
  if k < s.chars.length then s.chars.getD k 0
  else if k = s.chars.length then 0
  else s.rest (k - s.chars.length - 1)

/-- `strcmp(a, b) == 0`. -/
def strcmpEq : List UInt8 → List UInt8 → Bool
  | a :: as, b :: bs => a == b && (a == 0 || strcmpEq as bs)
  | _, _ => false

/-- `strcmp` runs from the name on through the rest of the record. -/
def inode_t.carries (inode : inode_t) (filename : CString) : Bool :=
  strcmpEq (inode.bytes.drop 4) (filename.chars ++ [0])

def get_inode_num (filename : CString) : FS ℤ :=
  go (List.finRange NUM_INODES)
where
  /-- The `for` loop, with the indices still to come. -/
  go : List (Fin NUM_INODES) → FS ℤ
    | [] => return -1
    | i :: is => do
      let inode ← simplefs_readInode (i : ℕ)
      if inode.carries filename then return (i : ℕ) else go is

def get_file_handle_idx : FS ℤ := do
  let s ← get
  match Fin.find? fun i => (s.file_handle_array i).inode_number = -1 with
  | some i => return (i : ℕ)
  | none => return -1

/-- `sizeof(filename)` is that of a pointer: eight bytes are copied, whatever the name. -/
def simplefs_create (filename : CString) : FS ℤ := do
  let inode_num ← simplefs_allocInode
  if inode_num = -1 then return -1
  else
    let inode ← simplefs_readInode inode_num
    simplefs_writeInode inode_num { inode with
      name := fun k => filename.byte k, status := charInt INODE_IN_USE }
    return inode_num

def simplefs_delete (filename : CString) : FS Unit := do
  let inode_num ← get_inode_num filename
  if inode_num = -1 then return ()
  else
    let inode ← simplefs_readInode inode_num
    (List.finRange MAX_FILE_SIZE).forM fun i =>
      if inode.direct_blocks i ≠ -1 then simplefs_freeDataBlock (inode.direct_blocks i)
      else pure ()
    simplefs_freeInode inode_num

def setHandle (i : Fin MAX_OPEN_FILES) (h : filehandle_t) : FS Unit :=
  modify fun s => { s with file_handle_array := Function.update s.file_handle_array i h }

def simplefs_open (filename : CString) : FS ℤ := do
  let inode_num ← get_inode_num filename
  if inode_num = -1 then return -1
  else
    let file_handle ← get_file_handle_idx
    if file_handle = -1 then return -1
    else
      let i ← index MAX_OPEN_FILES file_handle .outOfBounds
      setHandle i ⟨0, inode_num⟩
      return file_handle

def simplefs_close (file_handle : ℤ) : FS Unit := do
  let i ← index MAX_OPEN_FILES file_handle .outOfBounds
  setHandle i ⟨0, -1⟩

/-- The entry of the table of open files at `file_handle`. -/
def handleAt (file_handle : ℤ) : FS filehandle_t := do
  let i ← index MAX_OPEN_FILES file_handle .outOfBounds
  return (← get).file_handle_array i

/-- The `while` loop of `simplefs_read`; the result is what it copies to `buf`. -/
def readLoop (inode : inode_t) (nbytes : ℤ) : ℕ → ℤ → ℤ → FS (List UInt8)
  | fuel, curr_offset, copied_bytes =>
    if copied_bytes < nbytes then
      match fuel with
      | 0 => throw .diverges
      | fuel + 1 => do
        let roffset := curr_offset.tmod BLOCKSIZE
        let rblock_idx := curr_offset.tdiv BLOCKSIZE
        let buf_size := min (BLOCKSIZE - roffset) (nbytes - copied_bytes)
        let k ← index MAX_FILE_SIZE rblock_idx .outOfBounds
        let temp_buf ← simplefs_readDataBlock (inode.direct_blocks k)
        assert (0 ≤ roffset) .outOfBounds
        let chunk := (temp_buf.drop roffset.toNat).take buf_size.toNat
        return chunk ++
          (← readLoop inode nbytes fuel (curr_offset + buf_size) (copied_bytes + buf_size))
    else return []

/-- The result, and the bytes copied to the caller's buffer. -/
def simplefs_read (file_handle nbytes : ℤ) : FS (ℤ × List UInt8) := do
  let h ← handleAt file_handle
  let inode ← simplefs_readInode h.inode_number
  if int32 (h.offset + nbytes) > inode.file_size then return (-1, [])
  else
    let buf ← readLoop inode nbytes nbytes.toNat h.offset 0
    return (0, buf)

/-- One round of the `while` loop of `simplefs_write`: the inode with the block it needs, or
nothing if there is none. -/
def writeAlloc (inode : inode_t) : FS (Option inode_t) := do
  let woffset := inode.file_size.tmod BLOCKSIZE
  let wblock_idx := inode.file_size.tdiv BLOCKSIZE
  if woffset = 0 then
    let idx ← simplefs_allocDataBlock
    if idx = -1 then return none
    else
      let k ← index MAX_FILE_SIZE wblock_idx .outOfBounds
      return some { inode with direct_blocks := Function.update inode.direct_blocks k idx }
  else return some inode

/-- The same round once the block is there: what was in the block stays in front of the `chunk`. -/
def writeChunk (inode : inode_t) (chunk : List UInt8) : FS Unit := do
  let woffset := inode.file_size.tmod BLOCKSIZE
  let wblock_idx := inode.file_size.tdiv BLOCKSIZE
  let k ← index MAX_FILE_SIZE wblock_idx .outOfBounds
  assert (0 ≤ woffset) .outOfBounds
  let prefilled ←
    if 0 < woffset then do
      let wblock ← simplefs_readDataBlock (inode.direct_blocks k)
      pure (wblock.take woffset.toNat)
    else pure []
  simplefs_writeDataBlock (inode.direct_blocks k) (prefilled ++ chunk)

/-- The `while` loop of `simplefs_write`; nothing if it runs out of data blocks. -/
def writeLoop (buf : ℕ → UInt8) (nbytes : ℤ) : ℕ → inode_t → ℤ → FS (Option inode_t)
  | fuel, inode, copied_bytes =>
    if copied_bytes < nbytes then
      match fuel with
      | 0 => throw .diverges
      | fuel + 1 => do
        match ← writeAlloc inode with
        | none => return none
        | some inode =>
          let woffset := inode.file_size.tmod BLOCKSIZE
          let buf_size := min (BLOCKSIZE - woffset) (nbytes - copied_bytes)
          writeChunk inode
            (List.ofFn fun k : Fin buf_size.toNat => buf (copied_bytes.toNat + k))
          writeLoop buf nbytes fuel { inode with file_size := inode.file_size + buf_size }
            (copied_bytes + buf_size)
    else return some inode

def simplefs_write (file_handle : ℤ) (buf : ℕ → UInt8) (nbytes : ℤ) : FS ℤ := do
  let h ← handleAt file_handle
  let inode ← simplefs_readInode h.inode_number
  if int32 (h.offset + nbytes) > MAX_FILE_SIZE * BLOCKSIZE then return -1
  else
    match ← writeLoop buf nbytes nbytes.toNat inode 0 with
    | none => return -1
    | some inode =>
      simplefs_writeInode h.inode_number inode
      return 0

def simplefs_seek (file_handle nseek : ℤ) : FS ℤ := do
  let i ← index MAX_OPEN_FILES file_handle .outOfBounds
  let h := (← get).file_handle_array i
  let inode ← simplefs_readInode h.inode_number
  if int32 (h.offset + nseek) < 0 ∨ int32 (h.offset + nseek) > inode.file_size then return -1
  else
    setHandle i { h with offset := int32 (h.offset + nseek) }
    return 0

/-! ## Calls -/

/-- A call of the API; the arguments of type `int` are integers. -/
inductive Op
  | create (filename : CString)
  | delete (filename : CString)
  | open_ (filename : CString)
  | close (file_handle : ℤ)
  | read (file_handle nbytes : ℤ)
  | write (file_handle : ℤ) (buf : ℕ → UInt8) (nbytes : ℤ)
  | seek (file_handle nseek : ℤ)

/-- What a call delivers: its result (`0` for a `void` function) and the bytes it reads. -/
structure Ret where
  val : ℤ
  data : List UInt8
  deriving DecidableEq

def Op.exec : Op → FS Ret
  | .create f => return ⟨← simplefs_create f, []⟩
  | .delete f => do simplefs_delete f; return ⟨0, []⟩
  | .open_ f => return ⟨← simplefs_open f, []⟩
  | .close h => do simplefs_close h; return ⟨0, []⟩
  | .read h n => do let (r, data) ← simplefs_read h n; return ⟨r, data⟩
  | .write h buf n => return ⟨← simplefs_write h buf n, []⟩
  | .seek h n => return ⟨← simplefs_seek h n, []⟩

end Simplefs

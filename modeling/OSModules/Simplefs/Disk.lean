/-
  simplefs-disk.c and simplefs-disk.h: the disk file with its superblock, inode table and
  data blocks, and the table of open files.

  The disk is one flat file.  Memory that the code copies before it is initialised (the
  padding of the superblock's block, the bytes past the end of a `malloc`ed buffer) comes
  from `Sys.junk`, about which nothing is known.  A failed `assert` stops the program, as
  does an array access out of bounds.
-/
import OSModules.Lib.CInt
import OSModules.Lib.FlatFile
import OSModules.Lib.Prog

namespace Simplefs

open CInt FlatFile Prog

/-! ## Layout -/

abbrev BLOCKSIZE : ℕ := 64
abbrev NUM_DATA_BLOCKS : ℕ := 30
abbrev NUM_INODES : ℕ := 8
abbrev NUM_INODES_PER_BLOCK : ℕ := 2
/-- In blocks. -/
abbrev MAX_FILE_SIZE : ℕ := 4
abbrev MAX_OPEN_FILES : ℕ := 20
abbrev MAX_NAME_STRLEN : ℕ := 8
/-- The character `x`. -/
abbrev INODE_FREE : UInt8 := 120
/-- The character `1`. -/
abbrev INODE_IN_USE : UInt8 := 49
abbrev DATA_BLOCK_FREE : UInt8 := 120
abbrev DATA_BLOCK_USED : UInt8 := 49

@[ext] structure superblock_t where
  name : Fin MAX_NAME_STRLEN → UInt8
  inode_freelist : Fin NUM_INODES → UInt8
  datablock_freelist : Fin NUM_DATA_BLOCKS → UInt8

@[ext] structure inode_t where
  /-- `INODE_FREE` or `INODE_IN_USE`, as an `int`. -/
  status : ℤ
  name : Fin MAX_NAME_STRLEN → UInt8
  file_size : ℤ
  /-- A block number, or `-1`. -/
  direct_blocks : Fin MAX_FILE_SIZE → ℤ

@[ext] structure filehandle_t where
  offset : ℤ
  inode_number : ℤ

theorem free_ne_used : DATA_BLOCK_FREE ≠ DATA_BLOCK_USED := by decide

/-- A `char` used as an `int`. -/
abbrev charInt (c : UInt8) : ℤ := c.toNat

def superblock_t.bytes (sb : superblock_t) : List UInt8 :=
  List.ofFn sb.name ++ List.ofFn sb.inode_freelist ++ List.ofFn sb.datablock_freelist

def superblock_t.ofBytes (buf : List UInt8) : superblock_t where
  name k := buf.getD k 0
  inode_freelist k := buf.getD (8 + k) 0
  datablock_freelist k := buf.getD (16 + k) 0

def intBytes (x : ℤ) : List UInt8 := List.ofFn fun k : Fin 4 => leByte x k

def inode_t.bytes (inode : inode_t) : List UInt8 :=
  intBytes inode.status ++ List.ofFn inode.name ++ intBytes inode.file_size ++
    List.ofFn fun k : Fin 16 => leByte (inode.direct_blocks ⟨k / 4, Nat.div_lt_of_lt_mul k.2⟩) (k % 4)

def inode_t.ofBytes (buf : List UInt8) : inode_t where
  status := CInt.ofBytes fun b => buf.getD b 0
  name k := buf.getD (4 + k) 0
  file_size := CInt.ofBytes fun b => buf.getD (12 + b) 0
  direct_blocks k := CInt.ofBytes fun b => buf.getD (16 + 4 * k + b) 0

/-! ## State and faults -/

structure Sys where
  disk : File
  file_handle_array : Fin MAX_OPEN_FILES → filehandle_t
  junk : ℕ → UInt8

/-- Why a call does not return. -/
inductive Fault
  /-- `assert(inodenum < NUM_INODES)` -/
  | inodeRange
  /-- `assert(blocknum < NUM_DATA_BLOCKS)` -/
  | blockRange
  /-- `assert(superblock->inode_freelist[inodenum] == INODE_IN_USE)` -/
  | inodeNotInUse
  /-- `assert(superblock->datablock_freelist[blocknum] == DATA_BLOCK_USED)` -/
  | blockNotUsed
  /-- The `assert` on the bytes read, in `simplefs_readSuperBlock`, `simplefs_readInode` and
  `simplefs_readDataBlock`. -/
  | shortSuperBlock | shortInode | shortDataBlock
  /-- `lseek` to a negative position. -/
  | badSeek
  /-- An array access out of bounds. -/
  | outOfBounds
  /-- A loop that does not end. -/
  | diverges
  deriving DecidableEq, Repr

abbrev FS (α : Type) := Program Fault Sys α

/-- The next `n` bytes of memory that was not initialised. -/
def uninitialised (n : ℕ) : FS (List UInt8) := do
  let s ← get
  set { s with junk := fun k => s.junk (n + k) }
  return List.ofFn fun k : Fin n => s.junk k

/-- `lseek` to `pos`, then `read` of `n` bytes. -/
def readAt (pos : ℤ) (n : ℕ) : FS (List UInt8) := do
  assert (0 ≤ pos) .badSeek
  return (← get).disk.pread pos.toNat n

/-- `lseek` to `pos`, then `write` of `data`. -/
def writeAt (pos : ℤ) (data : List UInt8) : FS Unit := do
  assert (0 ≤ pos) .badSeek
  modify fun s => { s with disk := s.disk.pwrite pos.toNat data }

/-! ## simplefs-disk.c -/

def simplefs_readSuperBlock : FS superblock_t := do
  let tempBuf ← readAt 0 BLOCKSIZE
  assert (tempBuf.length = BLOCKSIZE) .shortSuperBlock
  return .ofBytes tempBuf

/-- `tempBuf` is a whole block, of which only the record is initialised. -/
def simplefs_writeSuperBlock (superblock : superblock_t) : FS Unit := do
  let pad ← uninitialised (BLOCKSIZE - superblock.bytes.length)
  writeAt 0 (superblock.bytes ++ pad)

def simplefs_readInode (inodenum : ℤ) : FS inode_t := do
  assert (inodenum < NUM_INODES) .inodeRange
  let tempBuf ← readAt (BLOCKSIZE + inodenum * 32) 32
  assert (tempBuf.length = 32) .shortInode
  return .ofBytes tempBuf

def simplefs_writeInode (inodenum : ℤ) (inode : inode_t) : FS Unit := do
  assert (inodenum < NUM_INODES) .inodeRange
  writeAt (BLOCKSIZE + inodenum * 32) inode.bytes

/-- The name `""` is copied with its terminating NUL only. -/
def simplefs_formatDisk : FS Unit := do
  modify fun s => { s with disk := File.empty }
  simplefs_writeSuperBlock
    { name := fun k => [115, 105, 109, 112, 108, 101, 102, 115].getD k 0
      inode_freelist := fun _ => INODE_FREE
      datablock_freelist := fun _ => DATA_BLOCK_FREE }
  let rest ← uninitialised 7
  let inode : inode_t :=
    { status := charInt INODE_FREE
      name := fun k => (0 :: rest).getD k 0
      file_size := 0
      direct_blocks := fun _ => -1 }
  (List.finRange NUM_INODES).forM fun i => simplefs_writeInode (i : ℕ) inode
  modify fun s => { s with file_handle_array := fun _ => ⟨0, -1⟩ }

def simplefs_allocInode : FS ℤ := do
  let superblock ← simplefs_readSuperBlock
  match Fin.find? fun i => superblock.inode_freelist i = INODE_FREE with
  | some i =>
    simplefs_writeSuperBlock { superblock with
      inode_freelist := Function.update superblock.inode_freelist i INODE_IN_USE }
    return (i : ℕ)
  | none => return -1

def simplefs_freeInode (inodenum : ℤ) : FS Unit := do
  assert (inodenum < NUM_INODES) .inodeRange
  let superblock ← simplefs_readSuperBlock
  let inode ← simplefs_readInode inodenum
  let i ← index NUM_INODES inodenum .outOfBounds
  assert (superblock.inode_freelist i = INODE_IN_USE) .inodeNotInUse
  simplefs_writeSuperBlock { superblock with
    inode_freelist := Function.update superblock.inode_freelist i INODE_FREE }
  simplefs_writeInode inodenum { inode with
    status := charInt INODE_FREE, file_size := 0, direct_blocks := fun _ => -1 }

def simplefs_allocDataBlock : FS ℤ := do
  let superblock ← simplefs_readSuperBlock
  match Fin.find? fun i => superblock.datablock_freelist i = DATA_BLOCK_FREE with
  | some i =>
    simplefs_writeSuperBlock { superblock with
      datablock_freelist := Function.update superblock.datablock_freelist i DATA_BLOCK_USED }
    return (i : ℕ)
  | none => return -1

def simplefs_freeDataBlock (blocknum : ℤ) : FS Unit := do
  let superblock ← simplefs_readSuperBlock
  let i ← index NUM_DATA_BLOCKS blocknum .outOfBounds
  assert (superblock.datablock_freelist i = DATA_BLOCK_USED) .blockNotUsed
  simplefs_writeSuperBlock { superblock with
    datablock_freelist := Function.update superblock.datablock_freelist i DATA_BLOCK_FREE }

def simplefs_readDataBlock (blocknum : ℤ) : FS (List UInt8) := do
  assert (blocknum < NUM_DATA_BLOCKS) .blockRange
  let tempBuf ← readAt (BLOCKSIZE * (5 + blocknum)) BLOCKSIZE
  assert (tempBuf.length = BLOCKSIZE) .shortDataBlock
  return tempBuf

/-- The block is copied whole from `buf`; what lies past the end of `buf` is not initialised. -/
def simplefs_writeDataBlock (blocknum : ℤ) (buf : List UInt8) : FS Unit := do
  assert (blocknum < NUM_DATA_BLOCKS) .blockRange
  let rest ← uninitialised (BLOCKSIZE - buf.length)
  writeAt (BLOCKSIZE * (5 + blocknum)) ((buf ++ rest).take BLOCKSIZE)

end Simplefs

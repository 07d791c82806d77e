/-
  The calls of simplefs with the accesses to the inode table and to the slots of an inode as
  parameters: the calls themselves, and the calls with each access checked.
-/
import OSModules.Simplefs.View

namespace Simplefs

open CInt Prog

/-- How the calls get at inodes, and at the slots `direct_blocks[idx]` of an inode. -/
structure Access where
  readInode : ℤ → FS inode_t
  writeInode : ℤ → inode_t → FS Unit
  slot : inode_t → ℤ → FS ℤ

/-- The accesses of the source. -/
def Access.plain : Access where
  readInode := simplefs_readInode
  writeInode := simplefs_writeInode
  slot inode idx := do
    let k ← index MAX_FILE_SIZE idx .outOfBounds
    return inode.direct_blocks k

/-- A fault at each access to an inode outside of the table. -/
def Access.checkInodes : Access :=
  { Access.plain with
    readInode := fun inodenum => do
      assert (0 ≤ inodenum ∧ inodenum < NUM_INODES) .inodeRange
      simplefs_readInode inodenum
    writeInode := fun inodenum inode => do
      assert (0 ≤ inodenum ∧ inodenum < NUM_INODES) .inodeRange
      simplefs_writeInode inodenum inode }

/-- A fault at each access to a slot outside of `direct_blocks` or without an allocated block. -/
def Access.checkSlots : Access :=
  { Access.plain with
    slot := fun inode idx => do
      let k ← index MAX_FILE_SIZE idx .outOfBounds
      let superblock ← simplefs_readSuperBlock
      assert (∃ b : Fin NUM_DATA_BLOCKS, inode.direct_blocks k = (b : ℕ) ∧
        superblock.datablock_freelist b = DATA_BLOCK_USED) .blockNotUsed
      return inode.direct_blocks k }

/-! ## The calls over any accesses -/

namespace Access
variable (A : Access)

def get_inode_num (filename : CString) : FS ℤ :=
  go (List.finRange NUM_INODES)
where
  go : List (Fin NUM_INODES) → FS ℤ
    | [] => return -1
    | i :: is => do
      let inode ← A.readInode (i : ℕ)
      if inode.carries filename then return (i : ℕ) else go is

def freeInode (inodenum : ℤ) : FS Unit := do
  assert (inodenum < NUM_INODES) .inodeRange
  let superblock ← simplefs_readSuperBlock
  let inode ← A.readInode inodenum
  let i ← index NUM_INODES inodenum .outOfBounds
  assert (superblock.inode_freelist i = INODE_IN_USE) .inodeNotInUse
  simplefs_writeSuperBlock { superblock with
    inode_freelist := Function.update superblock.inode_freelist i INODE_FREE }
  A.writeInode inodenum { inode with
    status := charInt INODE_FREE, file_size := 0, direct_blocks := fun _ => -1 }

def create (filename : CString) : FS ℤ := do
  let inode_num ← simplefs_allocInode
  if inode_num = -1 then return -1
  else
    let inode ← A.readInode inode_num
    A.writeInode inode_num { inode with
      name := fun k => filename.byte k, status := charInt INODE_IN_USE }
    return inode_num

def delete (filename : CString) : FS Unit := do
  let inode_num ← A.get_inode_num filename
  if inode_num = -1 then return ()
  else
    let inode ← A.readInode inode_num
    (List.finRange MAX_FILE_SIZE).forM fun i =>
      if inode.direct_blocks i ≠ -1 then simplefs_freeDataBlock (inode.direct_blocks i)
      else pure ()
    A.freeInode inode_num

def open_ (filename : CString) : FS ℤ := do
  let inode_num ← A.get_inode_num filename
  if inode_num = -1 then return -1
  else
    let file_handle ← get_file_handle_idx
    if file_handle = -1 then return -1
    else
      let i ← index MAX_OPEN_FILES file_handle .outOfBounds
      setHandle i ⟨0, inode_num⟩
      return file_handle

def readLoop (inode : inode_t) (nbytes : ℤ) : ℕ → ℤ → ℤ → FS (List UInt8)
  | fuel, curr_offset, copied_bytes =>
    if copied_bytes < nbytes then
      match fuel with
      | 0 => throw .diverges
      | fuel + 1 => do
        let roffset := curr_offset.tmod BLOCKSIZE
        let rblock_idx := curr_offset.tdiv BLOCKSIZE
        let buf_size := min (BLOCKSIZE - roffset) (nbytes - copied_bytes)
        let blocknum ← A.slot inode rblock_idx
        let temp_buf ← simplefs_readDataBlock blocknum
        assert (0 ≤ roffset) .outOfBounds
        let chunk := (temp_buf.drop roffset.toNat).take buf_size.toNat
        return chunk ++
          (← readLoop inode nbytes fuel (curr_offset + buf_size) (copied_bytes + buf_size))
    else return []

def read (file_handle nbytes : ℤ) : FS (ℤ × List UInt8) := do
  let h ← handleAt file_handle
  let inode ← A.readInode h.inode_number
  if int32 (h.offset + nbytes) > inode.file_size then return (-1, [])
  else
    let buf ← A.readLoop inode nbytes nbytes.toNat h.offset 0
    return (0, buf)

def writeChunk (inode : inode_t) (chunk : List UInt8) : FS Unit := do
  let woffset := inode.file_size.tmod BLOCKSIZE
  let wblock_idx := inode.file_size.tdiv BLOCKSIZE
  let blocknum ← A.slot inode wblock_idx
  assert (0 ≤ woffset) .outOfBounds
  let prefilled ←
    if 0 < woffset then do
      let wblock ← simplefs_readDataBlock blocknum
      pure (wblock.take woffset.toNat)
    else pure []
  simplefs_writeDataBlock blocknum (prefilled ++ chunk)

def writeLoop (buf : ℕ → UInt8) (nbytes : ℤ) : ℕ → inode_t → ℤ → FS (Option inode_t)
  | fuel, inode, copied_bytes =>
    if copied_bytes < nbytes then
      match fuel with
      | 0 => throw .diverges
      | fuel + 1 => do
        match ← writeAlloc inode with
        | none => return none
        | some inode =>
          let woffset := inode.file_size.tmod BLOCKSIZE
          let buf_size := min (BLOCKSIZE - woffset) (nbytes - copied_bytes)
          A.writeChunk inode
            (List.ofFn fun k : Fin buf_size.toNat => buf (copied_bytes.toNat + k))
          writeLoop buf nbytes fuel { inode with file_size := inode.file_size + buf_size }
            (copied_bytes + buf_size)
    else return some inode

def write (file_handle : ℤ) (buf : ℕ → UInt8) (nbytes : ℤ) : FS ℤ := do
  let h ← handleAt file_handle
  let inode ← A.readInode h.inode_number
  if int32 (h.offset + nbytes) > MAX_FILE_SIZE * BLOCKSIZE then return -1
  else
    match ← A.writeLoop buf nbytes nbytes.toNat inode 0 with
    | none => return -1
    | some inode =>
      A.writeInode h.inode_number inode
      return 0

def seek (file_handle nseek : ℤ) : FS ℤ := do
  let i ← index MAX_OPEN_FILES file_handle .outOfBounds
  let h := (← get).file_handle_array i
  let inode ← A.readInode h.inode_number
  if int32 (h.offset + nseek) < 0 ∨ int32 (h.offset + nseek) > inode.file_size then return -1
  else
    setHandle i { h with offset := int32 (h.offset + nseek) }
    return 0

def exec : Op → FS Ret
  | .create f => return ⟨← A.create f, []⟩
  | .delete f => do A.delete f; return ⟨0, []⟩
  | .open_ f => return ⟨← A.open_ f, []⟩
  | .close h => do simplefs_close h; return ⟨0, []⟩
  | .read h n => do let (r, data) ← A.read h n; return ⟨r, data⟩
  | .write h buf n => return ⟨← A.write h buf n, []⟩
  | .seek h n => return ⟨← A.seek h n, []⟩

/-! ## The calls of the source -/

theorem plain_get_inode_num_go (f : CString) :
    ∀ l, get_inode_num.go plain f l = Simplefs.get_inode_num.go f l
  | [] => rfl
  | i :: is => by
    rw [get_inode_num.go, Simplefs.get_inode_num.go, plain_get_inode_num_go f is]
    rfl

theorem plain_get_inode_num (f : CString) : plain.get_inode_num f = Simplefs.get_inode_num f :=
  plain_get_inode_num_go f _

section
variable {A} (hA : A.slot = plain.slot)
include hA

theorem readLoop_eq (inode : inode_t) (nbytes : ℤ) (fuel : ℕ) :
    ∀ o c, A.readLoop inode nbytes fuel o c = Simplefs.readLoop inode nbytes fuel o c := by
  induction fuel with
  | zero =>
    intro o c
    rfl
  | succ fuel ih =>
    intro o c
    rw [readLoop, Simplefs.readLoop]
    simp only [hA, plain, bind_assoc, pure_bind, ih]

theorem writeChunk_eq (inode : inode_t) (chunk : List UInt8) :
    A.writeChunk inode chunk = Simplefs.writeChunk inode chunk := by
  simp only [writeChunk, Simplefs.writeChunk, hA, plain, bind_assoc, pure_bind]

theorem writeLoop_eq (buf : ℕ → UInt8) (nbytes : ℤ) (fuel : ℕ) :
    ∀ inode c, A.writeLoop buf nbytes fuel inode c =
      Simplefs.writeLoop buf nbytes fuel inode c := by
  induction fuel with
  | zero =>
    intro inode c
    rfl
  | succ fuel ih =>
    intro inode c
    rw [writeLoop, Simplefs.writeLoop]
    refine if_congr Iff.rfl (bind_congr fun o => ?_) rfl
    cases o with
    | none => rfl
    | some inode =>
      show A.writeChunk inode _ >>= _ = _
      rw [writeChunk_eq hA]
      exact bind_congr fun _ => ih _ _

end

theorem plain_read (h n : ℤ) : plain.read h n = simplefs_read h n := by
  simp only [read, simplefs_read, readLoop_eq rfl]
  rfl

theorem plain_write (h : ℤ) (buf : ℕ → UInt8) (n : ℤ) :
    plain.write h buf n = simplefs_write h buf n := by
  simp only [write, simplefs_write, writeLoop_eq rfl]
  rfl

/-- Over the accesses of the source the calls are those of the source. -/
theorem plain_exec (op : Op) : plain.exec op = op.exec := by
  cases op with
  | create | close | seek => rfl
  | delete f =>
    simp only [exec, Op.exec, delete, simplefs_delete, plain_get_inode_num]
    rfl
  | open_ f =>
    simp only [exec, Op.exec, open_, simplefs_open, plain_get_inode_num]
  | read h n => simp only [exec, Op.exec, plain_read]
  | write h buf n => simp only [exec, Op.exec, plain_write]

end Access

end Simplefs

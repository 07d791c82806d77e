/-
  The disk as separate objects: what reading and writing the superblock, an inode or a data
  block does to the objects the flat file holds.
-/
import OSModules.Simplefs.Ops

namespace Simplefs

open CInt FlatFile Prog

/-! ## Records and their bytes -/

/-- An inode whose fields an `int` can hold. -/
structure inode_t.InRange (inode : inode_t) : Prop where
  status : InInt inode.status
  file_size : InInt inode.file_size
  direct_blocks : ∀ k, InInt (inode.direct_blocks k)

@[simp] theorem superblock_t.length_bytes (sb : superblock_t) : sb.bytes.length = 46 := by
  simp only [superblock_t.bytes, List.length_append, List.length_ofFn]; rfl

@[simp] theorem inode_t.length_bytes (inode : inode_t) : inode.bytes.length = 32 := by
  simp only [inode_t.bytes, intBytes, List.length_append, List.length_ofFn]; rfl

theorem superblock_t.ofBytes_bytes (sb : superblock_t) (pad : List UInt8) :
    superblock_t.ofBytes (sb.bytes ++ pad) = sb := by
  have h₁ (k) := getD_field 0 [] sb.name
    (List.ofFn sb.inode_freelist ++ (List.ofFn sb.datablock_freelist ++ pad)) rfl k 0
  have h₂ (k) := getD_field 8 (List.ofFn sb.name) sb.inode_freelist
    (List.ofFn sb.datablock_freelist ++ pad) (by simp only [List.length_ofFn]) k 0
  have h₃ (k) := getD_field 16 (List.ofFn sb.name ++ List.ofFn sb.inode_freelist)
    sb.datablock_freelist pad (by simp only [List.length_append, List.length_ofFn]; rfl) k 0
  simp only [List.append_assoc, List.nil_append, Nat.zero_add] at h₁ h₂ h₃
  simp only [ofBytes, bytes, List.append_assoc, h₁, h₂, h₃]

/-- Where the fields of an inode lie in its record. -/
theorem inode_t.getD_bytes (inode : inode_t) :
    (∀ k : Fin 4, inode.bytes.getD k 0 = leByte inode.status k) ∧
    (∀ k : Fin MAX_NAME_STRLEN, inode.bytes.getD (4 + k) 0 = inode.name k) ∧
    (∀ k : Fin 4, inode.bytes.getD (12 + k) 0 = leByte inode.file_size k) ∧
    ∀ k : Fin 16, inode.bytes.getD (16 + k) 0 =
      leByte (inode.direct_blocks ⟨k / 4, Nat.div_lt_of_lt_mul k.2⟩) (k % 4) := by
  obtain ⟨st, name, size, blocks⟩ := inode
  set f : Fin 16 → UInt8 := fun k => leByte (blocks ⟨k / 4, Nat.div_lt_of_lt_mul k.2⟩) (k % 4)
    with hf
  have hB : (inode_t.mk st name size blocks).bytes =
      intBytes st ++ (List.ofFn name ++ (intBytes size ++ List.ofFn f)) := by
    simp only [bytes, List.append_assoc, hf]
  generalize (inode_t.mk st name size blocks).bytes = B at hB ⊢
  refine ⟨fun k => ?_, fun k => ?_, fun k => ?_, fun k => ?_⟩
  · have := getD_field 0 [] (fun k : Fin 4 => leByte st k)
      (List.ofFn name ++ (intBytes size ++ List.ofFn f)) rfl k 0
    rw [List.nil_append, Nat.zero_add] at this
    rwa [hB]
  · rw [hB]
    exact getD_field 4 (intBytes st) name (intBytes size ++ List.ofFn f) rfl k 0
  · rw [hB, ← List.append_assoc]
    exact getD_field 12 _ (fun k : Fin 4 => leByte size k) (List.ofFn f) rfl k 0
  · rw [hB, ← List.append_assoc, ← List.append_assoc]
    exact getD_field 16 _ f [] rfl k 0

theorem inode_t.ofBytes_bytes {inode : inode_t} (h : inode.InRange) :
    inode_t.ofBytes inode.bytes = inode := by
  obtain ⟨h₁, h₂, h₃, h₄⟩ := inode.getD_bytes
  obtain ⟨st, name, size, blocks⟩ := inode
  generalize (inode_t.mk st name size blocks).bytes = B at h₁ h₂ h₃ h₄ ⊢
  simp only [inode_t.ofBytes, inode_t.mk.injEq]
  refine ⟨?_, funext h₂, ?_, funext fun k => ?_⟩
  · exact ofBytes_eq h.status fun b hb => h₁ ⟨b, hb⟩
  · exact ofBytes_eq h.file_size fun b hb => h₃ ⟨b, hb⟩
  · refine ofBytes_eq (h.direct_blocks k) fun b hb => ?_
    have hk : 4 * (k : ℕ) + b < 16 := by have := k.2; simp only [MAX_FILE_SIZE] at this; omega
    have hdiv : (4 * (k : ℕ) + b) / 4 = k := by omega
    have hmod : (4 * (k : ℕ) + b) % 4 = b := by omega
    simpa only [hdiv, hmod, Nat.add_assoc] using h₄ ⟨_, hk⟩

/-- A record is made of the fields it is read as. -/
theorem inode_t.bytes_ofBytes {buf : List UInt8} (h : buf.length = 32) :
    (inode_t.ofBytes buf).bytes = buf := by
  have hlen := (inode_t.ofBytes buf).length_bytes
  obtain ⟨h₁, h₂, h₃, h₄⟩ := (inode_t.ofBytes buf).getD_bytes
  generalize (inode_t.ofBytes buf).bytes = B at hlen h₁ h₂ h₃ h₄ ⊢
  simp only [inode_t.ofBytes] at h₁ h₂ h₃ h₄
  refine List.ext_getElem (by rw [hlen, h]) fun k hk hk' => ?_
  rw [← List.getD_eq_getElem _ 0 hk, ← List.getD_eq_getElem _ 0 hk']
  by_cases hk₁ : k < 4
  · rw [h₁ ⟨k, hk₁⟩, leByte_ofBytes _ hk₁]
  by_cases hk₂ : k < 12
  · obtain ⟨l, rfl⟩ : ∃ l, k = 4 + l := ⟨k - 4, by omega⟩
    exact h₂ ⟨l, by simp only [MAX_NAME_STRLEN]; omega⟩
  by_cases hk₃ : k < 16
  · obtain ⟨l, rfl⟩ : ∃ l, k = 12 + l := ⟨k - 12, by omega⟩
    have hl : l < 4 := by omega
    rw [h₃ ⟨l, hl⟩, leByte_ofBytes _ hl]
  · obtain ⟨l, rfl⟩ : ∃ l, k = 16 + l := ⟨k - 16, by omega⟩
    have hsum : 16 + 4 * (l / 4) + l % 4 = 16 + l := by omega
    rw [h₄ ⟨l, by omega⟩, leByte_ofBytes _ (Nat.mod_lt _ (by omega))]
    simp only [hsum]

theorem inode_t.inRange_ofBytes (buf : List UInt8) : (inode_t.ofBytes buf).InRange := by
  constructor <;> simp only [inode_t.ofBytes]
  exacts [inInt_ofBytes _, inInt_ofBytes _, fun _ => inInt_ofBytes _]

/-! ## The view -/

/-- What the disk and the table of open files hold. -/
@[ext] structure View where
  super : superblock_t
  inode : Fin NUM_INODES → inode_t
  block : ℕ → List UInt8
  size : ℕ
  handle : Fin MAX_OPEN_FILES → filehandle_t

def Sys.view (s : Sys) : View where
  super := .ofBytes (s.disk.slice 0 64)
  inode i := .ofBytes (s.disk.slice (64 + i * 32) 32)
  block b := s.disk.slice (64 * (5 + b)) 64
  size := s.disk.size
  handle := s.file_handle_array

/-- The superblock and the inode table are on the disk. -/
def View.Ready (v : View) : Prop := 320 ≤ v.size

section
variable {s : Sys} {j : ℕ → UInt8}

theorem inode_inRange (s : Sys) (i : Fin NUM_INODES) : (s.view.inode i).InRange :=
  inode_t.inRange_ofBytes _

theorem length_block (s : Sys) (b : ℕ) : (s.view.block b).length = 64 := File.length_slice _ _ _

theorem view_handle (s : Sys) : s.file_handle_array = s.view.handle := rfl

theorem view_set_handle (t : Fin MAX_OPEN_FILES → filehandle_t) :
    Sys.view { s with file_handle_array := t } = { s.view with handle := t } := rfl

theorem view_set_junk : Sys.view { s with junk := j } = s.view := rfl

theorem view_size_empty : (Sys.view { s with disk := File.empty }).size = 0 := rfl

theorem view_pwrite_super (sb : superblock_t) (pad : List UInt8) (hp : pad.length = 18) :
    Sys.view { s with disk := s.disk.pwrite 0 (sb.bytes ++ pad), junk := j } =
      { s.view with super := sb, size := max s.view.size 64 } := by
  have hl : (sb.bytes ++ pad).length = 64 := by simp [hp]
  ext1
  · have := s.disk.slice_pwrite_same 0 (sb.bytes ++ pad)
    rw [hl] at this
    simp only [Sys.view, this, superblock_t.ofBytes_bytes]
  · funext i
    simp only [Sys.view]
    rw [File.slice_pwrite_disjoint (by omega)]
  · funext b
    exact File.slice_pwrite_disjoint (by omega)
  · simp [Sys.view, hp]
  · rfl

theorem view_pwrite_inode (i : Fin NUM_INODES) {inode : inode_t} (h : inode.InRange) :
    Sys.view { s with disk := s.disk.pwrite (64 + i * 32) inode.bytes, junk := j } =
      { s.view with
        inode := Function.update s.view.inode i inode, size := max s.view.size (96 + i * 32) } := by
  have hl := inode.length_bytes
  have hi := i.2
  simp only [NUM_INODES] at hi
  ext1
  · simp only [Sys.view]
    rw [File.slice_pwrite_disjoint (by omega)]
  · funext k
    by_cases hk : k = i
    · subst hk
      have := s.disk.slice_pwrite_same (64 + k * 32) inode.bytes
      rw [hl] at this
      simp only [Sys.view, this, Function.update_self, inode_t.ofBytes_bytes h]
    · have hk' : (k : ℕ) ≠ i := fun he => hk (Fin.ext he)
      simp only [Sys.view, Function.update_of_ne hk]
      rw [File.slice_pwrite_disjoint (by omega)]
  · funext b
    exact File.slice_pwrite_disjoint (by omega)
  · simp only [Sys.view, File.size_pwrite, hl]; omega
  · rfl

theorem view_pwrite_block (b : ℕ) {data : List UInt8} (h : data.length = 64) :
    Sys.view { s with disk := s.disk.pwrite (64 * (5 + b)) data, junk := j } =
      { s.view with
        block := Function.update s.view.block b data, size := max s.view.size (64 * (6 + b)) } := by
  ext1
  · simp only [Sys.view]
    rw [File.slice_pwrite_disjoint (by omega)]
  · funext k
    have hk := k.2
    simp only [NUM_INODES] at hk
    simp only [Sys.view]
    rw [File.slice_pwrite_disjoint (by omega)]
  · funext c
    by_cases hc : c = b
    · subst hc
      have := s.disk.slice_pwrite_same (64 * (5 + c)) data
      rw [h] at this
      simp only [Sys.view, this, Function.update_self]
    · simp only [Sys.view, Function.update_of_ne hc]
      exact File.slice_pwrite_disjoint (by omega)
  · simp only [Sys.view, File.size_pwrite, h]; omega
  · rfl

end

/-! ## Reading and writing one object -/

section
variable {s : Sys} {E : Fault → Prop}

theorem wp_readAt (pos n : ℕ) {Q : List UInt8 → Sys → Prop} (hQ : Q (s.disk.pread pos n) s) :
    wp (readAt pos n) s E Q := by
  simp only [readAt, wp_bind]
  exact wp_assert (Int.natCast_nonneg _) (by simpa using hQ)

theorem wp_writeAt (pos : ℕ) {data : List UInt8} {Q : Unit → Sys → Prop}
    (hQ : Q () { s with disk := s.disk.pwrite pos data }) : wp (writeAt pos data) s E Q := by
  simp only [writeAt, wp_bind]
  exact wp_assert (Int.natCast_nonneg _) (by simpa using hQ)

theorem wp_uninitialised {n : ℕ} {Q : List UInt8 → Sys → Prop}
    (hQ : ∀ l j, l.length = n → Q l { s with junk := j }) : wp (uninitialised n) s E Q := by
  simp only [uninitialised, wp_bind, wp_get, wp_set, wp_pure]
  exact hQ _ _ (by simp)

theorem wp_readSuperBlock (h : 64 ≤ s.view.size) {Q : superblock_t → Sys → Prop}
    (hQ : Q s.view.super s) : wp simplefs_readSuperBlock s E Q := by
  have hp : s.disk.pread 0 64 = s.disk.slice 0 64 := File.pread_eq_slice h
  simp only [simplefs_readSuperBlock, wp_bind]
  refine wp_readAt 0 _ ?_
  rw [hp]
  exact wp_assert (by simp) hQ

theorem wp_writeSuperBlock' {sb : superblock_t} {Q : Unit → Sys → Prop}
    (hQ : ∀ s', s'.view = { s.view with super := sb, size := max s.view.size 64 } → Q () s') :
    wp (simplefs_writeSuperBlock sb) s E Q := by
  simp only [simplefs_writeSuperBlock, wp_bind]
  refine wp_uninitialised fun pad j hp => ?_
  refine wp_writeAt 0 (hQ _ ?_)
  exact view_pwrite_super sb pad (by rw [hp, sb.length_bytes]; rfl)

theorem wp_writeSuperBlock (h : s.view.Ready) {sb : superblock_t} {Q : Unit → Sys → Prop}
    (hQ : ∀ s', s'.view = { s.view with super := sb } → Q () s') :
    wp (simplefs_writeSuperBlock sb) s E Q :=
  wp_writeSuperBlock' fun s' hs' => hQ s' (by
    unfold View.Ready at h
    rw [hs', max_eq_left (by omega)])

theorem inode_pos (i : ℕ) : (BLOCKSIZE : ℤ) + i * 32 = ((64 + i * 32 : ℕ) : ℤ) := by
  push_cast
  rfl

theorem block_pos (b : ℕ) : (BLOCKSIZE : ℤ) * (5 + b) = ((64 * (5 + b) : ℕ) : ℤ) := by
  push_cast
  rfl

theorem wp_readInode (h : s.view.Ready) (i : Fin NUM_INODES) {Q : inode_t → Sys → Prop}
    (hQ : Q (s.view.inode i) s) : wp (simplefs_readInode (i : ℕ)) s E Q := by
  have hi := i.2
  simp only [NUM_INODES] at hi
  have hp : s.disk.pread (64 + i * 32) 32 = s.disk.slice (64 + i * 32) 32 := by
    refine File.pread_eq_slice ?_
    have : 320 ≤ s.disk.size := h
    omega
  simp only [simplefs_readInode, wp_bind, inode_pos]
  refine wp_assert (by exact_mod_cast i.2) (wp_readAt _ _ ?_)
  rw [hp]
  exact wp_assert (by simp) hQ

theorem wp_writeInode' (i : Fin NUM_INODES) {inode : inode_t} (hr : inode.InRange)
    {Q : Unit → Sys → Prop}
    (hQ : ∀ s', s'.view = { s.view with
      inode := Function.update s.view.inode i inode, size := max s.view.size (96 + i * 32) } →
      Q () s') : wp (simplefs_writeInode (i : ℕ) inode) s E Q := by
  simp only [simplefs_writeInode, wp_bind, inode_pos]
  refine wp_assert (by exact_mod_cast i.2) (wp_writeAt _ (hQ _ ?_))
  exact view_pwrite_inode i hr

theorem wp_writeInode (h : s.view.Ready) (i : Fin NUM_INODES) {inode : inode_t}
    (hr : inode.InRange) {Q : Unit → Sys → Prop}
    (hQ : ∀ s', s'.view = { s.view with inode := Function.update s.view.inode i inode } →
      Q () s') : wp (simplefs_writeInode (i : ℕ) inode) s E Q :=
  wp_writeInode' i hr fun s' hs' => hQ s' (by
    have hi := i.2
    simp only [NUM_INODES] at hi
    unfold View.Ready at h
    rw [hs', max_eq_left (by omega)])

/-- Inode `-1` would lie in the block of the superblock, where its size holds the marks of the
last two data blocks; writing it back changes nothing. -/
theorem wp_readInode_neg (h : s.view.Ready) {Q : inode_t → Sys → Prop}
    (hQ : ∀ inode : inode_t, inode.file_size % 65536 =
        charInt (s.view.super.datablock_freelist 28) +
          256 * charInt (s.view.super.datablock_freelist 29) →
      (∀ {E : Fault → Prop} {Q : Unit → Sys → Prop}, Q () s →
        wp (simplefs_writeInode (-1) inode) s E Q) → Q inode s) :
    wp (simplefs_readInode (-1)) s E Q := by
  have hsize : 320 ≤ s.disk.size := h
  have hp : s.disk.pread 32 32 = s.disk.slice 32 32 := File.pread_eq_slice (by omega)
  have hlen : (s.disk.slice 32 32).length = 32 := File.length_slice ..
  simp only [simplefs_readInode, wp_bind]
  refine wp_assert (by decide) (wp_readAt 32 32 ?_)
  rw [hp]
  refine wp_assert hlen (hQ _ ?_ fun hQ' => ?_)
  · have h₁ := File.getD_slice s.disk 32 (n := 32) (k := 12) (by omega)
    have h₂ := File.getD_slice s.disk 32 (n := 32) (k := 13) (by omega)
    have h₃ := File.getD_slice s.disk 0 (n := 64) (k := 44) (by omega)
    have h₄ := File.getD_slice s.disk 0 (n := 64) (k := 45) (by omega)
    generalize s.disk.slice 32 32 = B at h₁ h₂
    generalize hC : s.disk.slice 0 64 = C at h₃ h₄
    simp only [inode_t.ofBytes, Sys.view, superblock_t.ofBytes, hC, ofBytes_mod]
    rw [h₁, h₂]
    exact (congrArg₂ (charInt · + 256 * charInt ·) h₃ h₄).symm
  · simp only [simplefs_writeInode, wp_bind]
    refine wp_assert (by decide) (wp_writeAt 32 ?_)
    rw [inode_t.bytes_ofBytes hlen, File.pwrite_slice (by omega)]
    exact hQ'

/-- Block `b` lies inside the part of the disk file already written. -/
def View.Stored (v : View) (b : ℕ) : Prop := 64 * (6 + b) ≤ v.size

theorem wp_readDataBlock {b : ℕ} (hb : b < 30) (h : s.view.Stored b)
    {Q : List UInt8 → Sys → Prop} (hQ : Q (s.view.block b) s) :
    wp (simplefs_readDataBlock b) s E Q := by
  have hp : s.disk.pread (64 * (5 + b)) 64 = s.disk.slice (64 * (5 + b)) 64 := by
    refine File.pread_eq_slice ?_
    have : 64 * (6 + b) ≤ s.disk.size := h
    omega
  simp only [simplefs_readDataBlock, wp_bind, block_pos]
  refine wp_assert (by exact_mod_cast hb) (wp_readAt _ _ ?_)
  rw [hp]
  exact wp_assert (by simp) hQ

/-- What lies past the end of the buffer ends up in the block as well. -/
theorem wp_writeDataBlock {b : ℕ} (hb : b < 30) {buf : List UInt8} (hl : buf.length ≤ 64)
    {Q : Unit → Sys → Prop}
    (hQ : ∀ s' rest, buf.length + rest.length = 64 → s'.view = { s.view with
      block := Function.update s.view.block b (buf ++ rest)
      size := max s.view.size (64 * (6 + b)) } → Q () s') :
    wp (simplefs_writeDataBlock b buf) s E Q := by
  simp only [simplefs_writeDataBlock, wp_bind, block_pos]
  refine wp_assert (by exact_mod_cast hb) (wp_uninitialised fun rest j hr => ?_)
  have hlen : buf.length + rest.length = 64 := by rw [hr]; simp only [BLOCKSIZE]; omega
  have htake : (buf ++ rest).take BLOCKSIZE = buf ++ rest :=
    List.take_of_length_le (by rw [List.length_append, hlen])
  rw [htake]
  exact wp_writeAt _ (hQ _ rest hlen (view_pwrite_block b (by rw [List.length_append, hlen])))

end

-- from here on the view is known by the rules above only
attribute [irreducible] Sys.view

end Simplefs

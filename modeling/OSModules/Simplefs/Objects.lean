/-
  The disk file as separate objects: the superblock, the inodes and the data blocks are read
  and written as if each was kept for itself.
-/
import OSModules.Lib.FileLayout
import OSModules.Simplefs.View

namespace Simplefs

open CInt FlatFile Prog

/-! ## Objects -/

inductive Object where
  | superblock
  | inode (i : Fin NUM_INODES)
  | block (b : Fin NUM_DATA_BLOCKS)
  deriving DecidableEq

namespace Object

abbrev Value : Object → Type
  | superblock => superblock_t
  | inode _ => inode_t
  | block _ => List UInt8

/-- The values that the type of the object has: fields that an `int` can hold, and a whole block. -/
def Fits : (o : Object) → o.Value → Prop
  | superblock, _ => True
  | inode _, v => inode_t.InRange v
  | block _, v => List.length v = BLOCKSIZE

/-- The record of a value, which is padded to a block for the superblock. -/
def bytes : (o : Object) → o.Value → List UInt8
  | superblock => superblock_t.bytes
  | inode _ => inode_t.bytes
  | block _ => fun v => v

def ofBytes : (o : Object) → List UInt8 → o.Value
  | superblock => superblock_t.ofBytes
  | inode _ => inode_t.ofBytes
  | block _ => fun v => v

def read : (o : Object) → FS o.Value
  | superblock => simplefs_readSuperBlock
  | inode i => simplefs_readInode (i : ℕ)
  | block b => simplefs_readDataBlock (b : ℕ)

def write : (o : Object) → o.Value → FS Unit
  | superblock => simplefs_writeSuperBlock
  | inode i => simplefs_writeInode (i : ℕ)
  | block b => simplefs_writeDataBlock (b : ℕ)

def offset : Object → ℕ
  | superblock => 0
  | inode i => BLOCKSIZE + i * 32
  | block b => BLOCKSIZE * (5 + b)

def size : Object → ℕ
  | superblock => BLOCKSIZE
  | inode _ => 32
  | block _ => BLOCKSIZE

theorem apart (o p : Object) (h : o ≠ p) :
    o.offset + o.size ≤ p.offset ∨ p.offset + p.size ≤ o.offset := by
  cases o with
  | superblock =>
    cases p with
    | superblock => exact absurd rfl h
    | inode i => simp only [offset, size, BLOCKSIZE]; omega
    | block b => simp only [offset, size, BLOCKSIZE]; omega
  | inode i =>
    cases p with
    | superblock => simp only [offset, size, BLOCKSIZE]; omega
    | inode j =>
      have hij : (i : ℕ) ≠ j := fun he => h (congrArg inode (Fin.ext he))
      simp only [offset, size, BLOCKSIZE]; omega
    | block b =>
      have hi : (i : ℕ) < 8 := i.2
      simp only [offset, size, BLOCKSIZE]; omega
  | block b =>
    cases p with
    | superblock => simp only [offset, size, BLOCKSIZE]; omega
    | inode i =>
      have hi : (i : ℕ) < 8 := i.2
      simp only [offset, size, BLOCKSIZE]; omega
    | block c =>
      have hbc : (b : ℕ) ≠ c := fun he => h (congrArg block (Fin.ext he))
      simp only [offset, size, BLOCKSIZE]; omega

end Object

def layout : Layout Object := ⟨Object.offset, Object.size, Object.apart⟩

/-- What can be read from the disk. -/
def Sys.objects (s : Sys) : (o : Object) → Option o.Value := layout.store Object.ofBytes s.disk

/-! ## One call -/

section
variable {s : Sys}

/-- Reading takes the value of an object from its place. -/
theorem Object.wp_read {o : Object} (h : layout.Inside s.disk o) {E : Fault → Prop}
    {Q : o.Value → Sys → Prop} (hQ : Q (o.ofBytes (layout.get s.disk o)) s) :
    wp o.read s E Q := by
  have hpread := Layout.pread_eq_get h
  cases o with
  | superblock =>
    show wp simplefs_readSuperBlock s E Q
    simp only [simplefs_readSuperBlock, wp_bind]
    refine wp_readAt 0 _ ?_
    rw [show s.disk.pread 0 BLOCKSIZE = _ from hpread]
    exact wp_assert Layout.length_get hQ
  | inode i =>
    show wp (simplefs_readInode (i : ℕ)) s E Q
    simp only [simplefs_readInode, wp_bind, inode_pos]
    refine wp_assert (by exact_mod_cast i.2) (wp_readAt _ _ ?_)
    rw [show s.disk.pread (64 + i * 32) 32 = _ from hpread]
    exact wp_assert Layout.length_get hQ
  | block b =>
    show wp (simplefs_readDataBlock (b : ℕ)) s E Q
    simp only [simplefs_readDataBlock, wp_bind, block_pos]
    refine wp_assert (by exact_mod_cast b.2) (wp_readAt _ _ ?_)
    rw [show s.disk.pread (64 * (5 + b)) BLOCKSIZE = _ from hpread]
    exact wp_assert Layout.length_get hQ

/-- Writing fills the place of an object, with a record of it. -/
theorem Object.wp_write (o : Object) (v : o.Value) {E : Fault → Prop} {Q : Unit → Sys → Prop}
    (hQ : ∀ s' data, data.length = layout.size o →
      (o.Fits v → o.bytes v <+: data ∧ o.ofBytes data = v) →
      s'.disk = layout.put s.disk o data → Q () s') : wp (o.write v) s E Q := by
  cases o with
  | superblock =>
    simp only [write, simplefs_writeSuperBlock, wp_bind]
    refine wp_uninitialised fun pad j hpad => wp_writeAt 0 (hQ _ _ ?_ (fun _ => ?_) rfl)
    · have hlen := superblock_t.length_bytes v
      rw [List.length_append, hpad, hlen]
      rfl
    · exact ⟨List.prefix_append _ _, superblock_t.ofBytes_bytes v pad⟩
  | inode i =>
    simp only [write, simplefs_writeInode, wp_bind, inode_pos]
    refine wp_assert (by exact_mod_cast i.2) (wp_writeAt _ (hQ _ _ ?_ (fun hv => ?_) rfl))
    · exact inode_t.length_bytes v
    · exact ⟨List.prefix_rfl, inode_t.ofBytes_bytes hv⟩
  | block b =>
    simp only [write, simplefs_writeDataBlock, wp_bind, block_pos]
    refine wp_assert (by exact_mod_cast b.2) (wp_uninitialised fun rest j hrest => ?_)
    refine wp_writeAt _ (hQ _ _ ?_ (fun hv => ?_) rfl)
    · have hlen : List.length (v ++ rest) ≥ BLOCKSIZE := by
        rw [List.length_append, hrest]
        omega
      exact List.length_take_of_le hlen
    · have htake : (v ++ rest).take BLOCKSIZE = v := List.take_left' hv
      rw [htake]
      exact ⟨List.prefix_rfl, rfl⟩

theorem Object.returns_read {o : Object} {v : o.Value} (h : s.objects o = some v) :
    Returns o.read s v s := by
  obtain ⟨hin, hv⟩ := Layout.store_eq_some.1 h
  obtain ⟨a, s', hx, ha, hs⟩ := wp.total (wp_read hin (Q := fun a s' => a = v ∧ s' = s) ⟨hv, rfl⟩)
  rwa [ha, hs] at hx

/-- An object inside the file has a value of its type. -/
theorem Object.fits_of_inside {o : Object} (h : layout.Inside s.disk o) :
    ∃ v, s.objects o = some v ∧ o.Fits v := by
  refine ⟨_, Layout.store_eq_some.2 ⟨h, rfl⟩, ?_⟩
  cases o with
  | superblock => trivial
  | inode i => exact inode_t.inRange_ofBytes _
  | block b => exact Layout.length_get

end

/-! ## Runs -/

/-- A call that writes an object. -/
structure Write where
  object : Object
  value : object.Value

def writeAll (ws : List Write) : FS Unit := ws.forM fun w => w.object.write w.value

/-- What one call of a run leaves in the file. -/
theorem returns_write (s : Sys) (o : Object) (v : o.Value) :
    ∃ s', Returns (o.write v) s () s' ∧ s.disk.size ≤ s'.disk.size ∧
      (o.Fits v → o.bytes v <+: layout.get s'.disk o ∧ s'.objects o = some v) ∧
      ∃ w, layout.Holds Object.ofBytes s'.disk (Function.update s.objects o (some w)) := by
  obtain ⟨⟨⟩, s', hx, data, hlen, hv, hd⟩ := wp.total (s := s) (Object.wp_write o v
    (Q := fun _ s' => ∃ data, data.length = layout.size o ∧
      (o.Fits v → o.bytes v <+: data ∧ o.ofBytes data = v) ∧ s'.disk = layout.put s.disk o data)
    fun s' data hlen hv hd => ⟨data, hlen, hv, hd⟩)
  refine ⟨s', hx, ?_, fun hfits => ⟨?_, ?_⟩, o.ofBytes data, ?_⟩
  · rw [hd]
    exact Layout.size_le_put
  · rw [hd, Layout.get_put_self hlen]
    exact (hv hfits).1
  · refine Layout.store_eq_some.2 ?_
    rw [hd, Layout.get_put_self hlen]
    exact ⟨Layout.inside_put hlen, (hv hfits).2⟩
  · rw [hd]
    exact Layout.holds_store.put o hlen

/-- What a run leaves of an object that was inside the file. -/
theorem returns_writeAll {o : Object} (ws : List Write) (s : Sys) (h : layout.Inside s.disk o) :
    ∃ s', Returns (writeAll ws) s () s' ∧ s.disk.size ≤ s'.disk.size ∧ layout.Inside s'.disk o ∧
      (o ∉ ws.map Write.object → s'.objects o = s.objects o) := by
  induction ws generalizing s with
  | nil => exact ⟨s, rfl, le_rfl, h, fun _ => rfl⟩
  | cons w ws ih =>
    obtain ⟨s₁, hw, hsize, -, v, hholds⟩ := returns_write s w.object w.value
    obtain ⟨s', hws, hsize', hin, hsame⟩ := ih s₁ (h.mono hsize)
    refine ⟨s', Returns.bind hw hws, hsize.trans hsize', hin, ?_⟩
    intro hno
    rw [List.map_cons, List.mem_cons, not_or] at hno
    obtain ⟨u, hu, -⟩ := Object.fits_of_inside h
    rw [hsame hno.2, hu]
    exact hholds o u (by rw [Function.update_of_ne hno.1, hu])

/-- The disk file keeps the superblock, the inodes and the data blocks separately: a value just
written is in the file as its record and is read back, the other objects inside the file are read
as before, and after any further calls the object is still there, the same unless one of them wrote
it. -/
theorem objects_separate (s : Sys) (o : Object) (v : o.Value) :
    ∃ s', Returns (o.write v) s () s' ∧ s.disk.size ≤ s'.disk.size ∧
      (o.Fits v → o.bytes v <+: layout.get s'.disk o ∧ Returns o.read s' v s') ∧
      (∀ p, p ≠ o → layout.Inside s.disk p → ∃ u, Returns p.read s u s ∧ Returns p.read s' u s') ∧
      ∀ ws : List Write, ∃ s'', Returns (writeAll ws) s' () s'' ∧ s'.disk.size ≤ s''.disk.size ∧
        ∃ u, Returns o.read s'' u s'' ∧ o.Fits u ∧
          (o ∉ ws.map Write.object → Returns o.read s' u s') := by
  obtain ⟨s', hx, hsize, hv, w, hholds⟩ := returns_write s o v
  have hself : s'.objects o = some w := hholds o w (Function.update_self ..)
  refine ⟨s', hx, hsize, ?_, ?_, ?_⟩
  · intro hfits
    exact ⟨(hv hfits).1, Object.returns_read (hv hfits).2⟩
  · intro p hp hin
    obtain ⟨u, hu, -⟩ := Object.fits_of_inside hin
    have hu' : s'.objects p = some u := hholds p u (by rw [Function.update_of_ne hp, hu])
    exact ⟨u, Object.returns_read hu, Object.returns_read hu'⟩
  · intro ws
    obtain ⟨s'', hws, hsize', hin, hsame⟩ := returns_writeAll ws s' (Layout.store_eq_some.1 hself).1
    obtain ⟨u, hu, hfits⟩ := Object.fits_of_inside hin
    refine ⟨s'', hws, hsize', u, Object.returns_read hu, hfits, ?_⟩
    intro hno
    exact Object.returns_read ((hsame hno).symm.trans hu)

end Simplefs

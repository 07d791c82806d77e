/-
  Appending: how the data is cut into writes makes no difference, and a write elsewhere than at
  the end of the file appends as well.
-/
import OSModules.Simplefs.Space

namespace Simplefs

open CInt Prog Runs

/-! ## Which blocks an append takes -/

/-- The view with another table of inodes and other handles. -/
def View.withTable (v : View) (t : Fin NUM_INODES → inode_t)
    (h : Fin MAX_OPEN_FILES → filehandle_t) : View := { v with inode := t, handle := h }

section
variable (v : View) (t : Fin NUM_INODES → inode_t) (h : Fin MAX_OPEN_FILES → filehandle_t)

@[simp] theorem View.withTable_room (inode : inode_t) :
    (v.withTable t h).room inode = v.room inode := rfl

@[simp] theorem View.withTable_setInode (i : Fin NUM_INODES) (inode : inode_t) :
    (v.setInode i inode).withTable t h = v.withTable t h := rfl

@[simp] theorem View.withTable_setHandle (g : Fin MAX_OPEN_FILES) (e : filehandle_t) :
    (v.setHandle g e).withTable t h = v.withTable t h := rfl

theorem View.InodeOk.withTable {v : View} {inode : inode_t} (hok : v.InodeOk inode) :
    (v.withTable t h).InodeOk inode := hok.mono (fun _ _ h => h) le_rfl

end

/-- An append depends on the record of the file only, and on no other one. -/
theorem View.Filled.withTable {v v' : View} {inode inode' : inode_t} {data : List UInt8}
    (hf : v.Filled inode v' inode' data) (t : Fin NUM_INODES → inode_t)
    (h : Fin MAX_OPEN_FILES → filehandle_t) :
    (v.withTable t h).Filled inode (v'.withTable t h) inode' data where
  table := rfl
  handle := rfl
  freelist := hf.freelist
  name := hf.name
  size := hf.size
  slot := hf.slot
  fresh := hf.fresh
  used := hf.used
  frame := hf.frame
  old := hf.old
  new := hf.new
  grows := hf.grows
  label := hf.label
  first := hf.first

/-- Two appends of the same data do not differ in a block: both took the first one that was free
when they came to its slot. -/
theorem View.Filled.block_le {v v₁ v₂ : View} {inode inode₁ inode₂ : inode_t}
    {data₁ data₂ : List UInt8} (h₁ : v.Filled inode v₁ inode₁ data₁)
    (h₂ : v.Filled inode v₂ inode₂ data₂) (hok₂ : v₂.InodeOk inode₂) {k : Fin MAX_FILE_SIZE}
    (ih : ∀ l < k, inode₁.direct_blocks l = inode₂.direct_blocks l)
    (hk : inode.direct_blocks k = -1) {b₁ b₂ : Fin NUM_DATA_BLOCKS}
    (hb₁ : inode₁.direct_blocks k = (b₁ : ℕ)) (hb₂ : inode₂.direct_blocks k = (b₂ : ℕ)) :
    b₁ ≤ b₂ := by
  by_contra hlt
  obtain ⟨l, hlk, hl⟩ := h₁.first k b₁ b₂ hb₁ hk (not_le.1 hlt) (h₂.fresh k b₂ hb₂ hk)
  have hl₂ : inode₂.direct_blocks l = (b₂ : ℕ) := by rw [← ih l hlk, hl]
  have heq := hok₂.inj l k (by omega) (by rw [hl₂, hb₂])
  exact absurd heq (ne_of_lt hlk)

section
variable {v v₁ v₂ : View} {inode inode₁ inode₂ : inode_t} {data : List UInt8}
  (h₁ : v.Filled inode v₁ inode₁ data) (h₂ : v.Filled inode v₂ inode₂ data)
  (hok₁ : v₁.InodeOk inode₁) (hok₂ : v₂.InodeOk inode₂)
include h₁ h₂ hok₁ hok₂

theorem View.Filled.inode_eq : inode₁ = inode₂ := by
  have hsize : inode₁.file_size = inode₂.file_size := h₁.size.trans h₂.size.symm
  refine inode_t.ext (h₁.name.1.trans h₂.name.1.symm) (h₁.name.2.trans h₂.name.2.symm) hsize ?_
  funext k
  induction k using WellFoundedLT.induction with
  | ind k ih =>
    by_cases hk : inode.direct_blocks k = -1
    · by_cases hk₁ : inode₁.direct_blocks k = -1
      · have hk₂ : ¬ inode₂.direct_blocks k ≠ -1 := by
          rw [hok₂.slot k, ← hsize, ← hok₁.slot k]
          exact not_not.2 hk₁
        rw [hk₁, not_not.1 hk₂]
      · have hk₂ : inode₂.direct_blocks k ≠ -1 := by
          rw [hok₂.slot k, ← hsize, ← hok₁.slot k]
          exact hk₁
        obtain ⟨b₁, hb₁, -⟩ := hok₁.block k hk₁
        obtain ⟨b₂, hb₂, -⟩ := hok₂.block k hk₂
        have hle := h₁.block_le h₂ hok₂ ih hk hb₁ hb₂
        have hge := h₂.block_le h₁ hok₁ (fun l hl => (ih l hl).symm) hk hb₂ hb₁
        rw [hb₁, hb₂, le_antisymm hle hge]
    · rw [h₁.slot k hk, h₂.slot k hk]

theorem View.Filled.super_eq : v₁.super = v₂.super := by
  have hinode := h₁.inode_eq h₂ hok₁ hok₂
  refine superblock_t.ext (h₁.label.trans h₂.label.symm) (h₁.freelist.trans h₂.freelist.symm) ?_
  funext b
  rw [h₁.used b, h₂.used b, hinode]

end

theorem View.Filled.byteAt_eq {v v₁ v₂ : View} {inode inode₁ inode₂ : inode_t} {data : List UInt8}
    (h₁ : v.Filled inode v₁ inode₁ data) (h₂ : v.Filled inode v₂ inode₂ data)
    (hn : 0 ≤ inode.file_size) {p : ℕ} (hp : p < inode₁.file_size) :
    v₁.byteAt inode₁ p = v₂.byteAt inode₂ p := by
  by_cases hold : p < inode.file_size
  · rw [h₁.old p hold, h₂.old p hold]
  · have hsize := h₁.size
    obtain ⟨k, rfl⟩ : ∃ k, p = inode.file_size.toNat + k := ⟨p - inode.file_size.toNat, by omega⟩
    rw [h₁.new k (by omega), h₂.new k (by omega)]

/-! ## Chunks -/

/-- Each inode has blocks, used, on the disk and not shared, in the slots below its size and
none in the others. -/
structure View.Packed (v : View) : Prop where
  ready : v.Ready
  size_nonneg : ∀ i, 0 ≤ (v.inode i).file_size
  slot : ∀ i k, (v.inode i).direct_blocks k ≠ -1 ↔ (k : ℕ) < blocksFor (v.inode i).file_size
  block : ∀ i k, (v.inode i).direct_blocks k ≠ -1 → ∃ b : Fin NUM_DATA_BLOCKS,
    (v.inode i).direct_blocks k = (b : ℕ) ∧ v.super.datablock_freelist b = DATA_BLOCK_USED ∧
    v.Stored b
  unshared : ∀ i k j l, (v.inode i).direct_blocks k ≠ -1 →
    (v.inode i).direct_blocks k = (v.inode j).direct_blocks l → i = j ∧ k = l

theorem View.Packed.owns {v : View} (hp : v.Packed) {i : Fin NUM_INODES}
    (h256 : (v.inode i).file_size ≤ 256) : v.Owns i (v.inode i) := by
  have h0 := hp.size_nonneg i
  refine ⟨hp.ready, ⟨h0, h256, fun k => ?_, hp.block i, fun k l hk hkl => ?_⟩, fun j _ b hr => ?_,
    fun j hj b => ?_⟩
  · rw [hp.slot i k, blocksFor]
    omega
  · exact (hp.unshared i k i l hk hkl).2
  · obtain ⟨k, hk⟩ := hr
    obtain ⟨c, hc, hu, -⟩ := hp.block j k (by omega)
    have : c = b := Fin.ext (by omega)
    rwa [← this]
  · rintro ⟨k, hk⟩ ⟨l, hl⟩
    exact hj (hp.unshared i k j l (by omega) (by rw [hk, hl])).1.symm

/-- From `v₀` on, `data` was appended through `g` to the file of inode `i`. -/
structure View.Appended (v₀ : View) (g : Fin MAX_OPEN_FILES) (i : Fin NUM_INODES)
    (data : List UInt8) (v : View) : Prop where
  atEnd : v.AtEnd g i
  owns : v.Owns i (v.inode i)
  filled : v₀.Filled (v₀.inode i) (v.withTable v₀.inode v₀.handle) (v.inode i) data
  others : ∀ j ≠ i, v.inode j = v₀.inode j
  handles : ∀ h ≠ g, v.handle h = v₀.handle h

/-- Writing `p`, and seeking past it. -/
def writeSeek (h : ℤ) (p : List UInt8) : FS (ℤ × ℤ) := do
  let r ← simplefs_write h (fun k => p.getD k 0) p.length
  let r' ← simplefs_seek h p.length
  return (r, r')

theorem map_getD_range (p : List UInt8) : (List.range p.length).map (fun k => p.getD k 0) = p := by
  refine List.ext_getElem (by simp) fun k h₁ h₂ => ?_
  simp [List.getD, h₂]

section
variable {v₀ v v₁ : View} {g : Fin MAX_OPEN_FILES} {i : Fin NUM_INODES} {inode' : inode_t}
  {data p : List UInt8} (hok : v₀.InodeOk (v₀.inode i))
include hok

theorem View.Appended.next (ha : v₀.Appended g i data v) (hg : v.Filled (v.inode i) v₁ inode' p)
    (ho : v₁.Owns i inode') : v₀.Appended g i (data ++ p)
      ((v₁.setInode i inode').setHandle g ⟨inode'.file_size, (i : ℕ)⟩) := by
  have hself : ((v₁.setInode i inode').setHandle g ⟨inode'.file_size, (i : ℕ)⟩).inode i = inode' := by
    rw [View.setHandle_inode, View.setInode_inode, Function.update_self]
  refine ⟨⟨?_, ?_⟩, ?_, ?_, fun j hj => ?_, fun h hh => ?_⟩
  · rw [View.OpenOn, View.setHandle_handle, Function.update_self]
  · rw [hself, View.setHandle_handle, Function.update_self]
  · rw [hself]
    exact ho.setInode.setHandle g _
  · rw [hself, View.withTable_setHandle, View.withTable_setInode]
    exact ha.filled.trans hok.size_nonneg (ha.owns.ok.withTable _ _) (hg.withTable _ _)
  · rw [View.setHandle_inode, View.setInode_inode, Function.update_of_ne hj, hg.table,
      ha.others j hj]
  · rw [View.setHandle_handle, Function.update_of_ne hh, View.setInode_handle, hg.handle,
      ha.handles h hh]

/-- There is room for the next part of the data if there is room for all of it. -/
theorem View.Appended.fits (ha : v₀.Appended g i data v)
    (hfits : v₀.Fits (v₀.inode i) (data ++ p).length) : v.Fits (v.inode i) p.length := by
  have hsize := ha.filled.size
  have hroom := ha.filled.room_eq hok (ha.owns.ok.withTable _ _)
  rw [View.withTable_room] at hroom
  obtain ⟨h256, hb⟩ := hfits
  rw [List.length_append, Nat.cast_add, ← add_assoc, ← hsize] at h256 hb
  exact ⟨h256, by rwa [hroom]⟩

end

section
variable {v₀ : View} {g : Fin MAX_OPEN_FILES} {i : Fin NUM_INODES} {s : Sys} {E : Fault → Prop}
  (hok : v₀.InodeOk (v₀.inode i))
include hok

theorem View.Appended.wp_writeSeek {data p : List UInt8} (ha : v₀.Appended g i data s.view)
    (hfits : v₀.Fits (v₀.inode i) (data ++ p).length) :
    wp (writeSeek (g : ℕ) p) s E fun r s' => r = (0, 0) ∧ v₀.Appended g i (data ++ p) s'.view := by
  have hfits' := ha.fits hok hfits
  have h0 := ha.owns.ok.size_nonneg
  have h256 := hfits'.1
  have hint : InInt ((s.view.handle g).offset + p.length) := by
    rw [ha.atEnd.offset]
    exact ⟨by omega, by omega⟩
  simp only [writeSeek, wp_bind]
  refine ha.atEnd.wp_write ha.owns _ (by omega) hint (fun hbig => absurd hbig (not_lt.2 h256))
    (fun _ hno => absurd hfits' hno) fun _ s₁ s₂ inode' hg ho hs₂ => ?_
  rw [Int.toNat_natCast, map_getD_range] at hg
  have hself : s₂.view.inode i = inode' := by rw [hs₂, View.setInode_inode, Function.update_self]
  have hhandle : s₂.view.handle g = s.view.handle g := by
    rw [hs₂, View.setInode_handle, hg.handle]
  have ho₂ := ho.setInode
  rw [← hs₂] at ho₂
  refine wp_seek ho₂.ready g i (by rw [hhandle]; exact ha.atEnd.open_) (fun hbad => ?_)
    fun _ _ s₃ hs₃ => ⟨rfl, ?_⟩
  · rw [hhandle, int32_eq hint, ha.atEnd.offset, hself, hg.size] at hbad
    omega
  · rw [hs₃, hhandle, int32_eq hint, ha.atEnd.offset, ← hg.size, hs₂]
    exact ha.next hok hg ho

/-- The parts of the data, one after the other. -/
theorem View.Appended.wp_chunks {ps : List (List UInt8)} :
    ∀ {s : Sys} {data : List UInt8}, v₀.Appended g i data s.view →
    v₀.Fits (v₀.inode i) (data ++ ps.flatten).length →
    wp (ps.mapM (writeSeek (g : ℕ))) s E fun rs s' =>
      (∀ r ∈ rs, r = (0, 0)) ∧ v₀.Appended g i (data ++ ps.flatten) s'.view := by
  induction ps with
  | nil =>
    intro s data ha _
    rw [List.mapM_nil, wp_pure, List.flatten_nil, List.append_nil]
    exact ⟨fun r hr => absurd hr List.not_mem_nil, ha⟩
  | cons p ps ih =>
    intro s data ha hfits
    rw [List.flatten_cons, ← List.append_assoc] at hfits ⊢
    have hp : v₀.Fits (v₀.inode i) (data ++ p).length := by
      obtain ⟨h256, hb⟩ := hfits
      rw [List.length_append] at h256 hb
      unfold blocksFor at hb
      refine ⟨by omega, ?_⟩
      unfold blocksFor
      omega
    rw [List.mapM_cons, wp_bind]
    refine (ha.wp_writeSeek hok hp).imp ?_
    rintro r s₁ ⟨hr, ha₁⟩
    rw [wp_bind]
    refine (ih ha₁ hfits).imp ?_
    rintro rs s₂ ⟨hrs, ha₂⟩
    rw [wp_pure]
    refine ⟨fun r' hr' => ?_, ha₂⟩
    rcases List.mem_cons.1 hr' with rfl | hr'
    · exact hr
    · exact hrs r' hr'

end

theorem View.Appended.init {v : View} {g : Fin MAX_OPEN_FILES} {i : Fin NUM_INODES}
    (hg : v.AtEnd g i) (ho : v.Owns i (v.inode i)) : v.Appended g i [] v where
  atEnd := hg
  owns := ho
  filled := .refl v _
  others _ _ := rfl
  handles _ _ := rfl

/-- Two appends of the same data leave the same state, but for what lies past the end of files. -/
theorem View.Appended.unique {v₀ v₁ v₂ : View} {g : Fin MAX_OPEN_FILES} {i : Fin NUM_INODES}
    {data : List UInt8} (h0 : 0 ≤ (v₀.inode i).file_size) (h₁ : v₀.Appended g i data v₁)
    (h₂ : v₀.Appended g i data v₂) : v₁.super = v₂.super ∧ v₁.inode = v₂.inode ∧
      v₁.handle = v₂.handle ∧ ∀ p : ℕ, p < (v₁.inode i).file_size →
        v₁.byteAt (v₁.inode i) p = v₂.byteAt (v₂.inode i) p := by
  have hok₁ := h₁.owns.ok.withTable v₀.inode v₀.handle
  have hok₂ := h₂.owns.ok.withTable v₀.inode v₀.handle
  have hself := h₁.filled.inode_eq h₂.filled hok₁ hok₂
  have hsuper := h₁.filled.super_eq h₂.filled hok₁ hok₂
  refine ⟨hsuper, ?_, ?_, fun p hp => ?_⟩
  · funext j
    by_cases hj : j = i
    · rw [hj, hself]
    · rw [h₁.others j hj, h₂.others j hj]
  · funext h
    by_cases hh : h = g
    · rw [hh]
      refine filehandle_t.ext ?_ (h₁.atEnd.open_.trans h₂.atEnd.open_.symm)
      rw [h₁.atEnd.offset, h₂.atEnd.offset, hself]
    · rw [h₁.handles h hh, h₂.handles h hh]
  · exact h₁.filled.byteAt_eq h₂.filled h0 hp

/-- Appending the parts of the data one after the other does the same as appending all of it at
once. -/
theorem append_chunks {s : Sys} (hp : s.view.Packed) {g : Fin MAX_OPEN_FILES} {i : Fin NUM_INODES}
    (hg : s.view.AtEnd g i) (ps : List (List UInt8))
    (hsize : (s.view.inode i).file_size + ps.flatten.length ≤ 256)
    (hfree : blocksFor ((s.view.inode i).file_size + ps.flatten.length) -
      blocksFor (s.view.inode i).file_size ≤ s.view.marks DATA_BLOCK_FREE) :
    ∃ rs s₁ s₂, Returns (ps.mapM (writeSeek (g : ℕ))) s rs s₁ ∧ (∀ r ∈ rs, r = (0, 0)) ∧
      Returns (writeSeek (g : ℕ) ps.flatten) s (0, 0) s₂ ∧
      s₁.view.super = s₂.view.super ∧ s₁.view.inode = s₂.view.inode ∧
      s₁.file_handle_array = s₂.file_handle_array ∧
      ∀ p : ℕ, p < (s₁.view.inode i).file_size →
        s₁.view.byteAt (s₁.view.inode i) p = s₂.view.byteAt (s₂.view.inode i) p := by
  have ho : s.view.Owns i (s.view.inode i) := hp.owns (by omega)
  have hinit := View.Appended.init hg ho
  have hfits : s.view.Fits (s.view.inode i) ([] ++ ps.flatten).length := by
    rw [List.nil_append]
    refine ⟨hsize, ?_⟩
    unfold View.room
    omega
  obtain ⟨rs, s₁, hr₁, hrs, ha₁⟩ := (hinit.wp_chunks (E := fun _ => False) ho.ok hfits).total
  obtain ⟨_, s₂, hr₂, rfl, ha₂⟩ := (hinit.wp_writeSeek (E := fun _ => False) ho.ok hfits).total
  obtain ⟨hsuper, hinode, hhandle, hbytes⟩ := ha₁.unique ho.ok.size_nonneg ha₂
  rw [← view_handle, ← view_handle] at hhandle
  exact ⟨rs, s₁, s₂, hr₁, hrs, hr₂, hsuper, hinode, hhandle, hbytes⟩

theorem View.Sound.packed {v : View} (hs : v.Sound) : v.Packed := by
  refine ⟨hs.ready, fun i => (hs.ok i).size_nonneg, fun i k => ?_, fun i => (hs.ok i).block,
    hs.unshared⟩
  rw [(hs.ok i).slot k, blocksFor]
  omega

/-- The parts end inside of a block, at its end, and inside of the next one. -/
theorem append_chunks_three : ∃ (ps : List (List UInt8)) (s : Sys) (rs : List (ℤ × ℤ))
    (s₁ s₂ : Sys), ps.map List.length = [40, 24, 70] ∧ simplefs.Reachable s ∧
    Returns (ps.mapM (writeSeek 0)) s rs s₁ ∧ Returns (writeSeek 0 ps.flatten) s (0, 0) s₂ ∧
    s₁.view.super = s₂.view.super ∧ s₁.view.inode = s₂.view.inode := by
  obtain ⟨s, hr, hend, hh, hfree⟩ := exists_opened
  have hsize : (s.view.inode 0).file_size = 0 := by rw [← hend.offset, hh]
  obtain ⟨rs, s₁, s₂, hr₁, -, hr₂, hsuper, hinode, -⟩ := append_chunks
    (sound_of_reachable hr).view.packed hend
    [List.replicate 40 1, List.replicate 24 2, List.replicate 70 3]
    (by rw [hsize]; simp) (by rw [hsize, hfree]; simp [blocksFor])
  exact ⟨_, s, rs, s₁, s₂, by simp, hr, hr₁, hr₂, hsuper, hinode⟩

/-! ## Writes elsewhere -/

/-- The bytes of a file after `data` is written at offset `o`. -/
def overwrite (c : List UInt8) (o : ℕ) (data : List UInt8) : List UInt8 :=
  c.take o ++ data ++ c.drop (o + data.length)

/-- What is written at the end is appended. -/
theorem overwrite_end {c data : List UInt8} {o : ℕ} (h : o = c.length ∨ data = []) :
    overwrite c o data = c ++ data := by
  unfold overwrite
  rcases h with rfl | rfl
  · rw [List.take_length, List.drop_of_length_le (by omega), List.append_nil]
  · rw [List.append_nil, List.append_nil, List.length_nil, Nat.add_zero, List.take_append_drop]

/-- What is written elsewhere is not. -/
theorem overwrite_ne {c data : List UInt8} {o : ℕ} (ho : o < c.length) (hd : data ≠ []) :
    overwrite c o data ≠ c ++ data := by
  intro h
  have hlen := congrArg List.length h
  have hpos := List.length_pos_iff.2 hd
  simp only [overwrite, List.length_append, List.length_take, List.length_drop] at hlen
  omega

section
variable {s : Sys} {g : Fin MAX_OPEN_FILES} {i : Fin NUM_INODES} {n : ℕ}

/-- Reading what the file ends with, if the handle is at its start or there is nothing to read. -/
theorem wp_read_end {E : Fault → Prop} (hs : s.view.Sound) (hi : s.view.OpenOn g i)
    {c data : List UInt8} (hc : s.view.content (s.view.inode i) = c ++ data)
    (h : (s.view.handle g).offset.toNat = c.length ∨ data = [])
    (hle : (s.view.handle g).offset ≤ c.length) :
    wp (simplefs_read (g : ℕ) data.length) s E fun r _ => r = (0, data) := by
  have ho := hs.offset g i hi
  have hok := hs.ok i
  have h0 := hok.size_nonneg
  have h256 := hok.size_le
  have hlen := s.view.length_content (s.view.inode i)
  rw [hc, List.length_append] at hlen
  refine wp_read hs.ready hi hok ho.1 ⟨by omega, by omega⟩ (fun hbad => ?_) fun _ => ?_
  · omega
  · rw [Int.toNat_natCast, ← View.content_slice _ _ (by push_cast; omega), hc]
    rcases h with h | rfl
    · rw [h, List.drop_left, List.take_length]
    · rw [List.length_nil, List.take_zero]

/-- A write that succeeds appends. -/
theorem write_appends (buf : ℕ → UInt8) (hs : s.view.Sound) (hi : s.view.OpenOn g i)
    (hle : (s.view.handle g).offset + n ≤ 256)
    (hfree : blocksFor ((s.view.handle g).offset + n) - blocksFor (s.view.inode i).file_size ≤
      s.view.marks DATA_BLOCK_FREE) :
    wp (simplefs_write (g : ℕ) buf n) s
      (fun _ => ¬ ((s.view.handle g).offset = (s.view.inode i).file_size ∨ n = 0))
      fun r s' =>
        ((s.view.handle g).offset = (s.view.inode i).file_size ∨ n = 0 → r = 0) ∧
        (r = 0 → s'.view.Sound ∧ s'.view.handle = s.view.handle ∧
          s'.view.content (s'.view.inode i) =
            s.view.content (s.view.inode i) ++ (List.range n).map buf) := by
  have ho := hs.offset g i hi
  have hok := hs.ok i
  have h0 := hok.size_nonneg
  have h256 := hok.size_le
  have hfits : (s.view.handle g).offset = (s.view.inode i).file_size ∨ n = 0 →
      s.view.Fits (s.view.inode i) n := by
    unfold View.Fits View.room
    rintro (h | rfl)
    · rw [← h] at hfree ⊢
      omega
    · rw [Nat.cast_zero, add_zero]
      omega
  rw [← Access.plain_write]
  refine Access.plain_lawful.wp_write_room hi (hs.owns i) buf (fun hbig => ?_)
    (fun _ hov h => (hfits h).not_overruns hov)
    (fun _ hno _ _ _ _ _ _ _ => ⟨fun h => absurd (hfits h) hno, by simp⟩)
    fun _ _ _ s₁ s' inode' hg ho' hs' => ⟨fun _ => rfl, fun _ => ?_⟩
  · rw [int32_eq ⟨by omega, by omega⟩] at hbig
    omega
  · rw [Int.toNat_natCast] at hg
    refine ⟨?_, ?_, ?_⟩
    · rw [hs']
      exact hs.setInode hg.table hg.handle hg.grows ho'
    · rw [hs']
      exact hg.handle
    · rw [hs', View.setInode_inode, Function.update_self, View.setInode_content]
      exact hg.content_after h0

/-- The bytes written are at the offset of the handle, where a read finds them, if and only if
that is the end of the file or there are none. -/
theorem writes_at_offset_iff (buf : ℕ → UInt8) (hs : simplefs.Reachable s) (hi : s.view.OpenOn g i)
    (ho : 0 ≤ (s.view.handle g).offset ∧ (s.view.handle g).offset ≤ (s.view.inode i).file_size)
    (hle : (s.view.handle g).offset + n ≤ 256)
    (hfree : blocksFor ((s.view.handle g).offset + n) - blocksFor (s.view.inode i).file_size ≤
      s.view.marks DATA_BLOCK_FREE) :
    (∃ s', Returns (simplefs_write (g : ℕ) buf n) s 0 s' ∧
      s'.view.content (s'.view.inode i) = overwrite (s.view.content (s.view.inode i))
        (s.view.handle g).offset.toNat ((List.range n).map buf) ∧
      ∃ s'', Returns (simplefs_read (g : ℕ) n) s' (0, (List.range n).map buf) s'') ↔
    (s.view.handle g).offset = (s.view.inode i).file_size ∨ n = 0 := by
  have hv := (sound_of_reachable hs).view
  have hwp := write_appends buf hv hi hle hfree
  have hlen := s.view.length_content (s.view.inode i)
  constructor
  · rintro ⟨s', hr, hc, -⟩
    obtain ⟨-, -, hc'⟩ := (hwp.returns hr).2 rfl
    by_contra hno
    rw [not_or] at hno
    refine overwrite_ne ?_ ?_ (hc.symm.trans hc')
    · rw [hlen]
      omega
    · simpa using hno.2
  · intro h
    obtain ⟨r, s', hr, hzero, hrest⟩ := (hwp.mono (fun _ hno => hno h) fun _ _ hQ => hQ).total
    obtain rfl := hzero h
    obtain ⟨hv', hhandle, hc⟩ := hrest rfl
    refine ⟨s', hr, ?_, ?_⟩
    · rw [hc, overwrite_end]
      rw [hlen]
      refine h.imp (fun h => by rw [h]) fun h => by rw [h]; rfl
    · have hdata : ((List.range n).map buf).length = n := by simp
      have hread := wp_read_end (E := fun _ => False) hv' (i := i)
        (by rw [View.OpenOn, hhandle]; exact hi) hc
        (by rw [hhandle, hlen]; exact h.imp (fun h => by rw [h]) fun h => by rw [h]; rfl)
        (by rw [hhandle, hlen]; omega)
      rw [hdata] at hread
      obtain ⟨r, s'', hr', rfl⟩ := hread.total
      exact ⟨s'', hr'⟩

end

/-- The first 100 bytes of a new file. -/
theorem writes_at_offset_new_file : ∃ s s' s'', simplefs.Reachable s ∧
    Returns (simplefs_write 0 UInt8.ofNat (100 : ℕ)) s 0 s' ∧
    Returns (simplefs_read 0 (100 : ℕ)) s' (0, (List.range 100).map UInt8.ofNat) s'' := by
  obtain ⟨s, hr, hend, hh, hfree⟩ := exists_opened
  have hsize : (s.view.inode 0).file_size = 0 := by rw [← hend.offset, hh]
  obtain ⟨s', hw, -, s'', hr'⟩ := (writes_at_offset_iff (n := 100) UInt8.ofNat hr
    hend.open_ (by rw [hh, hsize]; simp) (by rw [hh]; norm_num)
    (by rw [hh, hsize, hfree]; simp [blocksFor])).2 (Or.inl hend.offset)
  exact ⟨s, s', s'', hr, hw, hr'⟩

/-- At offset `0` of a file that holds `7` and `7`, a write of `9` succeeds.  It makes the file
`7`, `7` and `9`, and the read that follows finds a `7`. -/
theorem write_ignores_offset : ∃ s s' s'', simplefs.Reachable s ∧ s.view.OpenOn 0 0 ∧
    (s.view.handle 0).offset = 0 ∧ s.view.content (s.view.inode 0) = [7, 7] ∧
    s.view.marks DATA_BLOCK_FREE = 29 ∧ Returns (simplefs_write 0 (fun _ => 9) 1) s 0 s' ∧
    s'.view.content (s'.view.inode 0) = [7, 7, 9] ∧ overwrite [7, 7] 0 [9] = [9, 7] ∧
    Returns (simplefs_read 0 1) s' (0, [7]) s'' := by
  have h : ∃ s₀, Returns simplefs_formatDisk blankSys () s₀ ∧
      ∃ s, Returns ([.create nameA, .open_ nameA, .write 0 (fun _ => 7) 2].mapM Op.exec)
          s₀ [⟨0, []⟩, ⟨0, []⟩, ⟨0, []⟩] s ∧
        s.view.OpenOn 0 0 ∧ (s.view.handle 0).offset = 0 ∧
        s.view.content (s.view.inode 0) = [7, 7] ∧ s.view.marks DATA_BLOCK_FREE = 29 ∧
      ∃ s', Returns (simplefs_write 0 (fun _ => 9) 1) s 0 s' ∧
        s'.view.content (s'.view.inode 0) = [7, 7, 9] ∧
      ∃ s'', Returns (simplefs_read 0 1) s' (0, [7]) s'' ∧ True := by decide +kernel
  obtain ⟨s₀, h₀, s, h₁, hopen, hoff, hc, hfree, s', hw, hc', s'', hr', -⟩ := h
  have hr : simplefs.Reachable s := (wp_calls (.init ⟨blankSys, h₀⟩) _).returns h₁
  exact ⟨s, s', s'', hr, hopen, hoff, hc, hfree, hw, hc', rfl, hr'⟩

end Simplefs

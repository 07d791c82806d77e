/-
  simplefs_dump: what it prints, and how the files can be read off it.
-/
import OSModules.Simplefs.Refine

namespace Simplefs

open CInt Prog Runs

/-! ## Output -/

/-- The arguments of one `printf`, or of those that print one line. -/
inductive Line
  | diskState
  | diskName (name : List UInt8)
  | inodeFreelist (marks : List UInt8)
  | dataBlockFreelist (marks : List UInt8)
  | inode (i : ℕ) (status : UInt8) (name : List UInt8) (size : ℤ) (blocks : List ℤ)
  | dataBlock (j : ℕ) (text : List UInt8)
  /-- The end of an inode. -/
  | blank
  | endOfDump
  deriving DecidableEq

/-- The characters of a byte string. -/
def chars (l : List UInt8) : String := String.ofList (l.map fun c => Char.ofNat c.toNat)

/-- Each element followed by a tab. -/
def tabbed (l : List String) : String := String.join (l.map (· ++ "\t"))

def Line.text : Line → String
  | .diskState =>
    "<<<<<<<<<<<<<<<<<<<<<<<<<<<<<<<<<DISK STATE>>>>>>>>>>>>>>>>>>>>>>>>>>>>>>>>>>>>>" ++
      ">>>>>>>>>>>>>>>>>>>>>>>>>\n"
  | .diskName name => "DISK NAME: " ++ chars name ++ "\n"
  | .inodeFreelist marks => "INODE FREELIST:\t" ++ tabbed (marks.map fun c => chars [c]) ++ "\n"
  | .dataBlockFreelist marks =>
    "DATA BLOCK FREELIST:\t" ++ tabbed (marks.map fun c => chars [c]) ++ "\n"
  | .inode i status name size blocks => "INODE " ++ toString i ++ "\nSTATUS:\t" ++ chars [status] ++
    "\tNAME\t" ++ chars name ++ "\tSIZE\t" ++ toString size ++ "\tDATABLOCK\t" ++
    tabbed (blocks.map toString) ++ "\n"
  | .dataBlock j text => "DATA BLOCK " ++ toString j ++ ": " ++ chars text ++ "\n"
  | .blank => "\n"
  | .endOfDump =>
    "<<<<<<<<<<<<<<<<<<<<<<<<<<<<<<<<<<<<<<<<<<<<<<<<<<<<>>>>>>>>>>>>>>>>>>>>>>>>>>>>" ++
      ">>>>>>>>>>>>>>>>>>>>>>>>>>>>>\n"

/-- A line of `testcase0.out`. -/
example : (Line.inode 0 INODE_IN_USE [102, 105, 108, 101, 97, 98, 99] 128 [0, 1, -1, -1]).text =
    "INODE 0\nSTATUS:\t1\tNAME\tfileabc\tSIZE\t128\tDATABLOCK\t0\t1\t-1\t-1\t\n" := by
  decide +kernel

/-! ## simplefs_dump -/

/-- The argument of a `%s`: the memory from a pointer on, of which all up to its NUL is printed. -/
def upToNul (buf : List UInt8) : FS (List UInt8) := do
  assert (0 ∈ buf) .outOfBounds
  return buf.takeWhile (· ≠ 0)

/-- The inner loop, for slot `j`. -/
def dumpBlock (inode : inode_t) (j : Fin MAX_FILE_SIZE) : FS (List Line) :=
  if inode.direct_blocks j ≠ -1 then do
    let tempBuf ← simplefs_readDataBlock (inode.direct_blocks j)
    return [.dataBlock j (← upToNul (tempBuf ++ [0]))]
  else return []

/-- The outer loop, for inode `i`.  The name is printed from its field on. -/
def dumpInode (i : Fin NUM_INODES) : FS (List Line) := do
  let inode ← simplefs_readInode (i : ℕ)
  if inode.status = charInt INODE_IN_USE then
    let name ← upToNul (inode.bytes.drop 4)
    let blocks ← (List.finRange MAX_FILE_SIZE).mapM (dumpBlock inode)
    return .inode i (leByte inode.status 0) name inode.file_size (List.ofFn inode.direct_blocks) ::
      blocks.flatten ++ [.blank]
  else return []

def simplefs_dump : FS (List Line) := do
  let superblock ← simplefs_readSuperBlock
  let name ← upToNul (List.ofFn superblock.name ++ [0])
  let inodes ← (List.finRange NUM_INODES).mapM dumpInode
  return [.diskState, .diskName name, .inodeFreelist (List.ofFn superblock.inode_freelist),
    .dataBlockFreelist (List.ofFn superblock.datablock_freelist)] ++ inodes.flatten ++ [.endOfDump]

/-! ## What is printed -/

/-- The lines of the blocks that hold the file of an inode. -/
def View.blockLines (v : View) (inode : inode_t) : List Line :=
  (List.range ((inode.file_size.toNat + 63) / 64)).map fun j =>
    .dataBlock j ((v.block (inode.slot j).toNat).takeWhile (· ≠ 0))

/-- The lines of inode `i`. -/
def View.inodeLines (v : View) (i : Fin NUM_INODES) : List Line :=
  if v.InUse i then
    .inode i INODE_IN_USE (v.inode i).cname (v.inode i).file_size
        (List.ofFn (v.inode i).direct_blocks) ::
      v.blockLines (v.inode i) ++ [.blank]
  else []

def View.lines (v : View) : List Line :=
  [.diskState, .diskName ((List.ofFn v.super.name ++ [0]).takeWhile (· ≠ 0)),
    .inodeFreelist (List.ofFn v.super.inode_freelist),
    .dataBlockFreelist (List.ofFn v.super.datablock_freelist)] ++
      ((List.finRange NUM_INODES).map v.inodeLines).flatten ++ [.endOfDump]

section
variable {s : Sys}

theorem wp_upToNul {buf : List UInt8} (h : 0 ∈ buf) {E : Fault → Prop}
    {Q : List UInt8 → Sys → Prop} (hQ : Q (buf.takeWhile (· ≠ 0)) s) : wp (upToNul buf) s E Q := by
  simp only [upToNul, wp_bind]
  exact wp_assert h hQ

/-- A block is printed up to its first NUL. -/
theorem takeWhile_append_nul (l : List UInt8) :
    (l ++ [0]).takeWhile (· ≠ 0) = l.takeWhile (· ≠ 0) := by
  induction l with
  | nil => rfl
  | cons x l ih =>
    rw [List.cons_append, List.takeWhile_cons, List.takeWhile_cons, ih]

/-- A terminated name is printed, and nothing behind it. -/
theorem inode_t.Terminated.printed {inode : inode_t} (h : inode.Terminated) :
    0 ∈ inode.bytes.drop 4 ∧ (inode.bytes.drop 4).takeWhile (· ≠ 0) = inode.cname := by
  obtain ⟨k, hk⟩ := h
  obtain ⟨rest, hrest⟩ := exists_terminated (List.mem_ofFn.2 ⟨k, hk⟩)
  have hdrop : ∃ tail, inode.bytes.drop 4 = inode.cname ++ 0 :: tail := by
    refine ⟨rest ++ (intBytes inode.file_size ++ List.ofFn fun k : Fin 16 =>
      leByte (inode.direct_blocks ⟨k / 4, Nat.div_lt_of_lt_mul k.2⟩) (k % 4)), ?_⟩
    unfold inode_t.bytes
    rw [List.append_assoc, List.append_assoc, List.drop_append_of_le_length (by simp [intBytes]),
      List.drop_of_length_le (by simp [intBytes])]
    conv_lhs => rw [hrest]
    rw [List.nil_append, List.append_assoc, List.cons_append]
    rfl
  obtain ⟨tail, htail⟩ := hdrop
  rw [htail]
  refine ⟨by simp, takeWhile_terminated fun c hc => ?_⟩
  simpa using List.mem_takeWhile_imp hc

theorem wp_dumpBlock {inode : inode_t} (hok : s.view.InodeOk inode) (j : Fin MAX_FILE_SIZE)
    {E : Fault → Prop} : wp (dumpBlock inode j) s E fun lines s' => s' = s ∧
      lines = if (j : ℕ) < (inode.file_size.toNat + 63) / 64
        then [.dataBlock j ((s.view.block (inode.slot j).toNat).takeWhile (· ≠ 0))] else [] := by
  have hiff : inode.direct_blocks j ≠ -1 ↔ (j : ℕ) < (inode.file_size.toNat + 63) / 64 := by
    rw [hok.slot j]
    omega
  rw [dumpBlock, inode.slot_fin]
  by_cases hj : inode.direct_blocks j ≠ -1
  · rw [if_pos hj, if_pos (hiff.1 hj), wp_bind]
    obtain ⟨b, hb, -, hst⟩ := hok.block j hj
    rw [hb]
    refine wp_readDataBlock b.2 hst ?_
    rw [wp_bind]
    refine wp_upToNul (by simp) ⟨rfl, ?_⟩
    rw [takeWhile_append_nul, Int.toNat_natCast]
  · rw [if_neg hj, if_neg fun h => hj (hiff.2 h)]
    exact ⟨rfl, rfl⟩

/-- The elements below a bound. -/
theorem flatten_finRange {α : Type} {n m : ℕ} (hm : m ≤ n) (f : ℕ → α) :
    ((List.finRange n).map fun j : Fin n => if (j : ℕ) < m then [f j] else []).flatten =
      (List.range m).map f := by
  have hfin : (List.finRange n).map (fun j : Fin n => if (j : ℕ) < m then [f j] else []) =
      (List.range n).map fun j => if j < m then [f j] else [] := by
    rw [← List.map_coe_finRange_eq_range, List.map_map]
    rfl
  rw [hfin]
  obtain ⟨k, rfl⟩ := Nat.exists_eq_add_of_le hm
  rw [List.range_add, List.map_append, List.flatten_append]
  have hlow : ((List.range m).map fun j => if j < m then [f j] else []).flatten =
      (List.range m).map f := by
    rw [← List.flatMap_def, ← List.flatMap_singleton' ((List.range m).map f), List.flatMap_map]
    refine List.flatMap_congr fun j hj => ?_
    rw [if_pos (List.mem_range.1 hj)]
  rw [hlow, List.flatten_eq_nil_iff.2, List.append_nil]
  simp

theorem returns_dumpInode (hs : s.view.Ready) (hm : s.view.Marked) (ht : s.view.Terminated)
    {i : Fin NUM_INODES} (hok : s.view.InodeOk (s.view.inode i)) :
    Returns (dumpInode i) s (s.view.inodeLines i) s := by
  have huse : (s.view.inode i).status = charInt INODE_IN_USE ↔ s.view.InUse i := by
    rw [hm.status i]
    exact ⟨fun h => UInt8.toNat_inj.1 (by exact_mod_cast h), fun h => by rw [h]⟩
  refine .of_wp ?_
  simp only [dumpInode, wp_bind]
  refine wp_readInode hs i (wp_ite.2 ⟨fun hu => ?_, fun hu => ?_⟩)
  · obtain ⟨hnul, hname⟩ := (ht i).printed
    have hblocks :
        Returns ((List.finRange MAX_FILE_SIZE).mapM (dumpBlock (s.view.inode i))) s _ s :=
      .mapM fun j _ => .of_wp ((wp_dumpBlock hok j).imp fun _ _ h => h.symm)
    rw [wp_bind]
    refine wp_upToNul hnul ?_
    rw [wp_bind]
    refine hblocks.wp ⟨?_, rfl⟩
    have hsize : ((s.view.inode i).file_size.toNat + 63) / 64 ≤ MAX_FILE_SIZE := by
      have := hok.size_le
      simp only [MAX_FILE_SIZE]
      omega
    have hflat := flatten_finRange hsize fun j =>
      Line.dataBlock j ((s.view.block ((s.view.inode i).slot j).toNat).takeWhile (· ≠ 0))
    rw [View.inodeLines, if_pos (huse.1 hu), hname, hu, hflat]
    rfl
  · rw [View.inodeLines, if_neg fun h => hu (huse.2 h)]
    exact ⟨rfl, rfl⟩

/-- The dump of a disk in order. -/
theorem returns_dump (hw : s.view.Wf) (hm : s.view.Marked) (ht : s.view.Terminated) :
    Returns simplefs_dump s s.view.lines s := by
  refine .of_wp ?_
  simp only [simplefs_dump, wp_bind]
  refine wp_readSuperBlock (by have := hw.ready; unfold View.Ready at this; omega) ?_
  refine wp_upToNul (by simp) ?_
  have hinodes : Returns ((List.finRange NUM_INODES).mapM dumpInode) s _ s :=
    .mapM fun i _ => returns_dumpInode hw.ready hm ht (hw.ok i)
  exact hinodes.wp ⟨rfl, rfl⟩

end

/-! ## Reading it -/

/-- A file as a dump shows it. -/
structure Shown where
  name : List UInt8
  size : ℤ
  texts : List (List UInt8)

/-- The texts of the blocks that the next lines print. -/
def blockTexts : List Line → List (List UInt8)
  | .dataBlock _ text :: rest => text :: blockTexts rest
  | _ => []

/-- The files that a dump shows. -/
def shown : List Line → List Shown
  | [] => []
  | .inode _ _ name size _ :: rest => ⟨name, size, blockTexts rest⟩ :: shown rest
  | _ :: rest => shown rest

/-- What the file of a name holds, as far as the dump tells. -/
def readBack (out : List Line) (n : Name) : Option (List UInt8) :=
  ((shown out).find? fun f => f.name = n).map fun f => f.texts.flatten.take f.size.toNat

/-- The file of inode `i` as the dump shows it. -/
def View.show (v : View) (i : Fin NUM_INODES) : Shown where
  name := (v.inode i).cname
  size := (v.inode i).file_size
  texts := (List.range (((v.inode i).file_size.toNat + 63) / 64)).map fun j =>
    (v.block ((v.inode i).slot j).toNat).takeWhile (· ≠ 0)

section
variable {v : View}

/-- Lines that show no file do not matter. -/
theorem shown_map_dataBlock {α : Type} (l : List α) (j : α → ℕ) (t : α → List UInt8)
    (rest : List Line) :
    shown (l.map (fun a => .dataBlock (j a) (t a)) ++ rest) = shown rest ∧
      blockTexts (l.map (fun a => .dataBlock (j a) (t a)) ++ .blank :: rest) = l.map t := by
  induction l with
  | nil => exact ⟨rfl, rfl⟩
  | cons a l ih =>
    refine ⟨ih.1, ?_⟩
    simp only [List.map_cons, List.cons_append, blockTexts, ih.2]

theorem shown_inodeLines (i : Fin NUM_INODES) (rest : List Line) :
    shown (v.inodeLines i ++ rest) = (if v.InUse i then [v.show i] else []) ++ shown rest := by
  unfold View.inodeLines
  split
  · have h := shown_map_dataBlock (List.range (((v.inode i).file_size.toNat + 63) / 64)) id
      (fun j => (v.block ((v.inode i).slot j).toNat).takeWhile (· ≠ 0))
    simp only [List.cons_append, List.append_assoc, shown, View.blockLines, List.nil_append]
    exact congrArg₂ List.cons (congrArg _ (h rest).2) (h (.blank :: rest)).1
  · rfl

/-- The dump shows the files of the inodes in use. -/
theorem shown_lines : shown v.lines = ((List.finRange NUM_INODES).filter v.InUse).map v.show := by
  have key : ∀ l : List (Fin NUM_INODES),
      shown ((l.map v.inodeLines).flatten ++ [.endOfDump]) = (l.filter v.InUse).map v.show := by
    intro l
    induction l with
    | nil => rfl
    | cons i l ih =>
      rw [List.map_cons, List.flatten_cons, List.append_assoc, shown_inodeLines, ih,
        List.filter_cons]
      by_cases hi : v.InUse i
      · rw [if_pos hi, if_pos (by simpa using hi)]
        rfl
      · rw [if_neg hi, if_neg (by simpa using hi)]
        rfl
  exact key _

end

/-! ## Dumps and files -/

/-- The part of a file that its block `j` holds. -/
def chunk (c : List UInt8) (j : ℕ) : List UInt8 := (c.drop (64 * j)).take 64

/-- A file with the content `c`, as far as a dump can show it: each block that the file needs is
printed, from its start up to its first NUL. -/
structure Shown.Shows (f : Shown) (c : List UInt8) : Prop where
  size : f.size = c.length
  count : f.texts.length = (c.length + 63) / 64
  le : ∀ t ∈ f.texts, t.length ≤ 64
  text : ∀ (j : ℕ) (hj : j < f.texts.length),
    f.texts[j].take (chunk c j).length = (chunk c j).takeWhile (· ≠ 0)

/-- A block of a file starts with its part of the file. -/
theorem take_block (s : Sys) (inode : inode_t) (j : ℕ) :
    (s.view.block (inode.slot j).toNat).take (chunk (s.view.content inode) j).length =
      chunk (s.view.content inode) j := by
  have hlen := s.view.length_content inode
  have hblock := length_block s (inode.slot j).toNat
  have hchunk : (chunk (s.view.content inode) j).length =
      min 64 (inode.file_size.toNat - 64 * j) := by
    rw [chunk, List.length_take, List.length_drop, hlen]
  refine List.ext_getElem (by rw [List.length_take, hblock]; omega) fun k h₁ h₂ => ?_
  have hk : k < 64 := by omega
  have hdiv : (64 * j + k) / 64 = j := by omega
  have hmod : (64 * j + k) % 64 = k := by omega
  simp only [chunk, View.content, List.getElem_take, List.getElem_drop, List.getElem_map,
    List.getElem_range, View.byteAt, hdiv, hmod]
  rw [List.getD_eq_getElem _ 0 (by rw [hblock]; exact hk)]

theorem shows_show {s : Sys} {i : Fin NUM_INODES} (hok : s.view.InodeOk (s.view.inode i)) :
    (s.view.show i).Shows (s.view.content (s.view.inode i)) := by
  have hlen := s.view.length_content (s.view.inode i)
  have hsize := hok.size_nonneg
  refine ⟨?_, ?_, ?_, ?_⟩
  · rw [hlen]
    exact (Int.toNat_of_nonneg hsize).symm
  · simp only [View.show, List.length_map, List.length_range, hlen]
  · intro t ht
    obtain ⟨j, -, rfl⟩ := List.mem_map.1 ht
    exact (List.takeWhile_prefix _).length_le.trans (length_block s _).le
  · intro j hj
    simp only [View.show, List.length_map, List.length_range] at hj
    simp only [View.show, List.getElem_map, List.getElem_range]
    rw [List.take_takeWhile, take_block]

/-- A file without NUL is printed whole. -/
theorem Shown.Shows.flatten {f : Shown} {c : List UInt8} (h : f.Shows c) (hc : 0 ∉ c) :
    f.texts.flatten.take c.length = c := by
  obtain ⟨name, size, ts⟩ := f
  obtain ⟨-, hcount, hle, htext⟩ := h
  simp only at hcount hle htext ⊢
  clear name size
  induction ts generalizing c with
  | nil =>
    have hnil : c = [] := by
      rw [List.length_nil] at hcount
      exact List.length_eq_zero_iff.1 (by omega)
    rw [hnil]
    rfl
  | cons t ts ih =>
    have hchunk (j) : (chunk c j).takeWhile (· ≠ 0) = chunk c j := by
      refine List.takeWhile_eq_self_iff.2 fun x hx => ?_
      have : x ∈ c := List.mem_of_mem_drop (List.mem_of_mem_take hx)
      simpa using fun h : x = 0 => hc (h ▸ this)
    have hfirst := htext 0 (by simp)
    rw [hchunk] at hfirst
    simp only [chunk, List.getElem_cons_zero, mul_zero, List.drop_zero, List.length_take] at hfirst
    rw [List.length_cons] at hcount
    rw [List.flatten_cons, List.take_append]
    by_cases hlong : 64 < c.length
    · -- the first block is full
      have ht : t.length ≤ 64 := hle t List.mem_cons_self
      rw [min_eq_left hlong.le, List.take_of_length_le ht] at hfirst
      have ht' : t.length = 64 := by
        rw [hfirst, List.length_take]
        omega
      have hrest := ih (c := c.drop 64) (fun h => hc (List.mem_of_mem_drop h))
        (by rw [List.length_drop]; omega) (fun t' h => hle t' (List.mem_cons_of_mem _ h))
        fun j hj => by
          have := htext (j + 1) (by simpa using hj)
          simpa only [chunk, List.drop_drop, List.getElem_cons_succ, mul_add, mul_one,
            add_comm] using this
      rw [List.length_drop] at hrest
      rw [ht', List.take_of_length_le (by omega), hrest, hfirst, List.take_append_drop]
    · have hts : ts = [] := List.length_eq_zero_iff.1 (by omega)
      rw [min_eq_right (not_lt.1 hlong), List.take_of_length_le (l := c) (not_lt.1 hlong)] at hfirst
      rw [hts, List.flatten_nil, List.take_nil, List.append_nil, hfirst]

section
variable {s : Sys} {a : AbsFs}

theorem Abs.returns_dump (h : Abs s.view a) : Returns simplefs_dump s s.view.lines s :=
  Simplefs.returns_dump h.wf h.marked h.terminated

theorem mem_shown_lines {f : Shown} :
    f ∈ shown s.view.lines ↔ ∃ i, s.view.InUse i ∧ s.view.show i = f := by
  simp [shown_lines]

theorem Abs.nodup_shown (h : Abs s.view a) : ((shown s.view.lines).map Shown.name).Nodup := by
  rw [shown_lines, List.map_map]
  refine List.Nodup.map_on (fun i hi j hj hij => ?_) ((List.nodup_finRange _).filter _)
  have hi : s.view.InUse i := by simpa using (List.mem_filter.1 hi).2
  have hj : s.view.InUse j := by simpa using (List.mem_filter.1 hj).2
  exact h.unique hi hj hij

theorem Abs.mem_shown_iff (h : Abs s.view a) (n : Name) :
    n ∈ (shown s.view.lines).map Shown.name ↔ n ∈ a.live := by
  rw [h.live_eq, List.mem_map]
  constructor
  · rintro ⟨f, hf, rfl⟩
    obtain ⟨i, hi, rfl⟩ := mem_shown_lines.1 hf
    exact ⟨i, hi, rfl⟩
  · rintro ⟨i, hi, rfl⟩
    exact ⟨_, mem_shown_lines.2 ⟨i, hi, rfl⟩, rfl⟩

theorem Abs.shows (h : Abs s.view a) {f : Shown} (hf : f ∈ shown s.view.lines) :
    ∃ c, a.files f.name = some c ∧ f.Shows c.1 := by
  obtain ⟨i, hi, rfl⟩ := mem_shown_lines.1 hf
  obtain ⟨c, hc, he⟩ := h.files i hi
  exact ⟨c, hc, by rw [he]; exact shows_show (h.wf.ok i)⟩

/-- A file without NUL is read back from the dump, and a name that is not live is not found. -/
theorem Abs.readBack (h : Abs s.view a) {n : Name} (hn : ∀ c, a.files n = some c → 0 ∉ c.1) :
    readBack s.view.lines n = (a.files n).map (·.1) := by
  cases hfind : (shown s.view.lines).find? fun f => f.name = n with
  | none =>
    have hdead : a.files n = none := by
      by_contra hlive
      obtain ⟨f, hf, hname⟩ := List.mem_map.1 ((h.mem_shown_iff n).2 hlive)
      exact List.find?_eq_none.1 hfind f hf (by simpa using hname)
    rw [Simplefs.readBack, hfind, hdead]
    rfl
  | some f =>
    have hname : f.name = n := by simpa using List.find?_some hfind
    obtain ⟨c, hc, hshows⟩ := h.shows (List.mem_of_find?_eq_some hfind)
    rw [hname] at hc
    rw [Simplefs.readBack, hfind, hc, Option.map_some, Option.map_some, hshows.size,
      Int.toNat_natCast, hshows.flatten (hn c hc)]

end

/-- A run of a legal client ends in a state that stands for an abstract one. -/
theorem abs_of_run {tr : List (Op × Ret)} {s : Sys} (h : simplefs.Run tr s)
    (hlegal : absFs.Legal (fun a l => l.1.Pre a) tr) : ∃ a, absFs.Run tr a ∧ Abs s.view a := by
  refine h.simulate (fun s hs => ⟨.empty, rfl, abs_of_fresh (fresh_of_init hs)⟩) ?_ hlegal
  rintro s a ⟨op, r⟩ s' ha hop hs
  exact ha.step hop (step_view ha.wf (ha.handleOk hop) hs).1

/-- The first dump of `testcase3.c`, for another name. -/
example : ∃ s, Returns (do
      simplefs_formatDisk
      let _ ← simplefs_create nameA
      let fd ← simplefs_open nameA
      simplefs_close fd
      simplefs_dump) blankSys
    [.diskState, .diskName [115, 105, 109, 112, 108, 101, 102, 115],
      .inodeFreelist (INODE_IN_USE :: List.replicate 7 INODE_FREE),
      .dataBlockFreelist (List.replicate 30 DATA_BLOCK_FREE),
      .inode 0 INODE_IN_USE [97] 0 [-1, -1, -1, -1], .blank, .endOfDump] s ∧ True := by
  decide +kernel

end Simplefs

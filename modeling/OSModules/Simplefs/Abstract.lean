/-
  What simplefs is for: files are byte strings under names, and handles are positions in files.
  Nothing here is translated from the code.
-/
import OSModules.Simplefs.Names

namespace Simplefs

open CInt Runs

abbrev Name := List UInt8

/-- What a file holds: at most 256 bytes. -/
abbrev Content := { d : List UInt8 // d.length ≤ 256 }

/-- An entry of the table of handles. -/
inductive Entry
  | closed
  /-- Open on a file, at an offset. -/
  | on (name : Name) (offset : ℕ)
  /-- Still open, but its file was deleted. -/
  | orphan

/-- The file system: the live names with their files, and the handles. -/
structure AbsFs where
  files : Name → Option Content
  handles : Fin MAX_OPEN_FILES → Entry

namespace AbsFs

def empty : AbsFs := ⟨fun _ => none, fun _ => .closed⟩

/-- The live names. -/
def live (a : AbsFs) : Set Name := { n | a.files n ≠ none }

@[simps] def setFile (a : AbsFs) (n : Name) (c : Content) : AbsFs :=
  { a with files := Function.update a.files n (some c) }

@[simps] def setHandle (a : AbsFs) (h : Fin MAX_OPEN_FILES) (e : Entry) : AbsFs :=
  { a with handles := Function.update a.handles h e }

/-- The handles on a file that is deleted become orphans. -/
def orphan (n : Name) : Entry → Entry
  | .on m off => if m = n then .orphan else .on m off
  | e => e

@[simps] def remove (a : AbsFs) (n : Name) : AbsFs where
  files := Function.update a.files n none
  handles h := orphan n (a.handles h)

/-- What a call may do, and what it returns. -/
inductive Step (a : AbsFs) : Op → Ret → AbsFs → Prop
  | create {f i} : 0 ≤ i → a.live.ncard < NUM_INODES →
      Step a (.create f) ⟨i, []⟩ (a.setFile f.chars ⟨[], by decide⟩)
  | create_full {f} : a.live.ncard = NUM_INODES → Step a (.create f) ⟨-1, []⟩ a
  | delete {f} : Step a (.delete f) ⟨0, []⟩ (a.remove f.chars)
  | open_ {f} (h : Fin MAX_OPEN_FILES) : a.handles h = .closed →
      Step a (.open_ f) ⟨(h : ℕ), []⟩ (a.setHandle h (.on f.chars 0))
  | open_full {f} : (∀ h, a.handles h ≠ .closed) → Step a (.open_ f) ⟨-1, []⟩ a
  | close (h : Fin MAX_OPEN_FILES) : Step a (.close (h : ℕ)) ⟨0, []⟩ (a.setHandle h .closed)
  | read {n : ℤ} {name off c} (h : Fin MAX_OPEN_FILES) : a.handles h = .on name off →
      a.files name = some c → off + n ≤ c.1.length →
      Step a (.read (h : ℕ) n) ⟨0, (c.1.drop off).take n.toNat⟩ a
  | read_past {n : ℤ} {name off c} (h : Fin MAX_OPEN_FILES) : a.handles h = .on name off →
      a.files name = some c → c.1.length < off + n → Step a (.read (h : ℕ) n) ⟨-1, []⟩ a
  | write {buf n name off c} (h : Fin MAX_OPEN_FILES) : a.handles h = .on name off →
      a.files name = some c → ∀ hlen : (c.1 ++ (List.range n.toNat).map buf).length ≤ 256,
      Step a (.write (h : ℕ) buf n) ⟨0, []⟩ (a.setFile name ⟨_, hlen⟩)
  | write_fail {buf n} (h : Fin MAX_OPEN_FILES) : 0 < n → Step a (.write (h : ℕ) buf n) ⟨-1, []⟩ a
  | seek {n : ℤ} {name off off' c} (h : Fin MAX_OPEN_FILES) : a.handles h = .on name off →
      a.files name = some c → off + n = (off' : ℕ) → off' ≤ c.1.length →
      Step a (.seek (h : ℕ) n) ⟨0, []⟩ (a.setHandle h (.on name off'))
  | seek_out {n : ℤ} {name off c} (h : Fin MAX_OPEN_FILES) : a.handles h = .on name off →
      a.files name = some c → off + n < 0 ∨ c.1.length < off + n →
      Step a (.seek (h : ℕ) n) ⟨-1, []⟩ a

end AbsFs

/-- What a client may call: it creates only names that are not live, opens and deletes only live
names, uses only handles whose file is still there, and writes only at the end of the file. -/
def Op.Pre (a : AbsFs) : Op → Prop
  | .create f => f.Short ∧ a.files f.chars = none
  | .delete f | .open_ f => f.Short ∧ a.files f.chars ≠ none
  | .close h => ∃ (g : Fin MAX_OPEN_FILES) (name : Name) (off : ℕ),
      h = (g : ℕ) ∧ a.handles g = .on name off
  | .read h n => ∃ (g : Fin MAX_OPEN_FILES) (name : Name) (off : ℕ),
      h = (g : ℕ) ∧ a.handles g = .on name off ∧ 0 ≤ n ∧ InInt (off + n)
  | .write h _ n => ∃ (g : Fin MAX_OPEN_FILES) (name : Name) (off : ℕ) (c : Content),
      h = (g : ℕ) ∧ a.handles g = .on name off ∧ a.files name = some c ∧ off = c.1.length ∧
        0 ≤ n ∧ InInt (off + n)
  | .seek h n => ∃ (g : Fin MAX_OPEN_FILES) (name : Name) (off : ℕ),
      h = (g : ℕ) ∧ a.handles g = .on name off ∧ InInt n

/-- The runs of the file system. -/
def absFs : LTS AbsFs (Op × Ret) where
  init a := a = .empty
  step a l a' := AbsFs.Step a l.1 l.2 a'

end Simplefs

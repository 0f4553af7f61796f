import Xv6.Dir.Names

/-!
# Directories as lists of entries

A directory is a sequence of `struct dirent`; an entry with inode number 0 is free.  These are the
searches of `dirlookup` and `dirlink` and the change of one entry, on such lists.
-/

namespace Xv6

/-- `struct dirent`. -/
structure Dirent where
  inum : ℕ -- `ushort`
  name : Name
  deriving DecidableEq

namespace Dirent

/-- `memset(&de, 0, sizeof(de))`. -/
def zero : Dirent := ⟨0, fun _ => 0⟩

end Dirent

/-- The entries of a directory. -/
abbrev Slots := List Dirent

namespace Slots

/-- The entry is in use and has this name. -/
def Matches (n : Name) (e : Dirent) : Prop := e.inum ≠ 0 ∧ e.name = n

instance (n : Name) (e : Dirent) : Decidable (Matches n e) := by
  unfold Matches
  infer_instance

/-- The index of the entry with a name. -/
def index (d : Slots) (n : Name) : Option ℕ := d.findIdx? fun e => Matches n e

/-- The inode number under a name. -/
def lookup (d : Slots) (n : Name) : Option ℕ := (d.find? fun e => Matches n e).map Dirent.inum

/-- The index of the first free entry, or the length. -/
def room (d : Slots) : ℕ := d.findIdx fun e => e.inum = 0

/-- Entry `k` is written; at the end it is appended. -/
def put (d : Slots) (k : ℕ) (e : Dirent) : Slots := if k < d.length then d.set k e else d ++ [e]

/-- A new entry, at the first free place; the inode number is stored as a `ushort`. -/
def link (d : Slots) (n : Name) (inum : ℕ) : Slots := d.put d.room ⟨inum % 2 ^ 16, n⟩

end Slots
end Xv6

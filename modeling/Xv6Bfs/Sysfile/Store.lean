import Xv6Bfs.Sysfile.Calls
import Mathlib.Logic.Function.Basic
import Mathlib.Algebra.BigOperators.Group.Finset.Basic

namespace Xv6Bfs.Sysfile

open Lib.Execution Disk Fs Function

/-- A directory entry. It is empty if `inum` is 0. -/
structure Dirent where
  inum : ℕ
  name : Name
  deriving DecidableEq

/-- An inode on the disk, with the entries of a directory. -/
structure Ino extends Attrs where
  entries : List Dirent
  deriving DecidableEq

/-- The inodes by their numbers on a disk of `size` blocks, and the inode cache: how many references
there are to each inode, whether it has been read and whether it is locked. -/
structure Store where
  size : ℕ
  ninodes : ℕ
  ino : ℕ → Ino
  ref : ℕ → ℕ
  valid : ℕ → Bool
  locked : ℕ → Bool

def lookup (l : List Dirent) (name : Name) : Option ℕ :=
  l.findIdx? fun de ↦ de.inum ≠ 0 ∧ namecmp name.1 de.name.1 = 0

def addEntry (l : List Dirent) (de : Dirent) : List Dirent :=
  match l.findIdx? fun de ↦ de.inum = 0 with
  | some e => l.set e de
  | none => l ++ [de]

def emptyEntry : Dirent := ⟨0, ⟨[], by decide⟩⟩

namespace Store

def used (s : Store) : ℕ := ∑ i ∈ Finset.range s.ninodes, DIRENT * (s.ino i).entries.length

def setIno (s : Store) (i : ℕ) (v : Ino) : Store := { s with ino := update s.ino i v }

def iget (inum : ℕ) (s : Store) : Except Panic (ℕ × Store) :=
  .ok (inum, { s with
    ref := update s.ref inum (s.ref inum + 1)
    valid := if s.ref inum = 0 then update s.valid inum false else s.valid })

def ialloc (type : ℕ) (s : Store) : Except Panic (ℕ × Store) :=
  match (List.range' 1 (s.ninodes - 1)).find? fun inum ↦ (s.ino inum).type = 0 with
  | some inum => (s.setIno inum ⟨⟨type, 0, 0, 0⟩, []⟩).iget inum
  | none => .error .iallocNoInodes

def idup (ip : ℕ) (s : Store) : Store := { s with ref := update s.ref ip (s.ref ip + 1) }

def ilock (ip : ℕ) (s : Store) : Except Panic Store :=
  if s.ref ip < 1 then .error .ilock
  else if s.locked ip then .error .sleeps
  else if s.valid ip then .ok { s with locked := update s.locked ip true }
  else if (s.ino ip).type = 0 then .error .ilockNoType
  else .ok { s with locked := update s.locked ip true, valid := update s.valid ip true }

def iunlock (ip : ℕ) (s : Store) : Except Panic Store :=
  if s.locked ip = false ∨ s.ref ip < 1 then .error .iunlock
  else .ok { s with locked := update s.locked ip false }

def iput (ip : ℕ) (s : Store) : Except Panic Store :=
  if s.locked ip then .error .sleeps
  else
    let s :=
      if s.valid ip ∧ (s.ino ip).nlink = 0 ∧ s.ref ip = 1 then
        { s.setIno ip { s.ino ip with type := 0, entries := [] } with valid := update s.valid ip false }
      else s
    .ok { s with ref := update s.ref ip (s.ref ip - 1) }

def setAttrs (ip : ℕ) (attrs : Attrs) (s : Store) : Store :=
  s.setIno ip { s.ino ip with toAttrs := attrs }

def dirlookup (dp : ℕ) (name : Name) (s : Store) : Except Panic (Option (ℕ × ℕ) × Store) :=
  if (s.ino dp).type ≠ T_DIR then .error .dirlookupNotDir
  else match lookup (s.ino dp).entries name with
    | none => .ok (none, s)
    | some e => do
      let (ip, s) ← s.iget ((s.ino dp).entries.getD e emptyEntry).inum
      .ok (some (ip, DIRENT * e), s)

/-- `writei` fails if the directory gets too long, and `balloc` does so at the latest when the
directories fill the disk. -/
def dirlink (dp : ℕ) (name : Name) (inum : ℕ) (s : Store) : Except Panic (ℤ × Store) := do
  let (ip, s) ← s.dirlookup dp name
  match ip with
  | some (ip, _) =>
    let s ← s.iput ip
    .ok (-1, s)
  | none =>
    let v := { s.ino dp with entries := addEntry (s.ino dp).entries ⟨inum % 2 ^ 16, name⟩ }
    if MAXFILE * BSIZE < DIRENT * v.entries.length then .error .dirlink
    else if s.size * BSIZE < (s.setIno dp v).used then .error .ballocOutOfBlocks
    else .ok (0, s.setIno dp v)

def isdirempty (dp : ℕ) (s : Store) : Except Panic (Bool × Store) :=
  .ok (((s.ino dp).entries.drop 2).all (·.inum = 0), s)

def clear (dp off : ℕ) (s : Store) : Except Panic Store :=
  .ok (s.setIno dp { s.ino dp with entries := (s.ino dp).entries.set (off / DIRENT) emptyEntry })

end Store

def store : Inodes ℕ Store where
  inum := fun ip _ ↦ ip
  attrs := fun ip s ↦ (s.ino ip).toAttrs
  iget := Store.iget
  ialloc := Store.ialloc
  idup := Store.idup
  ilock := Store.ilock
  iunlock := Store.iunlock
  iput := Store.iput
  setAttrs := Store.setAttrs
  dirlookup := Store.dirlookup
  dirlink := Store.dirlink
  isdirempty := Store.isdirempty
  clear := Store.clear

def NINODES : ℕ := 200

/-- The entries of the root directory that `mkfs` makes, for files with the given names. The size of
the directory is rounded up to whole blocks. -/
def rootEntries (files : List Name) : List Dirent :=
  let l := ⟨ROOTINO, dot⟩ :: ⟨ROOTINO, dotdot⟩ :: files.mapIdx fun k name ↦ ⟨k + 2, name⟩
  l ++ List.replicate (((l.length * DIRENT / 512 + 1) * 512) / DIRENT - l.length) emptyEntry

def mkfs (files : List Name) (i : ℕ) : Ino :=
  if i = ROOTINO then ⟨⟨T_DIR, 0, 0, 1⟩, rootEntries files⟩
  else if ROOTINO < i ∧ i < files.length + 2 then ⟨⟨T_FILE, 0, 0, 1⟩, []⟩
  else ⟨⟨0, 0, 0, 0⟩, []⟩

/-- After `namei("/")` in `userinit`, there is a reference to the root directory. -/
def mounted (files : List Name) : Store where
  size := FSSIZE
  ninodes := NINODES
  ino := mkfs files
  ref := update (fun _ ↦ 0) ROOTINO 1
  valid _ := false
  locked _ := false

end Xv6Bfs.Sysfile

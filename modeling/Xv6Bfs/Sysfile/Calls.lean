import Xv6Bfs.Fs.Directory
import Xv6Bfs.Param

namespace Xv6Bfs.Sysfile

open Lib.Execution Fs

def ROOTINO : ℕ := 1

/-- A string. -/
abbrev Path := { l : List UInt8 // 0 ∉ l }

/-- The name of a directory entry, up to the first zero. -/
abbrev Name := { l : List UInt8 // 0 ∉ l ∧ l.length ≤ DIRSIZ }

def dot : Name := ⟨[46], by decide⟩

def dotdot : Name := ⟨[46, 46], by decide⟩

def isSlash (c : UInt8) : Bool := c == 47

def skipelem (path : Path) : Option (Name × Path) :=
  let s := path.1.dropWhile isSlash
  if s = [] then none
  else some (⟨(s.takeWhile (!isSlash ·)).take DIRSIZ, fun h ↦ path.2
      ((List.dropWhile_sublist _).subset ((List.takeWhile_sublist _).subset (List.mem_of_mem_take h))),
      List.length_take_le _ _⟩,
    ⟨(s.dropWhile (!isSlash ·)).dropWhile isSlash, fun h ↦ path.2
      ((List.dropWhile_sublist _).subset ((List.dropWhile_sublist _).subset
        ((List.dropWhile_sublist _).subset h)))⟩)

/-- The fields of an inode that `sysfile.c` uses. -/
structure Attrs where
  type : ℕ
  major : ℕ
  minor : ℕ
  nlink : ℕ
  deriving DecidableEq, Repr

/-- The functions of `fs.c` on inodes and directories, with handles `H` for the inodes in memory.
`setAttrs` is an assignment to fields with its `iupdate`, and `clear` writes an empty entry. -/
structure Inodes (H S : Type) where
  inum : H → S → ℕ
  attrs : H → S → Attrs
  iget : ℕ → S → Except Panic (H × S)
  ialloc : ℕ → S → Except Panic (H × S)
  idup : H → S → S
  ilock : H → S → Except Panic S
  iunlock : H → S → Except Panic S
  iput : H → S → Except Panic S
  setAttrs : H → Attrs → S → S
  dirlookup : H → Name → S → Except Panic (Option (H × ℕ) × S)
  dirlink : H → Name → ℕ → S → Except Panic (ℤ × S)
  isdirempty : H → S → Except Panic (Bool × S)
  clear : H → ℕ → S → Except Panic S

section

variable {H S : Type} (I : Inodes H S)

def iunlockput (ip : H) (s : S) : Except Panic S := do
  let s ← I.iunlock ip s
  I.iput ip s

def incNlink (ip : H) (s : S) : S :=
  I.setAttrs ip { I.attrs ip s with nlink := ((I.attrs ip s).nlink + 1) % 2 ^ 16 } s

def decNlink (ip : H) (s : S) : S :=
  I.setAttrs ip { I.attrs ip s with nlink := ((I.attrs ip s).nlink + (2 ^ 16 - 1)) % 2 ^ 16 } s

/-- The loop of `namex`. The path gets shorter in every round. -/
def namexLoop (parent : Bool) : ℕ → Path → Name → H → S → Except Panic (Option (H × Name) × S)
  | 0, _, _, _, _ => .error .disabled
  | fuel + 1, path, name, ip, s =>
    match skipelem path with
    | none =>
      if parent then do
        let s ← I.iput ip s
        .ok (none, s)
      else .ok (some (ip, name), s)
    | some (name, path) => do
      let s ← I.ilock ip s
      if (I.attrs ip s).type ≠ T_DIR then do
        let s ← iunlockput I ip s
        .ok (none, s)
      else if parent ∧ path.1 = [] then do
        let s ← I.iunlock ip s
        .ok (some (ip, name), s)
      else do
        let (next, s) ← I.dirlookup ip name s
        let s ← iunlockput I ip s
        match next with
        | none => .ok (none, s)
        | some (next, _) => namexLoop parent fuel path name next s

def namex (cwd : H) (path : Path) (parent : Bool) (s : S) : Except Panic (Option (H × Name) × S) := do
  let (ip, s) ← if path.1.head? = some 47 then I.iget ROOTINO s else .ok (cwd, I.idup cwd s)
  namexLoop I parent (path.1.length + 1) path dot ip s

def namei (cwd : H) (path : Path) (s : S) : Except Panic (Option (H × Name) × S) := namex I cwd path false s

def nameiparent (cwd : H) (path : Path) (s : S) : Except Panic (Option (H × Name) × S) :=
  namex I cwd path true s

def linkBad (ip : H) (s : S) : Except Panic (ℤ × S) := do
  let s ← I.ilock ip s
  let s ← iunlockput I ip (decNlink I ip s)
  .ok (-1, s)

def linkEntry (cwd ip : H) (new : Path) (s : S) : Except Panic (ℤ × S) := do
  let (r, s) ← nameiparent I cwd new s
  match r with
  | none => linkBad I ip s
  | some (dp, name) =>
    let s ← I.ilock dp s
    let (r, s) ← I.dirlink dp name (I.inum ip s) s
    let s ← iunlockput I dp s
    if r < 0 then linkBad I ip s
    else do
      let s ← I.iput ip s
      .ok (0, s)

def link (cwd : H) (old new : Path) (s : S) : Except Panic (ℤ × S) := do
  let (r, s) ← namei I cwd old s
  match r with
  | none => .ok (-1, s)
  | some (ip, _) =>
    let s ← I.ilock ip s
    if (I.attrs ip s).type = T_DIR then do
      let s ← iunlockput I ip s
      .ok (-1, s)
    else do
      let s ← I.iunlock ip (incNlink I ip s)
      linkEntry I cwd ip new s

def unlinkBad (dp : H) (s : S) : Except Panic (ℤ × S) := do
  let s ← iunlockput I dp s
  .ok (-1, s)

/-- The part of `sys_unlink` that removes the entry at `off` of `dp`, for the inode `ip`. -/
def unlinkEntry (dp : H) (off : ℕ) (ip : H) (s : S) : Except Panic (ℤ × S) := do
  let s ← I.clear dp off s
  let s ← iunlockput I dp (if (I.attrs ip s).type = T_DIR then decNlink I dp s else s)
  let s ← iunlockput I ip (decNlink I ip s)
  .ok (0, s)

/-- `nlink` is a `short`. -/
def unlink (cwd : H) (path : Path) (s : S) : Except Panic (ℤ × S) := do
  let (r, s) ← nameiparent I cwd path s
  match r with
  | none => .ok (-1, s)
  | some (dp, name) =>
    let s ← I.ilock dp s
    if namecmp name.1 dot.1 = 0 ∨ namecmp name.1 dotdot.1 = 0 then unlinkBad I dp s
    else do
      let (r, s) ← I.dirlookup dp name s
      match r with
      | none => unlinkBad I dp s
      | some (ip, off) =>
        let s ← I.ilock ip s
        if (I.attrs ip s).nlink = 0 ∨ (I.attrs ip s).nlink ≥ 2 ^ 15 then .error .unlinkNlink
        else if (I.attrs ip s).type = T_DIR then do
          let (empty, s) ← I.isdirempty ip s
          if empty then unlinkEntry I dp off ip s
          else do
            let s ← iunlockput I ip s
            unlinkBad I dp s
        else unlinkEntry I dp off ip s

def createDots (dp ip : H) (s : S) : Except Panic S := do
  let s := incNlink I dp s
  let (r, s) ← I.dirlink ip dot (I.inum ip s) s
  if r < 0 then .error .createDots
  else do
    let (r, s) ← I.dirlink ip dotdot (I.inum dp s) s
    if r < 0 then .error .createDots else .ok s

def createEntry (dp : H) (name : Name) (ip : H) (s : S) : Except Panic (H × S) := do
  let (r, s) ← I.dirlink dp name (I.inum ip s) s
  if r < 0 then .error .createDirlink
  else do
    let s ← iunlockput I dp s
    .ok (ip, s)

def createNew (dp : H) (name : Name) (type major minor : ℕ) (s : S) : Except Panic (H × S) := do
  let (ip, s) ← I.ialloc type s
  let s ← I.ilock ip s
  let s := I.setAttrs ip ⟨(I.attrs ip s).type, major % 2 ^ 16, minor % 2 ^ 16, 1⟩ s
  let s ← if type = T_DIR then createDots I dp ip s else .ok s
  createEntry I dp name ip s

def create (cwd : H) (path : Path) (type major minor : ℕ) (s : S) : Except Panic (Option H × S) := do
  let (r, s) ← nameiparent I cwd path s
  match r with
  | none => .ok (none, s)
  | some (dp, name) =>
    let s ← I.ilock dp s
    let (r, s) ← I.dirlookup dp name s
    match r with
    | some (ip, _) =>
      let s ← iunlockput I dp s
      let s ← I.ilock ip s
      if type = T_FILE ∧ (I.attrs ip s).type = T_FILE then .ok (some ip, s)
      else do
        let s ← iunlockput I ip s
        .ok (none, s)
    | none => do
      let (ip, s) ← createNew I dp name type major minor s
      .ok (some ip, s)

def make (cwd : H) (path : Path) (type major minor : ℕ) (s : S) : Except Panic (ℤ × S) := do
  let (r, s) ← create I cwd path type major minor s
  match r with
  | none => .ok (-1, s)
  | some ip => do
    let s ← iunlockput I ip s
    .ok (0, s)

/-- The part of `sys_open` that finds the inode. It is locked. -/
def openInode (cwd : H) (path : Path) (omode : ℕ) (s : S) : Except Panic (Option H × S) :=
  if omode &&& O_CREATE ≠ 0 then create I cwd path T_FILE 0 0 s
  else do
    let (r, s) ← namei I cwd path s
    match r with
    | none => .ok (none, s)
    | some (ip, _) =>
      let s ← I.ilock ip s
      if (I.attrs ip s).type = T_DIR ∧ omode ≠ O_RDONLY then do
        let s ← iunlockput I ip s
        .ok (none, s)
      else .ok (some ip, s)

def chdirInode (cwd : H) (path : Path) (s : S) : Except Panic (Option H × S) := do
  let (r, s) ← namei I cwd path s
  match r with
  | none => .ok (none, s)
  | some (ip, _) =>
    let s ← I.ilock ip s
    if (I.attrs ip s).type ≠ T_DIR then do
      let s ← iunlockput I ip s
      .ok (none, s)
    else do
      let s ← I.iunlock ip s
      .ok (some ip, s)

/-- What `exec` does with the inodes. The file is read while the inode is locked. -/
def execInode (cwd : H) (path : Path) (s : S) : Except Panic S := do
  let (r, s) ← namei I cwd path s
  match r with
  | none => .ok s
  | some (ip, _) =>
    let s ← I.ilock ip s
    iunlockput I ip s

end

end Xv6Bfs.Sysfile

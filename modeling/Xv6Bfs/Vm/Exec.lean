import Xv6Bfs.Vm.Sbrk
import Xv6Bfs.Vm.KernelMap

namespace Xv6Bfs.Vm

open Lib.Execution Lib.Bytes

def MAXARG : ℕ := 32

def ELF_MAGIC : ℕ := 0x464C457F

def ELF_PROG_LOAD : ℕ := 1

def field (l : List UInt8) (off w : ℕ) : ℕ := fromBytes ((l.drop off).take w)

/-- The fields of `struct elfhdr` that `exec` reads. -/
structure Elfhdr where
  magic : ℕ
  entry : ℕ
  phoff : ℕ
  phnum : ℕ
  deriving DecidableEq, Repr

def sizeofElfhdr : ℕ := 52

def elfhdr (l : List UInt8) : Elfhdr := ⟨field l 0 4, field l 24 4, field l 28 4, field l 44 2⟩

/-- The fields of `struct proghdr` that `exec` reads. -/
structure Proghdr where
  type : ℕ
  off : ℕ
  vaddr : ℕ
  filesz : ℕ
  memsz : ℕ
  deriving DecidableEq, Repr

def sizeofProghdr : ℕ := 32

def proghdr (l : List UInt8) : Proghdr :=
  ⟨field l 0 4, field l 4 4, field l 8 4, field l 16 4, field l 20 4⟩

structure Image where
  entry : ℕ
  sz : ℕ
  pgdir : Pgdir

/-- The stack pointer before some bytes are pushed, their number, and the one passed to `copyout`. -/
structure Push where
  sp : ℕ
  n : ℕ
  va : ℕ
  deriving DecidableEq, Repr

def Push.Wraps (c : Push) : Prop := c.sp < c.n

/-- The state of the argument loop of `exec`: `ustack` holds the entries from 3 on, one for each
argument, and `pushes` the history of the calls of `copyout`. -/
structure Stack where
  sp : ℕ
  ustack : List ℕ
  mem : Mem
  pushes : List Push

def Stack.argc (st : Stack) : ℕ := st.ustack.length

/-- The fields of `struct proc` that `exec` writes. -/
structure Task extends Proc where
  name : List UInt8
  eip : ℕ
  esp : ℕ

section

variable (M : Machine)

/-- The loop over the program headers, of which `n` remain. The size is `none` for `goto bad`. -/
def loadSegments (ip : Inode) : (n off sz : ℕ) → Pgdir → Mem →
    Except Panic (Option ℕ × Pgdir × Mem)
  | 0, _, sz, pgdir, m => .ok (some sz, pgdir, m)
  | n + 1, off, sz, pgdir, m =>
    let l := ip.readi off sizeofProghdr
    if l.length ≠ sizeofProghdr then .ok (none, pgdir, m)
    else
      let ph := proghdr l
      let next := (off + sizeofProghdr) % 2 ^ 32
      if ph.type ≠ ELF_PROG_LOAD then loadSegments ip n next sz pgdir m
      else if ph.memsz < ph.filesz then .ok (none, pgdir, m)
      else if (ph.vaddr + ph.memsz) % 2 ^ 32 < ph.vaddr then .ok (none, pgdir, m)
      else do
        let (sz, pgdir, m) ← pgdir.allocuvm M sz ((ph.vaddr + ph.memsz) % 2 ^ 32) m
        if sz = 0 then .ok (none, pgdir, m)
        else if ph.vaddr % PGSIZE ≠ 0 then .ok (none, pgdir, m)
        else do
          let (loaded, m) ← pgdir.loaduvm ph.vaddr ip ph.off ph.filesz m
          if loaded then loadSegments ip n next sz pgdir m else .ok (none, pgdir, m)

def bad {α : Type} (pgdir : Pgdir) (m : Mem) : Except Panic (Option α × Mem) := do
  let m ← pgdir.freevm M m
  .ok (none, m)

/-- `exec` up to the stack: the program is loaded, and there are a guard page and a stack page. -/
def loadImage (data : ℕ) (ip : Inode) (m : Mem) : Except Panic (Option Image × Mem) :=
  let l := ip.readi 0 sizeofElfhdr
  if l.length ≠ sizeofElfhdr then .ok (none, m)
  else
    let elf := elfhdr l
    if elf.magic ≠ ELF_MAGIC then .ok (none, m)
    else do
      let (pgdir, m) ← Pgdir.setupkvm M data m
      match pgdir with
      | none => .ok (none, m)
      | some pgdir => do
        let (sz, pgdir, m) ← loadSegments M ip elf.phnum elf.phoff 0 pgdir m
        match sz with
        | none => bad M pgdir m
        | some sz => do
          let sz := PGROUNDUP sz
          let (sz, pgdir, m) ← pgdir.allocuvm M sz ((sz + 2 * PGSIZE) % 2 ^ 32) m
          if sz = 0 then bad M pgdir m
          else do
            let pgdir ← pgdir.clearpteu (sub32 sz (2 * PGSIZE))
            .ok (some ⟨elf.entry, sz, pgdir⟩, m)

end

section

variable (pgdir : Pgdir)

/-- `copyout` of the bytes to the new stack pointer. The result is `false` for `goto bad`. -/
def Stack.push (st : Stack) (n va : ℕ) (l : List UInt8) : Except Panic (Bool × Stack) := do
  let (copied, m) ← pgdir.copyout va l st.mem
  .ok (copied, { st with sp := va, mem := m, pushes := st.pushes ++ [⟨st.sp, n, va⟩] })

/-- The loop that pushes the argument strings, which stand here without their null byte. -/
def pushArgs : List (List UInt8) → Stack → Except Panic (Bool × Stack)
  | [], st => .ok (true, st)
  | s :: argv, st =>
    if st.argc ≥ MAXARG then .ok (false, st)
    else do
      let sp := sub32 st.sp (s.length + 1) / 4 * 4
      let (copied, st) ← st.push pgdir (s.length + 1) sp (s ++ [0])
      if copied then pushArgs argv { st with ustack := st.ustack ++ [sp] } else .ok (false, st)

/-- The words of `ustack`: a return address, `argc`, `argv` and the argument pointers. -/
def Stack.frame (st : Stack) : List ℕ :=
  [0xffffffff, st.argc, sub32 st.sp ((st.argc + 1) * 4)] ++ st.ustack ++ [0]

def pushStack (sz : ℕ) (argv : List (List UInt8)) (m : Mem) : Except Panic (Bool × Stack) := do
  let (pushed, st) ← pushArgs pgdir argv ⟨sz, [], m, []⟩
  if pushed then
    let n := (3 + st.argc + 1) * 4
    st.push pgdir n (sub32 st.sp n) (st.frame.flatMap (toBytes 4))
  else .ok (false, st)

end

def lastName : (last s : List UInt8) → List UInt8
  | last, [] => last
  | last, c :: s => lastName (if c = 47 then s else last) s

/-- `exec`, where `namei` gives the file of the path. -/
def exec (M : Machine) (data : ℕ) (namei : List UInt8 → Option Inode) (path : List UInt8)
    (argv : List (List UInt8)) (t : Task) (m : Mem) : Except Panic (ℤ × Task × Mem) :=
  match namei path with
  | none => .ok (-1, t, m)
  | some ip => do
    let (img, m) ← loadImage M data ip m
    match img with
    | none => .ok (-1, t, m)
    | some img => do
      let (pushed, st) ← pushStack img.pgdir img.sz argv m
      if pushed then do
        let m ← t.pgdir.freevm M st.mem
        .ok (0, ⟨⟨img.sz, img.pgdir⟩, (lastName path path).take 15, img.entry, st.sp⟩, m)
      else do
        let m ← img.pgdir.freevm M st.mem
        .ok (-1, t, m)

end Xv6Bfs.Vm

import Xv6Bfs.Files.Table

namespace Xv6Bfs.Files

open Lib.Execution Fs Sysfile Function

/-- `live` stands for the states between `UNUSED` and `ZOMBIE`. -/
inductive ProcState
  | UNUSED
  | live
  | ZOMBIE
  deriving DecidableEq, Repr

/-- The fields of `struct proc` for the files. -/
structure Proc (H : Type) where
  state : ProcState
  parent : Option (Fin NPROC)
  ofile : Fin NOFILE → Option (Fin NFILE)
  cwd : Option H

structure System (H Q S : Type) where
  tab : Table H Q S
  proc : Fin NPROC → Proc H

/-- A system call. The answers of `kalloc`, directly or through `vm.c`, are arguments. What `exec` does
with the memory is not part of the system. -/
inductive Call (Q : Type)
  | open (path : Path) (omode : ℕ)
  | mkdir (path : Path)
  | mknod (path : Path) (major minor : ℕ)
  | link (old new : Path)
  | unlink (path : Path)
  | chdir (path : Path)
  | exec (path : Path)
  | close (fd : Fin NOFILE)
  | dup (fd : Fin NOFILE)
  | pipe (page : Option Q)
  | nicefork (kstack copyuvm : Bool)
  | exit
  | wait

namespace System

variable {H Q S : Type}

def setProc (p : Fin NPROC) (v : Proc H) (t : System H Q S) : System H Q S :=
  { t with proc := update t.proc p v }

def setFd (p : Fin NPROC) (fd : Fin NOFILE) (f : Option (Fin NFILE)) (t : System H Q S) : System H Q S :=
  t.setProc p { t.proc p with ofile := update (t.proc p).ofile fd f }

def fdalloc (p : Fin NPROC) (f : Fin NFILE) (t : System H Q S) : Option (Fin NOFILE × System H Q S) :=
  ((List.finRange NOFILE).find? fun fd ↦ (t.proc p).ofile fd = none).map fun fd ↦
    (fd, t.setFd p fd (some f))

def onTab {R : Type} (x : Table H Q S → Except Error (R × Table H Q S)) (t : System H Q S) :
    Except Error (R × System H Q S) := do
  let (r, tab) ← x t.tab
  .ok (r, { t with tab := tab })

def runTab (x : Table H Q S → Except Error (Table H Q S)) (t : System H Q S) :
    Except Error (System H Q S) := do
  let tab ← x t.tab
  .ok { t with tab := tab }

variable [DecidableEq Q] (I : Inodes H S) (p : Fin NPROC)

/-- The end of `sys_open`, for the inode `ip` that is locked. -/
def openFile (ip : H) (omode : ℕ) (t : System H Q S) : Except Error (System H Q S) :=
  match t.tab.filealloc with
  | none => t.runTab (·.runFs (iunlockput I ip))
  | some (f, tab) =>
    match { t with tab := tab }.fdalloc p f with
    | none => do
      let t ← { t with tab := tab }.runTab (·.fileclose I f)
      t.runTab (·.runFs (iunlockput I ip))
    | some (_, t) => do
      let t ← t.runTab (·.runFs (I.iunlock ip))
      .ok { t with tab := t.tab.setFile f { t.tab.file f with
        type := .FD_INODE
        ip := some ip
        readable := omode &&& O_WRONLY = 0
        writable := omode &&& O_WRONLY ≠ 0 ∨ omode &&& O_RDWR ≠ 0 } }

def open_ (cwd : H) (path : Path) (omode : ℕ) (t : System H Q S) : Except Error (System H Q S) := do
  let (r, t) ← t.onTab (·.onFs (openInode I cwd path omode))
  match r with
  | none => .ok t
  | some ip => t.openFile I p ip omode

def chdir (cwd : H) (path : Path) (t : System H Q S) : Except Error (System H Q S) := do
  let (r, t) ← t.onTab (·.onFs (chdirInode I cwd path))
  match r with
  | none => .ok t
  | some ip => do
    let t ← t.runTab (·.runFs (I.iput cwd))
    .ok (t.setProc p { t.proc p with cwd := some ip })

def close (fd : Fin NOFILE) (t : System H Q S) : Except Error (System H Q S) :=
  match (t.proc p).ofile fd with
  | none => .ok t
  | some f => (t.setFd p fd none).runTab (·.fileclose I f)

def dup (fd : Fin NOFILE) (t : System H Q S) : Except Error (System H Q S) :=
  match (t.proc p).ofile fd with
  | none => .ok t
  | some f =>
    match t.fdalloc p f with
    | none => .ok t
    | some (_, t) => t.runTab (·.filedup f)

def pipeBad (rf wf : Fin NFILE) (t : System H Q S) : Except Error (System H Q S) := do
  let t ← t.runTab (·.fileclose I rf)
  t.runTab (·.fileclose I wf)

def pipe (page : Option Q) (t : System H Q S) : Except Error (System H Q S) := do
  let (r, t) ← t.onTab (·.pipealloc I page)
  match r with
  | none => .ok t
  | some (rf, wf) =>
    match t.fdalloc p rf with
    | none => t.pipeBad I rf wf
    | some (fd0, t) =>
      match t.fdalloc p wf with
      | none => (t.setFd p fd0 none).pipeBad I rf wf
      | some (_, t) => .ok t

def allocproc (t : System H Q S) : Option (Fin NPROC) :=
  (List.finRange NPROC).find? fun np ↦ (t.proc np).state = .UNUSED

def dupFile (np : Fin NPROC) (fd : Fin NOFILE) (t : System H Q S) : Except Error (System H Q S) :=
  match (t.proc p).ofile fd with
  | none => .ok t
  | some f => do
    let t ← t.runTab (·.filedup f)
    .ok (t.setFd np fd (some f))

/-- Without memory for the stack or for the copy the new process is given up. -/
def nicefork (cwd : H) (kstack copyuvm : Bool) (t : System H Q S) : Except Error (System H Q S) :=
  match t.allocproc with
  | none => .ok t
  | some np =>
    if kstack = false ∨ copyuvm = false then .ok t
    else do
      let t := t.setProc np { t.proc np with parent := some p }
      let t ← Lib.Execution.exec (dupFile p np) (List.finRange NOFILE) t
      let t := { t with tab := { t.tab with fs := I.idup cwd t.tab.fs } }
      .ok (t.setProc np { t.proc np with cwd := some cwd, state := .live })

def closeFile (fd : Fin NOFILE) (t : System H Q S) : Except Error (System H Q S) :=
  match (t.proc p).ofile fd with
  | none => .ok t
  | some f => do
    let t ← t.runTab (·.fileclose I f)
    .ok (t.setFd p fd none)

def exit (initproc : Fin NPROC) (cwd : H) (t : System H Q S) : Except Error (System H Q S) :=
  if p = initproc then .error .initExiting
  else do
    let t ← Lib.Execution.exec (closeFile I p) (List.finRange NOFILE) t
    let t ← t.runTab (·.runFs (I.iput cwd))
    let t := t.setProc p { t.proc p with cwd := none }
    let t := { t with proc := fun c ↦
      if (t.proc c).parent = some p then { t.proc c with parent := some initproc } else t.proc c }
    .ok (t.setProc p { t.proc p with state := .ZOMBIE })

/-- A call of `wait` returns when there is a child to reap, or returns -1. -/
def wait (t : System H Q S) : System H Q S :=
  match (List.finRange NPROC).find? fun c ↦
    (t.proc c).parent = some p ∧ (t.proc c).state = .ZOMBIE with
  | none => t
  | some c => t.setProc c { t.proc c with parent := none, state := .UNUSED }

end System

variable {H Q S : Type} [DecidableEq Q] (I : Inodes H S) (initproc : Fin NPROC)

def Call.step (c : Fin NPROC × Call Q) (t : System H Q S) : Except Error (System H Q S) :=
  if (t.proc c.1).state ≠ .live then .error .disabled
  else
    match (t.proc c.1).cwd with
    | none => .error .null
    | some cwd =>
      let onFs (x : S → Except Panic (ℤ × S)) : Except Error (System H Q S) := do
        let (_, t) ← t.onTab (·.onFs x)
        .ok t
      match c.2 with
      | .open path omode => t.open_ I c.1 cwd path omode
      | .mkdir path => onFs (make I cwd path T_DIR 0 0)
      | .mknod path major minor => onFs (make I cwd path T_DEV major minor)
      | .link old new => onFs (Sysfile.link I cwd old new)
      | .unlink path => onFs (Sysfile.unlink I cwd path)
      | .chdir path => t.chdir I c.1 cwd path
      | .exec path => t.runTab (·.runFs (execInode I cwd path))
      | .close fd => t.close I c.1 fd
      | .dup fd => t.dup c.1 fd
      | .pipe page => t.pipe I c.1 page
      | .nicefork kstack copyuvm => t.nicefork I c.1 cwd kstack copyuvm
      | .exit => t.exit I c.1 initproc cwd
      | .wait => .ok (t.wait c.1)

/-- The system after `userinit`, in the file system `fs` where `namei` has found `root`. -/
def boot (fs : S) (root : H) : System H Q S where
  tab := ⟨fs, fun _ ↦ ⟨.FD_NONE, 0, false, false, none, none⟩, fun _ ↦ none, fun _ ↦ 0, fun _ ↦ 0⟩
  proc p := if p = initproc then ⟨.live, none, fun _ ↦ none, some root⟩
    else ⟨.UNUSED, none, fun _ ↦ none, none⟩

end Xv6Bfs.Files

import Xv6Bfs.Sysfile.Calls
import Mathlib.Logic.Function.Basic

namespace Xv6Bfs.Files

open Lib.Execution Fs Sysfile Function

inductive FdType
  | FD_NONE
  | FD_PIPE
  | FD_INODE
  deriving DecidableEq, Repr

/-- `struct file`, with handles `H` for the inodes and `Q` for the pages of the pipes. -/
structure File (H Q : Type) where
  type : FdType
  ref : ℕ
  readable : Bool
  writable : Bool
  pipe : Option Q
  ip : Option H

/-- The flags of `struct pipe`. -/
structure Pipe where
  readopen : Bool
  writeopen : Bool

/-- The panics, the use of a null pointer or of a pipe that is free, and a call that is not
possible. -/
inductive Error
  | fs (e : Panic)
  | filedup
  | fileclose
  | initExiting
  | null
  | freed
  | disabled
  deriving DecidableEq, Repr

/-- The file table, with the file system and the pipes below it. `kallocs` and `kfrees` count how
often a page was taken for a pipe and given back. -/
structure Table (H Q S : Type) where
  fs : S
  file : Fin NFILE → File H Q
  pipe : Q → Option Pipe
  kallocs : Q → ℕ
  kfrees : Q → ℕ

namespace Table

variable {H Q S R : Type} [DecidableEq Q] (I : Inodes H S)

def setFile (t : Table H Q S) (f : Fin NFILE) (v : File H Q) : Table H Q S :=
  { t with file := update t.file f v }

def onFs (x : S → Except Panic (R × S)) (t : Table H Q S) : Except Error (R × Table H Q S) :=
  match x t.fs with
  | .ok (r, s) => .ok (r, { t with fs := s })
  | .error e => .error (.fs e)

def runFs (x : S → Except Panic S) (t : Table H Q S) : Except Error (Table H Q S) :=
  match x t.fs with
  | .ok s => .ok { t with fs := s }
  | .error e => .error (.fs e)

def filealloc (t : Table H Q S) : Option (Fin NFILE × Table H Q S) :=
  ((List.finRange NFILE).find? fun f ↦ (t.file f).ref = 0).map fun f ↦
    (f, t.setFile f { t.file f with ref := 1 })

def filedup (f : Fin NFILE) (t : Table H Q S) : Except Error (Table H Q S) :=
  if (t.file f).ref < 1 then .error .filedup
  else .ok (t.setFile f { t.file f with ref := (t.file f).ref + 1 })

def pipeclose (q : Q) (writable : Bool) (t : Table H Q S) : Except Error (Table H Q S) :=
  match t.pipe q with
  | none => .error .freed
  | some p =>
    let p : Pipe := if writable then { p with writeopen := false } else { p with readopen := false }
    if p.readopen = false ∧ p.writeopen = false then
      .ok { t with pipe := update t.pipe q none, kfrees := update t.kfrees q (t.kfrees q + 1) }
    else .ok { t with pipe := update t.pipe q (some p) }

def fileclose (f : Fin NFILE) (t : Table H Q S) : Except Error (Table H Q S) :=
  let ff := t.file f
  if ff.ref < 1 then .error .fileclose
  else if ff.ref - 1 > 0 then .ok (t.setFile f { ff with ref := ff.ref - 1 })
  else
    let t := t.setFile f { ff with ref := 0, type := .FD_NONE }
    match ff.type with
    | .FD_NONE => .ok t
    | .FD_PIPE =>
      match ff.pipe with
      | none => .error .null
      | some q => t.pipeclose q ff.writable
    | .FD_INODE =>
      match ff.ip with
      | none => .error .null
      | some ip => t.runFs (I.iput ip)

/-- The answer of `kalloc` is `page`. It is not the page of another pipe. -/
def pipealloc (page : Option Q) (t : Table H Q S) :
    Except Error (Option (Fin NFILE × Fin NFILE) × Table H Q S) :=
  match t.filealloc with
  | none => .ok (none, t)
  | some (f0, t) =>
    match t.filealloc with
    | none => do
      let t ← t.fileclose I f0
      .ok (none, t)
    | some (f1, t) =>
      match page with
      | none => do
        let t ← t.fileclose I f0
        let t ← t.fileclose I f1
        .ok (none, t)
      | some q =>
        if (t.pipe q).isSome then .error .disabled
        else
          let t := { t with
            pipe := update t.pipe q (some ⟨true, true⟩)
            kallocs := update t.kallocs q (t.kallocs q + 1) }
          let t := t.setFile f0
            { t.file f0 with type := .FD_PIPE, readable := true, writable := false, pipe := some q }
          let t := t.setFile f1
            { t.file f1 with type := .FD_PIPE, readable := false, writable := true, pipe := some q }
          .ok (some (f0, f1), t)

end Table

end Xv6Bfs.Files

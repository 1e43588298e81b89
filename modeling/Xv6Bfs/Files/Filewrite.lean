import Xv6Bfs.Fs.Directory
import Xv6Bfs.Lib.Interleaving
import Xv6Bfs.Log.Protocol

namespace Xv6Bfs.Files

open Lib.Execution Fs Function

/-- Where a process is in `filewrite`, with the local variables that are still in use: at the
test of the loop, after `begin_op`, after `ilock`, with `f->off` read, after `writei`, with
`f->off` advanced, and after `iunlock`. The result of `writei` is `none` for -1. -/
inductive Pc
  | idle
  | loop (i : ℕ)
  | begun (i n1 : ℕ)
  | locked (i n1 : ℕ)
  | writing (i n1 off : ℕ)
  | written (i n1 : ℕ) (r : Option ℕ)
  | added (i n1 : ℕ) (r : Option ℕ)
  | unlocked (i n1 : ℕ) (r : Option ℕ)
  deriving DecidableEq, Repr

/-- A process with the bytes of its call, those of the calls it has yet to make, and the results
of the calls that are over. -/
structure Writer where
  pc : Pc
  src : List UInt8
  todo : List (List UInt8)
  returned : List (Option ℕ)
  deriving DecidableEq, Repr

/-- Processes that share a `struct file` of type `FD_INODE`. -/
structure Shared (P : Type) where
  fs : State
  off : ℕ
  writable : Bool
  writer : P → Writer

inductive WriteError
  | fs (e : Panic)
  | shortFilewrite
  deriving DecidableEq, Repr

def maxWrite : ℕ := (Log.MAXOPBLOCKS - 1 - 1 - 2) / 2 * 512

def liftFs {R : Type} : Except Panic R → Except WriteError R
  | .ok r => .ok r
  | .error e => .error (.fs e)

namespace Shared

variable {P : Type} [DecidableEq P]

def setWriter (s : Shared P) (p : P) (w : Writer) : Shared P :=
  { s with writer := update s.writer p w }

section

variable {s : Shared P} {p q : P} {w : Writer}

@[simp] theorem setWriter_self : (s.setWriter p w).writer p = w := by
  simp [setWriter]

theorem setWriter_ne (h : q ≠ p) : (s.setWriter p w).writer q = s.writer q := by
  simp [setWriter, h]

@[simp] theorem setWriter_fs : (s.setWriter p w).fs = s.fs := rfl

@[simp] theorem setWriter_off : (s.setWriter p w).off = s.off := rfl

end

/-- `f->off += r` after a result `r > 0`. -/
def advance (r : Option ℕ) (s : Shared P) : Shared P :=
  match r with
  | none => s
  | some r => if 0 < r then { s with off := (s.off + r) % 2 ^ 32 } else s

def leave (p : P) (i : ℕ) (s : Shared P) : Shared P :=
  let w := s.writer p
  let r := if i = w.src.length then some w.src.length else none
  s.setWriter p { w with pc := .idle, returned := w.returned ++ [r] }

variable (sb : Superblock) (devsw : Devsw) (k : Fin NINODE)

/-- The next step of `p`, up to the next one that other processes can tell from it. Before
`ilock` it sleeps while another process has the lock. -/
def step (p : P) (s : Shared P) : Except WriteError (Shared P) :=
  let w := s.writer p
  match w.pc with
  | .idle =>
    match w.todo with
    | [] => .ok s
    | src :: todo =>
      if s.writable = false then
        .ok (s.setWriter p { w with todo := todo, returned := w.returned ++ [none] })
      else .ok (s.setWriter p { w with pc := .loop 0, src := src, todo := todo })
  | .loop i =>
    if i < w.src.length then
      let n1 := w.src.length - i
      let n1 := if n1 > maxWrite then maxWrite else n1
      .ok (s.setWriter p { w with pc := .begun i n1 })
    else .ok (s.leave p i)
  | .begun i n1 =>
    if (s.fs.icache k).locked then .ok s
    else do
      let fs ← liftFs (s.fs.ilock sb k)
      .ok ({ s with fs := fs }.setWriter p { w with pc := .locked i n1 })
  | .locked i n1 => .ok (s.setWriter p { w with pc := .writing i n1 s.off })
  | .writing i n1 off => do
    let (r, fs) ← liftFs (s.fs.writei sb devsw k ((w.src.drop i).take n1) off)
    .ok ({ s with fs := fs }.setWriter p { w with pc := .written i n1 r })
  | .written i n1 r => .ok ((s.advance r).setWriter p { w with pc := .added i n1 r })
  | .added i n1 r => do
    let fs ← liftFs (s.fs.iunlock k)
    .ok ({ s with fs := fs }.setWriter p { w with pc := .unlocked i n1 r })
  | .unlocked i n1 r =>
    match r with
    | none => .ok (s.leave p i)
    | some r =>
      if r ≠ n1 then .error .shortFilewrite
      else .ok (s.setWriter p { w with pc := .loop (i + r) })

end Shared

end Xv6Bfs.Files

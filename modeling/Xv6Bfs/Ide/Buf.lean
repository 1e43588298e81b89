import Xv6Bfs.Lib.Execution
import Xv6Bfs.Param

namespace Xv6Bfs.Ide

open Lib.Execution

/-- `struct buf` as the disk drivers see it. The sleep lock is given by the process that has it. -/
structure Buf (P α : Type) where
  valid : Bool
  dirty : Bool
  dev : ℕ
  blockno : ℕ
  data : α
  lock : Option P

inductive Panic
  | bufNotLocked
  | nothingToDo
  | disk1NotPresent
  | notForDisk1
  | blockOutOfRange
  | incorrectBlockno
  | disabled
  deriving DecidableEq, Repr

namespace Buf

variable {P α : Type} {v : Buf P α}

def synced (v : Buf P α) : Bool := v.valid && !v.dirty

/-- The tests of `idestart`. -/
def idestart (v : Buf P α) : Except Panic Unit :=
  if v.blockno ≥ FSSIZE then .error .incorrectBlockno else .ok ()

/-- What `ideintr` does to the buffer, where `read` are the data if it is read. -/
def ideintr (v : Buf P α) (read : α) : Buf P α :=
  { v with data := if v.dirty then v.data else read, valid := true, dirty := false }

variable [DecidableEq P]

/-- The tests of `iderw`. -/
def iderw (v : Buf P α) (havedisk1 : Bool) (p : P) : Except Panic Unit :=
  if v.lock ≠ some p then .error .bufNotLocked
  else if v.synced then .error .nothingToDo
  else if v.dev ≠ 0 ∧ havedisk1 = false then .error .disk1NotPresent
  else .ok ()

theorem iderw_ensures (v : Buf P α) (havedisk1 : Bool) (p : P) :
    Ensures (fun _ ↦ v.lock = some p ∧ v.synced = false) (fun _ ↦ True) (v.iderw havedisk1 p) := by
  unfold iderw
  split_ifs with hl hs <;> try trivial
  exact ⟨not_not.mp hl, by simpa using hs⟩

end Buf

end Xv6Bfs.Ide

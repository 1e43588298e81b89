import Xv6Bfs.Ide.Buf
import Xv6Bfs.Lib.CircularList

namespace Xv6Bfs.Bio

open Lib.Execution Lib.LinkedChain Function

def NBUF : ℕ := 30

/-- A pointer into the list of buffers: `none` is `&bcache.head`. -/
abbrev Ptr := Option (Fin NBUF)

/-- `struct buf` without the links. -/
structure Buf (P D : Type) extends Ide.Buf P D where
  refcnt : ℕ

structure Links where
  next : Ptr → Ptr
  prev : Ptr → Ptr

/-- Where a process is: in `acquiresleep(&b->lock)` of `bget`, about to test `B_VALID` in `bread`,
asleep in `iderw`, or in `brelse` between `releasesleep` and `acquire(&bcache.lock)`. -/
inductive Pc
  | idle
  | bget (b : Fin NBUF)
  | bread (b : Fin NBUF)
  | iderw (b : Fin NBUF)
  | brelse (b : Fin NBUF)
  deriving DecidableEq, Repr

structure State (P D : Type) where
  buf : Fin NBUF → Buf P D
  links : Links
  idequeue : List (Fin NBUF)
  pc : P → Pc

/-- The panics, a loop that does not come to an end, and a step that is not possible. -/
inductive Stop
  | bgetNoBuffers
  | bwrite
  | brelse
  | ide (e : Ide.Panic)
  | diverges
  | disabled
  deriving DecidableEq, Repr

/-- What a process, or the disk, does between two moments at which another process may run. A read
ends with the data of the block, or with none of it if the disk reports an error. -/
inductive Act (P D : Type)
  | bget (p : P) (dev blockno : ℕ)
  | acquiresleep (p : P)
  | bread (p : P)
  | modify (p : P) (b : Fin NBUF) (data : D)
  | logWrite (p : P) (b : Fin NBUF)
  | bwrite (p : P) (b : Fin NBUF)
  | ideintr (data : Option D)
  | iderw (p : P)
  | releasesleep (p : P) (b : Fin NBUF)
  | brelse (p : P)

namespace Links

def unlink (k : Links) (b : Fin NBUF) : Links :=
  let k := { k with prev := update k.prev (k.next (some b)) (k.prev (some b)) }
  { k with next := update k.next (k.prev (some b)) (k.next (some b)) }

def linkFirst (k : Links) (b : Fin NBUF) : Links :=
  let k := { k with next := update k.next (some b) (k.next none) }
  let k := { k with prev := update k.prev (some b) none }
  let k := { k with prev := update k.prev (k.next none) (some b) }
  { k with next := update k.next none (some b) }

/-- The loop of `binit`, after `bcache.head.prev = bcache.head.next = &bcache.head`. -/
def binit : Links := (List.finRange NBUF).foldl linkFirst ⟨fun _ ↦ none, fun _ ↦ none⟩

end Links

namespace State

variable {P D : Type} [DecidableEq P]

def goto (s : State P D) (p : P) (pc : Pc) : State P D := { s with pc := update s.pc p pc }

def setBuf (s : State P D) (b : Fin NBUF) (v : Buf P D) : State P D := { s with buf := update s.buf b v }

def isBlock (s : State P D) (dev blockno : ℕ) : Ptr → Bool
  | none => false
  | some b => (s.buf b).dev = dev ∧ (s.buf b).blockno = blockno

def isUnused (s : State P D) : Ptr → Bool
  | none => false
  | some b => (s.buf b).refcnt = 0 ∧ (s.buf b).dirty = false

/-- The critical section of `bget`. -/
def bget (s : State P D) (p : P) (dev blockno : ℕ) : Except Stop (State P D) :=
  match search s.links.next none (s.isBlock dev blockno) (NBUF + 1) (s.links.next none) with
  | none => .error .diverges
  | some (some b) =>
    .ok ((s.setBuf b { s.buf b with refcnt := (s.buf b).refcnt + 1 }).goto p (.bget b))
  | some none =>
    match search s.links.prev none s.isUnused (NBUF + 1) (s.links.prev none) with
    | none => .error .diverges
    | some (some b) =>
      .ok ((s.setBuf b { s.buf b with
        dev := dev, blockno := blockno, valid := false, dirty := false, refcnt := 1 }).goto p (.bget b))
    | some none => .error .bgetNoBuffers

/-- The rest of `bget`: a process goes on when the lock is free. -/
def acquiresleep (s : State P D) (p : P) (b : Fin NBUF) : Except Stop (State P D) :=
  if (s.buf b).lock = none then .ok ((s.setBuf b { s.buf b with lock := some p }).goto p (.bread b))
  else .error .disabled

def idestart (s : State P D) (b : Fin NBUF) : Except Stop (State P D) := do
  (s.buf b).toBuf.idestart.mapError .ide
  .ok s

variable (havedisk1 : Bool)

/-- `iderw` up to the `sleep`. -/
def iderw (s : State P D) (p : P) (b : Fin NBUF) : Except Stop (State P D) := do
  ((s.buf b).toBuf.iderw havedisk1 p).mapError .ide
  let s := { s.goto p (.iderw b) with idequeue := s.idequeue ++ [b] }
  if s.idequeue.head? = some b then s.idestart b else .ok s

/-- `bread` after `bget`. -/
def bread (s : State P D) (p : P) (b : Fin NBUF) : Except Stop (State P D) :=
  if (s.buf b).valid = false then s.iderw havedisk1 p b else .ok (s.goto p .idle)

def bwrite (s : State P D) (p : P) (b : Fin NBUF) : Except Stop (State P D) :=
  if (s.buf b).lock ≠ some p then .error .bwrite
  else (s.setBuf b { s.buf b with dirty := true }).iderw havedisk1 p b

def served (s : State P D) (b : Fin NBUF) (data : Option D) : Buf P D :=
  { s.buf b with toBuf := (s.buf b).toBuf.ideintr (data.getD (s.buf b).data) }

def ideintr (s : State P D) (data : Option D) : Except Stop (State P D) :=
  match s.idequeue with
  | [] => .ok s
  | b :: queue =>
    let s := { s.setBuf b (s.served b data) with idequeue := queue }
    match queue with
    | [] => .ok s
    | b' :: _ => s.idestart b'

def releasesleep (s : State P D) (p : P) (b : Fin NBUF) : Except Stop (State P D) :=
  if (s.buf b).lock ≠ some p then .error .brelse
  else .ok ((s.setBuf b { s.buf b with lock := none }).goto p (.brelse b))

/-- The critical section of `brelse`. -/
def brelse (s : State P D) (p : P) (b : Fin NBUF) : State P D :=
  let s := (s.setBuf b { s.buf b with refcnt := (s.buf b).refcnt - 1 }).goto p .idle
  if (s.buf b).refcnt = 0 then { s with links := (s.links.unlink b).linkFirst b } else s

end State

variable {P D : Type} [DecidableEq P] (havedisk1 : Bool)

/-- A process makes a call only when it is not in another one, and `dev` is not 0. It changes the
data of a buffer, and calls `log_write` for it, while it holds its lock. -/
def Act.step (a : Act P D) (s : State P D) : Except Stop (State P D) :=
  match a with
  | .bget p dev blockno =>
    if s.pc p = .idle ∧ dev ≠ 0 then s.bget p dev blockno else .error .disabled
  | .acquiresleep p =>
    match s.pc p with
    | .bget b => s.acquiresleep p b
    | _ => .error .disabled
  | .bread p =>
    match s.pc p with
    | .bread b => s.bread havedisk1 p b
    | _ => .error .disabled
  | .modify p b data =>
    if s.pc p = .idle ∧ (s.buf b).lock = some p then .ok (s.setBuf b { s.buf b with data := data })
    else .error .disabled
  | .logWrite p b =>
    if s.pc p = .idle ∧ (s.buf b).lock = some p then .ok (s.setBuf b { s.buf b with dirty := true })
    else .error .disabled
  | .bwrite p b => if s.pc p = .idle then s.bwrite havedisk1 p b else .error .disabled
  | .ideintr data => s.ideintr data
  | .iderw p =>
    match s.pc p with
    | .iderw b =>
      if (s.buf b).synced then .ok (s.goto p .idle) else .error .disabled
    | _ => .error .disabled
  | .releasesleep p b => if s.pc p = .idle then s.releasesleep p b else .error .disabled
  | .brelse p =>
    match s.pc p with
    | .brelse b => .ok (s.brelse p b)
    | _ => .error .disabled

/-- After `binit`. The buffers are static, so all fields are 0. -/
def State.boot (data : D) : State P D where
  buf := fun _ ↦ ⟨⟨false, false, 0, 0, data, none⟩, 0⟩
  links := .binit
  idequeue := []
  pc := fun _ ↦ .idle

end Xv6Bfs.Bio

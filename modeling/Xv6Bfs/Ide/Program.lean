import Mathlib.Algebra.Group.Nat.Defs
import Xv6Bfs.Disk.Block
import Xv6Bfs.Ide.Buf
import Xv6Bfs.Lib.PointerQueue
import Xv6Bfs.Lib.Signals

namespace Xv6Bfs.Ide

open Lib.Execution Lib.Monitor Lib.PointerQueue Function

def SECTOR_SIZE : ℕ := 512

structure Store (P B α : Type) where
  buf : B → Buf P α
  disk : ℕ → α

/-- A command as the device gets it: the sector, the drive, and the data of a write. -/
structure Cmd (α : Type) where
  sector : ℕ
  disk1 : Bool
  data : Option α

/-- What has happened to the buffers. A process takes a buffer and gives it back, and changes it
in between. Its request is called for, submitted to the queue and served, and the call returns. -/
inductive Event (P B α : Type)
  | take (p : P) (b : B)
  | drop (b : B)
  | modify (b : B) (v : Buf P α)
  | call (b : B) (dev blockno : ℕ)
  | submit (b : B)
  | serve (b : B)
  | ret (b : B)

/-- The driver and the device. `link none` is `idequeue`, and `link (some b)` is `b->qnext`. The device
has a command that it executes until its interrupt is handled, whether it is done with it, and the
data that it has read. -/
structure Mem (P B α : Type) where
  store : Store P B α
  link : Option B → Option B
  cmd : Option (Cmd α)
  done : Bool
  reg : α
  log : List (Event P B α)

inductive Call (B : Type)
  | iderw (b : B)
  | ideintr

inductive Env (P B α : Type)
  | complete
  | take (p : P) (b : B)
  | drop (p : P) (b : B)
  | modify (p : P) (b : B) (v : Buf P α)

/-- Where a process is in `iderw` (the loop that looks for the end of the queue, the test for an idle
disk, the loop that waits), or an interrupt in `ideintr`. -/
inductive Pc (B : Type)
  | idle
  | walk (b : B) (pp : Option B)
  | start (b : B)
  | wait (b : B)
  | intr
  | intrWakeup (b : B)
  | intrNext
  | intrDone
  deriving DecidableEq

def Pc.inside {B : Type} : Pc B → Prop
  | .idle => False
  | _ => True

/-- How far the last call of `iderw` for a buffer has come. -/
inductive Phase
  | idle
  | called
  | submitted
  | served
  deriving DecidableEq, Repr

variable {P B α : Type}

def lba (sector : ℕ) : ℕ :=
  sector % 256 + 2 ^ 8 * (sector / 2 ^ 8 % 256) + 2 ^ 16 * (sector / 2 ^ 16 % 256) +
    2 ^ 24 * (sector / 2 ^ 24 % 16)

def command (v : Buf P α) : Cmd α :=
  ⟨lba (v.blockno * (Disk.BSIZE / SECTOR_SIZE)), v.dev % 2 = 1, if v.dirty then some v.data else none⟩

namespace Mem

def emit (d : Mem P B α) (e : Event P B α) : Mem P B α := { d with log := e :: d.log }

def send (d : Mem P B α) (b : B) : Mem P B α :=
  { d with cmd := some (command (d.store.buf b)), done := false }

def complete (d : Mem P B α) (c : Cmd α) : Mem P B α :=
  match c.data with
  | some x =>
    { d with done := true, store := if c.disk1 then { d.store with disk := update d.store.disk c.sector x }
                                    else d.store }
  | none => { d with done := true, reg := if c.disk1 then d.store.disk c.sector else d.reg }

def idestart (d : Mem P B α) (b : B) : Except Panic (Mem P B α) := do
  (d.store.buf b).idestart
  .ok (d.send b)

end Mem

theorem idestart_map {d : Mem P B α} {b : B} {pc : Pc B} {i : Instr (Mem P B α) (Pc B) B}
    (h : (d.idestart b).map (.act · pc) = .ok i) : i = .act (d.send b) pc := by
  unfold Mem.idestart at h
  cases hb : (d.store.buf b).idestart <;> rw [hb] at h <;> cases h
  rfl

variable [DecidableEq B]

def phase (b : B) : List (Event P B α) → Phase
  | [] => .idle
  | .call c _ _ :: l => if c = b then .called else phase b l
  | .submit c :: l => if c = b then .submitted else phase b l
  | .serve c :: l => if c = b then .served else phase b l
  | .ret c :: l => if c = b then .idle else phase b l
  | _ :: l => phase b l

def Store.setBuf (s : Store P B α) (b : B) (v : Buf P α) : Store P B α :=
  { s with buf := update s.buf b v }

def memiderw [DecidableEq P] (s : Store P B α) (p : P) (b : B) : Except Panic (Store P B α) :=
  let v := s.buf b
  if v.lock ≠ some p then .error .bufNotLocked
  else if v.synced then .error .nothingToDo
  else if v.dev ≠ 1 then .error .notForDisk1
  else if v.blockno ≥ FSSIZE then .error .blockOutOfRange
  else if v.dirty then
    .ok { s.setBuf b { v with dirty := false, valid := true } with
      disk := update s.disk v.blockno v.data }
  else .ok (s.setBuf b { v with data := s.disk v.blockno, valid := true })

namespace Mem

def setBuf (d : Mem P B α) (b : B) (v : Buf P α) : Mem P B α := { d with store := d.store.setBuf b v }

def setLink (d : Mem P B α) (pp x : Option B) : Mem P B α := { d with link := update d.link pp x }

/-- `ideintr` up to the `wakeup`, for the first buffer of the queue. -/
def serve (d : Mem P B α) (b : B) : Mem P B α :=
  let v := d.store.buf b
  let d := d.setLink none (d.link (some b))
  let d := d.setBuf b (v.ideintr d.reg)
  { d with cmd := none, done := false }.emit (.serve b)

end Mem

variable [DecidableEq P]

/-- A process takes or gives back the sleep lock of a buffer, or changes the buffer, while it is not
in `iderw`; or the device completes its command. -/
def env (v : Env P B α) (d : Mem P B α) : Except Panic (Mem P B α) :=
  match v with
  | .complete =>
    match d.cmd with
    | some c => if d.done then .error .disabled else .ok (d.complete c)
    | none => .error .disabled
  | .take p b =>
    if (d.store.buf b).lock = none then
      .ok ((d.setBuf b { d.store.buf b with lock := some p }).emit (.take p b))
    else .error .disabled
  | .drop p b =>
    if (d.store.buf b).lock = some p ∧ phase b d.log = .idle then
      .ok ((d.setBuf b { d.store.buf b with lock := none }).emit (.drop b))
    else .error .disabled
  | .modify p b v =>
    if (d.store.buf b).lock = some p ∧ phase b d.log = .idle then
      .ok ((d.setBuf b { v with lock := some p }).emit (.modify b { v with lock := some p }))
    else .error .disabled

/-- `iderw` up to the loop. -/
def iderw (havedisk1 : Bool) (p : P) (d : Mem P B α) (b : B) :
    Except Panic (Instr (Mem P B α) (Pc B) B) := do
  let v := d.store.buf b
  v.iderw havedisk1 p
  .ok (.acquire ((d.setLink (some b) none).emit (.call b v.dev v.blockno)) (.walk b none))

def next (havedisk1 : Bool) (p : P) (call : Call B) (pc : Pc B) (d : Mem P B α) :
    Except Panic (Instr (Mem P B α) (Pc B) B) :=
  match pc with
  | .idle =>
    match call with
    | .iderw b => iderw havedisk1 p d b
    | .ideintr => if d.done then .ok (.acquire d .intr) else .error .disabled
  | .walk b pp =>
    match d.link pp with
    | some c => .ok (.act d (.walk b (some c)))
    | none => .ok (.act ((d.setLink pp (some b)).emit (.submit b)) (.start b))
  | .start b =>
    if d.link none = some b then (d.idestart b).map (.act · (.wait b)) else .ok (.act d (.wait b))
  | .wait b =>
    if (d.store.buf b).synced then .ok (.release (d.emit (.ret b)) .idle)
    else .ok (.sleep b (.wait b))
  | .intr =>
    match d.link none with
    | none => .ok (.release d .idle)
    | some b => .ok (.act (d.serve b) (.intrWakeup b))
  | .intrWakeup b => .ok (.wakeup b .intrNext)
  | .intrNext =>
    match d.link none with
    | none => .ok (.act d .intrDone)
    | some b => (d.idestart b).map (.act · .intrDone)
  | .intrDone => .ok (.release d .idle)

/-- All that a process, or an interrupt, can do next. -/
inductive Move (p : P) (d : Mem P B α) : Pc B → Instr (Mem P B α) (Pc B) B → Prop
  | iderw (b) : (d.store.buf b).lock = some p → (d.store.buf b).synced = false → Move p d .idle
      (.acquire ((d.setLink (some b) none).emit
        (.call b (d.store.buf b).dev (d.store.buf b).blockno)) (.walk b none))
  | ideintr : d.done = true → Move p d .idle (.acquire d .intr)
  | walk (b pp c) : d.link pp = some c → Move p d (.walk b pp) (.act d (.walk b (some c)))
  | submit (b pp) : d.link pp = none →
      Move p d (.walk b pp) (.act ((d.setLink pp (some b)).emit (.submit b)) (.start b))
  | start (b) : d.link none = some b → Move p d (.start b) (.act (d.send b) (.wait b))
  | started (b) : d.link none ≠ some b → Move p d (.start b) (.act d (.wait b))
  | ret (b) : (d.store.buf b).synced = true →
      Move p d (.wait b) (.release (d.emit (.ret b)) .idle)
  | sleep (b) : Move p d (.wait b) (.sleep b (.wait b))
  | spurious : Move p d .intr (.release d .idle)
  | serve (b) : d.link none = some b → Move p d .intr (.act (d.serve b) (.intrWakeup b))
  | intrWakeup (b) : Move p d (.intrWakeup b) (.wakeup b .intrNext)
  | intrIdle : d.link none = none → Move p d .intrNext (.act d .intrDone)
  | intrNext (b) : d.link none = some b → Move p d .intrNext (.act (d.send b) .intrDone)
  | intrDone : Move p d .intrDone (.release d .idle)

theorem Move.of_next {havedisk1 : Bool} {p : P} {call : Call B} {pc : Pc B} {d : Mem P B α}
    {i : Instr (Mem P B α) (Pc B) B} (h : next havedisk1 p call pc d = .ok i) : Move p d pc i := by
  cases pc with
  | idle =>
    cases call with
    | iderw b =>
      obtain ⟨_, hok, h⟩ := bind_eq_ok.mp h
      cases h
      obtain ⟨hl, hs⟩ := (Buf.iderw_ensures _ havedisk1 p).of_ok hok
      exact .iderw b hl hs
    | ideintr =>
      simp only [next] at h
      split at h <;> cases h
      exact .ideintr ‹_›
  | walk b pp =>
    simp only [next] at h
    split at h <;> cases h
    · exact .walk b pp _ ‹_›
    · exact .submit b pp ‹_›
  | start b =>
    simp only [next] at h
    split at h
    · rw [idestart_map h]
      exact .start b ‹_›
    · cases h
      exact .started b ‹_›
  | wait b =>
    simp only [next] at h
    split at h <;> cases h
    · exact .ret b ‹_›
    · exact .sleep b
  | intr =>
    simp only [next] at h
    split at h <;> cases h
    · exact .spurious
    · exact .serve _ ‹_›
  | intrWakeup b =>
    cases h
    exact .intrWakeup b
  | intrNext =>
    simp only [next] at h
    split at h
    · cases h
      exact .intrIdle ‹_›
    · rw [idestart_map h]
      exact .intrNext _ ‹_›
  | intrDone =>
    cases h
    exact .intrDone

def program (P B α : Type) [DecidableEq B] [DecidableEq P] (havedisk1 : Bool) :
    Program P (Call B) (Env P B α) (Mem P B α) (Pc B) B Panic where
  next := next havedisk1
  kill _ d := d
  env := env
  inside := Pc.inside
  bracketed := by
    intro p call pc d i h
    cases Move.of_next h <;> simp [Instr.Bracketed, Pc.inside]

def init (buf : B → Buf P α) (disk : ℕ → α) (reg : α) : State P (Mem P B α) (Pc B) B :=
  .init ⟨⟨fun b ↦ { buf b with lock := none }, disk⟩, fun _ ↦ none, none, false, reg, []⟩ .idle

end Xv6Bfs.Ide

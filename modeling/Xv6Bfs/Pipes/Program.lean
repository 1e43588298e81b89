import Xv6Bfs.Lib.RingBuffer
import Xv6Bfs.Lib.Signals

namespace Xv6Bfs.Pipes

open Lib.Execution Lib.RingBuffer Lib.Monitor Function

def PIPESIZE : ℕ := 512

/-- `struct pipe` without its lock. -/
structure Pipe where
  data : ℕ → UInt8
  nread : BitVec 32
  nwrite : BitVec 32
  readopen : Bool
  writeopen : Bool

/-- What has happened on a pipe. -/
inductive Event (P : Type)
  | writeCall (p : P) (addr : ℕ → UInt8) (n : ℤ)
  | store (p : P) (b : UInt8)
  | writeRet (p : P) (r : ℤ)
  | deliver (p : P) (b : UInt8)
  | readRet (p : P) (n r : ℤ)
  | close (writable : Bool)

/-- The pipe with what the processes on it share: whether its page has been freed, the `killed`
flags, and the events, the last one first. -/
structure Mem (P : Type) where
  pipe : Pipe
  freed : Bool
  killed : P → Bool
  log : List (Event P)

/-- The channels `&p->nread` and `&p->nwrite`. -/
inductive Chan
  | nread
  | nwrite
  deriving DecidableEq, Repr

/-- What a process does with the pipe. By `exit` it closes the ends of which it has the last
descriptor. -/
inductive Call
  | pipewrite (addr : ℕ → UInt8) (n : ℤ)
  | piperead (n : ℤ)
  | pipeclose (writable : Bool)
  | exit (ends : List Bool)

/-- Where a process is. In `pipeclose` it has, if it is called by `exit`, other ends to close. -/
inductive Pc
  | idle
  | exiting (ends : List Bool)
  | write (addr : ℕ → UInt8) (n : ℤ) (i : ℕ)
  | writeSleep (addr : ℕ → UInt8) (n : ℤ) (i : ℕ)
  | writeDone (n : ℤ)
  | read (n : ℤ)
  | readCopy (n : ℤ) (i : ℕ)
  | readDone (n : ℤ) (i : ℕ)
  | close (writable : Bool) (rest : Option (List Bool))
  | closeWakeup (writable : Bool) (rest : Option (List Bool))
  | closed (rest : Option (List Bool))

inductive Fault
  | freed
  | zombie
  deriving DecidableEq, Repr

namespace Pipe

def full (s : Pipe) : Bool := s.nwrite == s.nread + BitVec.ofNat 32 PIPESIZE

def store (s : Pipe) (b : UInt8) : Pipe :=
  { s with data := update s.data (s.nwrite.toNat % PIPESIZE) b, nwrite := s.nwrite + 1 }

def fetch (s : Pipe) : UInt8 × Pipe :=
  (s.data (s.nread.toNat % PIPESIZE), { s with nread := s.nread + 1 })

def alloc (page : ℕ → UInt8) : Pipe := ⟨page, 0, 0, true, true⟩

end Pipe

section

variable {P : Type}

def Mem.emit (d : Mem P) (e : Event P) : Mem P := { d with log := e :: d.log }

def Pc.inside : Pc → Prop
  | .idle | .exiting .. => False
  | _ => True

def Pc.back : Option (List Bool) → Pc
  | none => .idle
  | some ends => .exiting ends

/-- A call, or the next `pipeclose` of `exit`, takes the lock of the pipe. -/
def start (p : P) (d : Mem P) : Call → Except Fault (Instr (Mem P) Pc Chan)
  | .pipewrite addr n => .ok (.acquire (d.emit (.writeCall p addr n)) (.write addr n 0))
  | .piperead n => .ok (.acquire d (.read n))
  | .pipeclose writable => .ok (.acquire d (.close writable none))
  | .exit [] => .error .zombie
  | .exit (writable :: ends) => .ok (.acquire d (.close writable (some ends)))

/-- The loops of `pipewrite`: what is stored by one round, and what is done when it is full. -/
def pipewrite (p : P) (d : Mem P) (addr : ℕ → UInt8) (n : ℤ) (i : ℕ) : Instr (Mem P) Pc Chan :=
  if i < n then
    if d.pipe.full then
      if d.pipe.readopen = false ∨ d.killed p then .release (d.emit (.writeRet p (-1))) .idle
      else .wakeup .nread (.writeSleep addr n i)
    else
      .act ({ d with pipe := d.pipe.store (addr i) }.emit (.store p (addr i))) (.write addr n (i + 1))
  else .wakeup .nread (.writeDone n)

def piperead (p : P) (d : Mem P) (n : ℤ) : Instr (Mem P) Pc Chan :=
  if d.pipe.nread = d.pipe.nwrite ∧ d.pipe.writeopen then
    if d.killed p then .release (d.emit (.readRet p n (-1))) .idle
    else .sleep .nread (.read n)
  else .act d (.readCopy n 0)

def pipereadCopy (p : P) (d : Mem P) (n : ℤ) (i : ℕ) : Instr (Mem P) Pc Chan :=
  if i < n then
    if d.pipe.nread = d.pipe.nwrite then .wakeup .nwrite (.readDone n i)
    else
      .act ({ d with pipe := d.pipe.fetch.2 }.emit (.deliver p d.pipe.fetch.1)) (.readCopy n (i + 1))
  else .wakeup .nwrite (.readDone n i)

def pipeclose (d : Mem P) (writable : Bool) : Mem P :=
  { d with pipe := if writable then { d.pipe with writeopen := false }
    else { d.pipe with readopen := false } }

/-- The end of `pipeclose`: the page is freed when both ends are closed. -/
def pipefree (d : Mem P) : Mem P :=
  if d.pipe.readopen = false ∧ d.pipe.writeopen = false then { d with freed := true } else d

def next (p : P) (call : Call) (pc : Pc) (d : Mem P) : Except Fault (Instr (Mem P) Pc Chan) :=
  match pc with
  | .idle => if d.freed then .error .freed else start p d call
  | .exiting ends => if d.freed then .error .freed else start p d (.exit ends)
  | .write addr n i => .ok (pipewrite p d addr n i)
  | .writeSleep addr n i => .ok (.sleep .nwrite (.write addr n i))
  | .writeDone n => .ok (.release (d.emit (.writeRet p n)) .idle)
  | .read n => .ok (piperead p d n)
  | .readCopy n i => .ok (pipereadCopy p d n i)
  | .readDone n i => .ok (.release (d.emit (.readRet p n i)) .idle)
  | .close writable rest =>
    .ok (.act ((pipeclose d writable).emit (.close writable)) (.closeWakeup writable rest))
  | .closeWakeup writable rest =>
    .ok (.wakeup (if writable then .nread else .nwrite) (.closed rest))
  | .closed rest => .ok (.release (pipefree d) (.back rest))

/-- All that a process can do next. -/
inductive Move (p : P) (d : Mem P) : Pc → Instr (Mem P) Pc Chan → Prop
  | callWrite (addr n) : Move p d .idle (.acquire (d.emit (.writeCall p addr n)) (.write addr n 0))
  | callRead (n) : Move p d .idle (.acquire d (.read n))
  | callClose (w rest) : Move p d .idle (.acquire d (.close w rest))
  | exit (w ends) : Move p d (.exiting (w :: ends)) (.acquire d (.close w (some ends)))
  | store (addr) (n : ℤ) (i : ℕ) : i < n → d.pipe.full = false → Move p d (.write addr n i)
      (.act ({ d with pipe := d.pipe.store (addr i) }.emit (.store p (addr i))) (.write addr n (i + 1)))
  | giveUp (addr) (n : ℤ) (i : ℕ) : i < n → d.pipe.full = true →
      d.pipe.readopen = false ∨ d.killed p = true →
      Move p d (.write addr n i) (.release (d.emit (.writeRet p (-1))) .idle)
  | full (addr) (n : ℤ) (i : ℕ) : i < n → d.pipe.full = true → d.pipe.readopen = true →
      Move p d (.write addr n i) (.wakeup .nread (.writeSleep addr n i))
  | written (addr) (n : ℤ) (i : ℕ) : ¬ i < n →
      Move p d (.write addr n i) (.wakeup .nread (.writeDone n))
  | writeSleep (addr n i) : Move p d (.writeSleep addr n i) (.sleep .nwrite (.write addr n i))
  | writeDone (n) : Move p d (.writeDone n) (.release (d.emit (.writeRet p n)) .idle)
  | readKilled (n) : Move p d (.read n) (.release (d.emit (.readRet p n (-1))) .idle)
  | readSleep (n) : d.pipe.nread = d.pipe.nwrite → d.pipe.writeopen = true →
      Move p d (.read n) (.sleep .nread (.read n))
  | readReady (n) : d.pipe.nread ≠ d.pipe.nwrite ∨ d.pipe.writeopen = false →
      Move p d (.read n) (.act d (.readCopy n 0))
  | fetch (n : ℤ) (i : ℕ) : i < n → d.pipe.nread ≠ d.pipe.nwrite → Move p d (.readCopy n i)
      (.act ({ d with pipe := d.pipe.fetch.2 }.emit (.deliver p d.pipe.fetch.1)) (.readCopy n (i + 1)))
  | copied (n : ℤ) (i : ℕ) : ¬ i < n ∨ d.pipe.nread = d.pipe.nwrite →
      Move p d (.readCopy n i) (.wakeup .nwrite (.readDone n i))
  | readDone (n : ℤ) (i : ℕ) : Move p d (.readDone n i) (.release (d.emit (.readRet p n i)) .idle)
  | close (w rest) : Move p d (.close w rest)
      (.act ((pipeclose d w).emit (.close w)) (.closeWakeup w rest))
  | closeWakeup (w rest) : Move p d (.closeWakeup w rest)
      (.wakeup (if w then .nread else .nwrite) (.closed rest))
  | closed (rest) : Move p d (.closed rest) (.release (pipefree d) (.back rest))

theorem Move.of_next {p : P} {call : Call} {pc : Pc} {d : Mem P} {i : Instr (Mem P) Pc Chan}
    (h : next p call pc d = .ok i) : Move p d pc i := by
  cases pc with
  | idle =>
    simp only [next] at h
    split at h
    · cases h
    · cases call with
      | pipewrite addr n => cases h; exact .callWrite addr n
      | piperead n => cases h; exact .callRead n
      | pipeclose w => cases h; exact .callClose w none
      | exit ends =>
        cases ends with
        | nil => cases h
        | cons w ends => cases h; exact .callClose w (some ends)
  | exiting ends =>
    simp only [next] at h
    split at h
    · cases h
    · cases ends with
      | nil => cases h
      | cons w ends => cases h; exact .exit w ends
  | write addr n i =>
    simp only [next, pipewrite, Except.ok.injEq] at h
    split_ifs at h with hi hf hr <;> subst h
    · exact .giveUp addr n i hi hf hr
    · exact .full addr n i hi hf (by grind)
    · exact .store addr n i hi (by simpa using hf)
    · exact .written addr n i hi
  | writeSleep addr n i => cases h; exact .writeSleep addr n i
  | writeDone n => cases h; exact .writeDone n
  | read n =>
    simp only [next, piperead, Except.ok.injEq] at h
    split_ifs at h with he hk <;> subst h
    · exact .readKilled n
    · exact .readSleep n he.1 he.2
    · exact .readReady n (by grind)
  | readCopy n i =>
    simp only [next, pipereadCopy, Except.ok.injEq] at h
    split_ifs at h with hi he <;> subst h
    · exact .copied n i (.inr he)
    · exact .fetch n i hi he
    · exact .copied n i (.inl hi)
  | readDone n i => cases h; exact .readDone n i
  | close w rest => cases h; exact .close w rest
  | closeWakeup w rest => cases h; exact .closeWakeup w rest
  | closed rest => cases h; exact .closed rest

variable [DecidableEq P]

def program (P : Type) [DecidableEq P] : Program P Call Empty (Mem P) Pc Chan Fault where
  next := next
  env := nofun
  kill p d := { d with killed := update d.killed p true }
  inside := Pc.inside
  bracketed := by
    intro p call pc d i h
    cases Move.of_next h <;> simp [Instr.Bracketed, Pc.inside]
    rename_i rest
    cases rest <;> simp [Pc.back]

/-- The system just after `pipealloc`. -/
def init (page : ℕ → UInt8) (killed : P → Bool) : State P (Mem P) Pc Chan :=
  .init ⟨.alloc page, false, killed, []⟩ .idle

end

end Xv6Bfs.Pipes

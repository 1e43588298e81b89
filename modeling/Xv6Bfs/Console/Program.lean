import Xv6Bfs.Lib.RingBuffer
import Xv6Bfs.Lib.Signals

namespace Xv6Bfs.Console

open Lib.Execution Lib.RingBuffer Lib.Monitor Function

def INPUT_BUF : ℕ := 128

/-- `C(x)`, for a letter given by its code. -/
def ctrl (x : UInt8) : UInt8 := x - 64

def CTRL_D : UInt8 := ctrl 68
def CTRL_H : UInt8 := ctrl 72
def CTRL_P : UInt8 := ctrl 80
def CTRL_U : UInt8 := ctrl 85
def NEWLINE : UInt8 := 10
def RETURN : UInt8 := 13
def DELETE : UInt8 := 127

structure Input where
  buf : ℕ → UInt8
  r : BitVec 32
  w : BitVec 32
  e : BitVec 32

/-- What has happened on the console: a character was put on the line or erased from it (both are
echoed), the line was committed, a reader got a byte or the end of file, or returned. -/
inductive Event (P : Type)
  | put (c : UInt8)
  | erase
  | commit
  | deliver (p : P) (c : UInt8)
  | eof (p : P)
  | readRet (p : P) (r : ℤ)
  deriving DecidableEq

structure Mem (P : Type) where
  input : Input
  killed : P → Bool
  log : List (Event P)

/-- An interrupt with the characters that `getc` returns, or a call of `consoleread`. -/
inductive Call
  | consoleintr (cs : List UInt8)
  | consoleread (n : ℤ)

/-- The loop of `consoleintr` with the characters that are left, the loop for `C('U')`, the
`wakeup` after a commit, the loop of `consoleread` and its end. -/
inductive Pc
  | idle
  | intr (cs : List UInt8)
  | killLine (cs : List UInt8)
  | committed (cs : List UInt8)
  | read (target n : ℤ)
  | readDone (target n : ℤ)
  deriving DecidableEq

variable {P : Type}

namespace Input

def put (s : Input) (c : UInt8) : Input :=
  { s with buf := update s.buf (s.e.toNat % INPUT_BUF) c, e := s.e + 1 }

def erase (s : Input) : Input := { s with e := s.e - 1 }

def commit (s : Input) : Input := { s with w := s.e }

def head (s : Input) : UInt8 := s.buf (s.r.toNat % INPUT_BUF)

def skip (s : Input) : Input := { s with r := s.r + 1 }

def back (s : Input) : Input := { s with r := s.r - 1 }

end Input

namespace Mem

def emit (d : Mem P) (e : Event P) : Mem P := { d with log := e :: d.log }

def put (d : Mem P) (c : UInt8) : Mem P := { d with input := d.input.put c }.emit (.put c)

def erase (d : Mem P) : Mem P := { d with input := d.input.erase }.emit .erase

def commit (d : Mem P) : Mem P := { d with input := d.input.commit }.emit .commit

def deliver (d : Mem P) (p : P) : Mem P :=
  { d with input := d.input.skip }.emit (.deliver p d.input.head)

def eof (d : Mem P) (p : P) : Mem P := { d with input := d.input.skip }.emit (.eof p)

end Mem

def consoleintrPut (d : Mem P) (c : UInt8) (cs : List UInt8) : Instr (Mem P) Pc Unit :=
  if c ≠ 0 ∧ (d.input.e - d.input.r).toNat < INPUT_BUF then
    let c := if c = RETURN then NEWLINE else c
    let d := d.put c
    if c = NEWLINE ∨ c = CTRL_D ∨ d.input.e = d.input.r + BitVec.ofNat 32 INPUT_BUF then
      .act d.commit (.committed cs)
    else .act d (.intr cs)
  else .act d (.intr cs)

/-- One round of the loop of `consoleintr`. -/
def consoleintr (d : Mem P) : List UInt8 → Instr (Mem P) Pc Unit
  | [] => .release d .idle
  | c :: cs =>
    if c = CTRL_P then .act d (.intr cs)
    else if c = CTRL_U then .act d (.killLine cs)
    else if c = CTRL_H ∨ c = DELETE then
      if d.input.e ≠ d.input.w then .act d.erase (.intr cs) else .act d (.intr cs)
    else consoleintrPut d c cs

def killLine (d : Mem P) (cs : List UInt8) : Instr (Mem P) Pc Unit :=
  if d.input.e ≠ d.input.w ∧ d.input.buf ((d.input.e - 1).toNat % INPUT_BUF) ≠ NEWLINE then
    .act d.erase (.killLine cs)
  else .act d (.intr cs)

/-- One round of the loop of `consoleread`. -/
def consoleread (p : P) (d : Mem P) (target n : ℤ) : Instr (Mem P) Pc Unit :=
  if n > 0 then
    if d.input.r = d.input.w then
      if d.killed p then .release (d.emit (.readRet p (-1))) .idle else .sleep () (.read target n)
    else if d.input.head = CTRL_D then
      if n < target then .act { d with input := d.input.skip.back } (.readDone target n)
      else .act (d.eof p) (.readDone target n)
    else if d.input.head = NEWLINE then .act (d.deliver p) (.readDone target (n - 1))
    else .act (d.deliver p) (.read target (n - 1))
  else .act d (.readDone target n)

def next (p : P) (call : Call) (pc : Pc) (d : Mem P) : Instr (Mem P) Pc Unit :=
  match pc with
  | .idle =>
    match call with
    | .consoleintr cs => .acquire d (.intr cs)
    | .consoleread n => .acquire d (.read n n)
  | .intr cs => consoleintr d cs
  | .killLine cs => killLine d cs
  | .committed cs => .wakeup () (.intr cs)
  | .read target n => consoleread p d target n
  | .readDone target n => .release (d.emit (.readRet p (target - n))) .idle

theorem Input.skip_back (s : Input) : s.skip.back = s := by
  simp [skip, back]

/-- All that a process, or an interrupt, can do next. -/
inductive Move (p : P) (d : Mem P) : Pc → Instr (Mem P) Pc Unit → Prop
  | callIntr (cs) : Move p d .idle (.acquire d (.intr cs))
  | callRead (n) : Move p d .idle (.acquire d (.read n n))
  | intrDone : Move p d (.intr []) (.release d .idle)
  | ignore (c cs pc) : pc = .intr cs ∨ pc = .killLine cs → Move p d (.intr (c :: cs)) (.act d pc)
  | backspace (c cs) : d.input.w ≠ d.input.e → Move p d (.intr (c :: cs)) (.act d.erase (.intr cs))
  | put (c c' cs) : (d.input.e - d.input.r).toNat < INPUT_BUF →
      Move p d (.intr (c :: cs)) (.act (d.put c') (.intr cs))
  | commit (c c' cs) : (d.input.e - d.input.r).toNat < INPUT_BUF →
      Move p d (.intr (c :: cs)) (.act (d.put c').commit (.committed cs))
  | kill (cs) : d.input.w ≠ d.input.e → Move p d (.killLine cs) (.act d.erase (.killLine cs))
  | killDone (cs) : Move p d (.killLine cs) (.act d (.intr cs))
  | wakeup (cs) : Move p d (.committed cs) (.wakeup () (.intr cs))
  | readKilled (target n) : Move p d (.read target n) (.release (d.emit (.readRet p (-1))) .idle)
  | readSleep (target n) : d.input.r = d.input.w →
      Move p d (.read target n) (.sleep () (.read target n))
  | readBack (target n) : d.input.head = CTRL_D → n < target →
      Move p d (.read target n) (.act d (.readDone target n))
  | readEof (target n) : d.input.r ≠ d.input.w → d.input.head = CTRL_D → ¬ n < target →
      Move p d (.read target n) (.act (d.eof p) (.readDone target n))
  | readByte (target n pc) : d.input.r ≠ d.input.w → d.input.head ≠ CTRL_D →
      pc = .read target (n - 1) ∨ pc = .readDone target (n - 1) →
      Move p d (.read target n) (.act (d.deliver p) pc)
  | readAll (target n) : Move p d (.read target n) (.act d (.readDone target n))
  | readDone (target n) :
      Move p d (.readDone target n) (.release (d.emit (.readRet p (target - n))) .idle)

theorem consoleintrPut_move (p : P) (d : Mem P) (c : UInt8) (cs : List UInt8) :
    Move p d (.intr (c :: cs)) (consoleintrPut d c cs) := by
  unfold consoleintrPut
  split
  · rename_i h
    generalize (if c = RETURN then NEWLINE else c) = c'
    dsimp only
    split
    · exact .commit _ _ _ h.2
    · exact .put _ _ _ h.2
  · exact .ignore _ _ _ (.inl rfl)

theorem consoleintr_move (p : P) (d : Mem P) (cs : List UInt8) :
    Move p d (.intr cs) (consoleintr d cs) := by
  cases cs with
  | nil => exact .intrDone
  | cons c cs =>
    simp only [consoleintr]
    split_ifs with _ _ _ he
    · exact .ignore _ _ _ (.inl rfl)
    · exact .ignore _ _ _ (.inr rfl)
    · exact .backspace _ _ he.symm
    · exact .ignore _ _ _ (.inl rfl)
    · exact consoleintrPut_move p d c cs

theorem consoleread_move (p : P) (d : Mem P) (target n : ℤ) :
    Move p d (.read target n) (consoleread p d target n) := by
  unfold consoleread
  rw [Input.skip_back]
  split_ifs with _ hr _ hd hn hl
  · exact .readKilled _ _
  · exact .readSleep _ _ hr
  · exact .readBack _ _ hd hn
  · exact .readEof _ _ hr hd hn
  · exact .readByte _ _ _ hr hd (.inr rfl)
  · exact .readByte _ _ _ hr hd (.inl rfl)
  · exact .readAll _ _

theorem next_move (p : P) (call : Call) (pc : Pc) (d : Mem P) : Move p d pc (next p call pc d) := by
  cases pc with
  | idle =>
    cases call with
    | consoleintr cs => exact .callIntr cs
    | consoleread n => exact .callRead n
  | intr cs => exact consoleintr_move p d cs
  | killLine cs =>
    simp only [next, killLine]
    split_ifs with h
    · exact .kill cs h.1.symm
    · exact .killDone cs
  | committed cs => exact .wakeup cs
  | read target n => exact consoleread_move p d target n
  | readDone target n => exact .readDone target n

theorem Move.of_next {p : P} {call : Call} {pc : Pc} {d : Mem P} {i : Instr (Mem P) Pc Unit}
    (h : (.ok (next p call pc d) : Except Empty _) = .ok i) : Move p d pc i :=
  Except.ok.inj h ▸ next_move p call pc d

/-- The interrupts and the readers of the console, as a program of `cons.lock`. -/
def program (P : Type) [DecidableEq P] : Program P Call Empty (Mem P) Pc Unit Empty where
  next p call pc d := .ok (next p call pc d)
  env := nofun
  kill p d := { d with killed := update d.killed p true }
  inside pc := pc ≠ .idle
  bracketed := by
    intro p call pc d i h
    cases Move.of_next h with
    | ignore c cs pc' hpc => rcases hpc with rfl | rfl <;> simp [Instr.Bracketed]
    | readByte target n pc' _ _ hpc => rcases hpc with rfl | rfl <;> simp [Instr.Bracketed]
    | _ => simp [Instr.Bracketed]

def init (buf : ℕ → UInt8) (killed : P → Bool) : State P (Mem P) Pc Unit :=
  .init ⟨⟨buf, 0, 0, 0⟩, killed, []⟩ .idle

end Xv6Bfs.Console

import Xv6Bfs.Lib.Execution
import Mathlib.Data.Int.Notation
import Mathlib.Logic.Function.Basic

namespace Xv6Bfs.Log

open Lib.Execution

def MAXOPBLOCKS : ℕ := 10

def LOGSIZE : ℕ := MAXOPBLOCKS * 3

/-- The next thing to do in a call of `commit`. The loops of `write_log` and `install_trans`
are at `tail`. -/
inductive Stage
  | test
  | writeLog (tail : ℕ)
  | writeHead
  | installTrans (tail : ℕ)
  | clear
  | eraseHead
  | done
  deriving DecidableEq, Repr

/-- Where a process is: about to test whether it may begin, in `sleep(&log, &log.lock)`,
between its `begin_op` and its `end_op`, in `log_write` after the first or after both
checks, or in the part of `end_op` that commits. -/
inductive Pc
  | idle
  | beginOp
  | asleep
  | inOp
  | logWriteTest (blockno : ℕ)
  | logWriteLock (blockno : ℕ)
  | commit (stage : Stage)
  deriving DecidableEq, Repr

inductive Event
  | logged (op blockno txn : ℕ)
  | header (txn : ℕ) (block : List ℕ)
  deriving DecidableEq, Repr

/-- The fields of `struct log` that change, with `lh.block[0..n-1]` as a list. From `op` on
there are the histories that the properties speak about: the number of the operation that
a process is in, the block numbers it has called `log_write` for, and the number of headers
written so far. -/
structure State (P : Type) where
  outstanding : ℤ
  committing : Bool
  lh : List ℕ
  pc : P → Pc
  op : P → ℕ
  nextOp : ℕ
  called : P → List ℕ
  txn : ℕ
  hist : List Event

inductive Stop
  | tooBigTransaction
  | outsideOfTrans
  | logCommitting
  | overflow
  | disabled
  deriving DecidableEq, Repr

/-- What a process does between two moments at which another one may run: a critical section
under `log.lock`, or one access outside of it. -/
inductive Act (P : Type)
  | call (p : P)
  | beginOp (p : P)
  | kill (p : P)
  | logWrite (p : P) (blockno : ℕ)
  | logWriteTest (p : P)
  | logWriteLock (p : P)
  | endOp (p : P)
  | commit (p : P)
  deriving DecidableEq, Repr

namespace State

variable {P : Type} [DecidableEq P]

def goto (s : State P) (p : P) (pc : Pc) : State P := { s with pc := Function.update s.pc p pc }

def wakeup (s : State P) : State P :=
  { s with pc := fun q ↦ if s.pc q = .asleep then .beginOp else s.pc q }

/-- Once around the loop of `begin_op`. -/
def beginOp (s : State P) (p : P) : State P :=
  if s.committing then s.goto p .asleep
  else if (s.lh.length : ℤ) + (s.outstanding + 1) * MAXOPBLOCKS > LOGSIZE then s.goto p .asleep
  else
    { s.goto p .inOp with
      outstanding := s.outstanding + 1
      op := Function.update s.op p s.nextOp
      nextOp := s.nextOp + 1
      called := Function.update s.called p [] }

def logWrite (size : ℤ) (s : State P) (p : P) (blockno : ℕ) : Except Stop (State P) :=
  if s.lh.length ≥ LOGSIZE ∨ (s.lh.length : ℤ) ≥ size - 1 then .error .tooBigTransaction
  else .ok { s.goto p (.logWriteTest blockno) with
    called := Function.update s.called p ((s.called p).insert blockno) }

def logWriteTest (s : State P) (p : P) (blockno : ℕ) : Except Stop (State P) :=
  if s.outstanding < 1 then .error .outsideOfTrans else .ok (s.goto p (.logWriteLock blockno))

/-- The rest of `log_write`. The search ends at the index of the block number, or at `n`. -/
def logWriteLock (s : State P) (p : P) (blockno : ℕ) : Except Stop (State P) :=
  let i := s.lh.idxOf blockno
  let s := { s.goto p .inOp with hist := .logged (s.op p) blockno s.txn :: s.hist }
  if i = s.lh.length then
    if i < LOGSIZE then .ok { s with lh := s.lh ++ [blockno] } else .error .overflow
  else .ok { s with lh := s.lh.set i blockno }

/-- The first critical section of `end_op`. -/
def endOp (s : State P) (p : P) : Except Stop (State P) :=
  let s := { s with outstanding := s.outstanding - 1 }
  if s.committing then .error .logCommitting
  else if s.outstanding = 0 then .ok { s.goto p (.commit .test) with committing := true }
  else .ok (s.wakeup.goto p .idle)

/-- One step of `commit`, and in the end the second critical section of `end_op`. -/
def commit (s : State P) (p : P) : Stage → State P
  | .test => s.goto p (.commit (if s.lh.length > 0 then .writeLog 0 else .done))
  | .writeLog tail =>
    s.goto p (.commit (if tail < s.lh.length then .writeLog (tail + 1) else .writeHead))
  | .writeHead =>
    { s.goto p (.commit (.installTrans 0)) with
      txn := s.txn + 1
      hist := .header s.txn s.lh :: s.hist }
  | .installTrans tail =>
    s.goto p (.commit (if tail < s.lh.length then .installTrans (tail + 1) else .clear))
  | .clear => { s.goto p (.commit .eraseHead) with lh := [] }
  | .eraseHead => s.goto p (.commit .done)
  | .done => { s.wakeup.goto p .idle with committing := false }

def step (size : ℤ) : Act P → State P → Except Stop (State P)
  | .call p, s => if s.pc p = .idle then .ok (s.goto p .beginOp) else .error .disabled
  | .beginOp p, s => if s.pc p = .beginOp then .ok (s.beginOp p) else .error .disabled
  | .kill p, s => if s.pc p = .asleep then .ok (s.goto p .beginOp) else .error .disabled
  | .logWrite p blockno, s =>
    if s.pc p = .inOp then s.logWrite size p blockno else .error .disabled
  | .logWriteTest p, s =>
    match s.pc p with
    | .logWriteTest blockno => s.logWriteTest p blockno
    | _ => .error .disabled
  | .logWriteLock p, s =>
    match s.pc p with
    | .logWriteLock blockno => s.logWriteLock p blockno
    | _ => .error .disabled
  | .endOp p, s => if s.pc p = .inOp then s.endOp p else .error .disabled
  | .commit p, s =>
    match s.pc p with
    | .commit stage => .ok (s.commit p stage)
    | _ => .error .disabled

/-- The state after `initlog` has recovered. -/
def init : State P where
  outstanding := 0
  committing := false
  lh := []
  pc := fun _ ↦ .idle
  op := fun _ ↦ 0
  nextOp := 0
  called := fun _ ↦ []
  txn := 0
  hist := []

def Reachable (size : ℤ) (s : State P) : Prop := ∃ l, exec (step size) l init = .ok s

section

variable {s s' : State P} {p : P} {size : ℤ}

@[grind =]
def Full (s : State P) : Prop :=
  (s.lh.length : ℤ) + (s.outstanding + 1) * MAXOPBLOCKS > LOGSIZE

theorem logWriteLock_eq {blockno : ℕ}
    (he : s.logWriteLock p blockno = .ok s') :
    s' = { s.goto p .inOp with
      hist := .logged (s.op p) blockno s.txn :: s.hist
      lh := if blockno ∈ s.lh then s.lh else s.lh ++ [blockno] } := by
  simp only [logWriteLock] at he
  split at he
  · rename_i hout
    have hnew : blockno ∉ s.lh := List.idxOf_eq_length_iff.mp hout
    split at he
    · cases he
      simp [hnew, goto]
    · cases he
  · rename_i hin
    have hmem : blockno ∈ s.lh := by
      by_contra hnew
      exact hin (List.idxOf_eq_length_iff.mpr hnew)
    have hset : s.lh.set (s.lh.idxOf blockno) blockno = s.lh := by
      have hlt := List.idxOf_lt_length_iff.mpr hmem
      have hget := List.set_getElem_self hlt
      rwa [List.getElem_idxOf hlt] at hget
    cases he
    simp [hmem, goto, hset]

/-- What each action can do. -/
inductive Step (size : ℤ) (s : State P) : Act P → State P → Prop
  | call (p : P) (hp : s.pc p = .idle) : Step size s (.call p) (s.goto p .beginOp)
  | kill (p : P) (hp : s.pc p = .asleep) : Step size s (.kill p) (s.goto p .beginOp)
  | sleep (p : P) (hp : s.pc p = .beginOp) (hs : s.committing = true ∨ s.Full) :
    Step size s (.beginOp p) (s.goto p .asleep)
  | reserve (p : P) (hp : s.pc p = .beginOp) (hc : s.committing = false) (hs : ¬ s.Full) :
    Step size s (.beginOp p) { s.goto p .inOp with
      outstanding := s.outstanding + 1
      op := Function.update s.op p s.nextOp
      nextOp := s.nextOp + 1
      called := Function.update s.called p [] }
  | logWrite (p : P) (blockno : ℕ) (hp : s.pc p = .inOp) (hn : s.lh.length < LOGSIZE)
    (hsize : (s.lh.length : ℤ) < size - 1) :
    Step size s (.logWrite p blockno) { s.goto p (.logWriteTest blockno) with
      called := Function.update s.called p ((s.called p).insert blockno) }
  | logWriteTest (p : P) (blockno : ℕ) (hp : s.pc p = .logWriteTest blockno) :
    Step size s (.logWriteTest p) (s.goto p (.logWriteLock blockno))
  | logWriteLock (p : P) (blockno : ℕ) (hp : s.pc p = .logWriteLock blockno) :
    Step size s (.logWriteLock p) { s.goto p .inOp with
      hist := .logged (s.op p) blockno s.txn :: s.hist
      lh := if blockno ∈ s.lh then s.lh else s.lh ++ [blockno] }
  | endOp (p : P) (hp : s.pc p = .inOp) (hc : s.committing = false) (ho : s.outstanding ≠ 1) :
    Step size s (.endOp p) { s.wakeup.goto p .idle with outstanding := s.outstanding - 1 }
  | endLast (p : P) (hp : s.pc p = .inOp) (hc : s.committing = false) (ho : s.outstanding = 1) :
    Step size s (.endOp p) { s.goto p (.commit .test) with outstanding := 0, committing := true }
  | commit (p : P) (st : Stage) (hp : s.pc p = .commit st) :
    Step size s (.commit p) (s.commit p st)

theorem beginOp_step (hp : s.pc p = .beginOp) :
    Step size s (.beginOp p) (s.beginOp p) := by
  unfold beginOp
  split
  · exact .sleep p hp (.inl ‹_›)
  split
  · exact .sleep p hp (.inr ‹_›)
  · exact .reserve p hp (by simp_all) ‹_›

theorem logWrite_step {blockno : ℕ} (hp : s.pc p = .inOp)
    (he : s.logWrite size p blockno = .ok s') : Step size s (.logWrite p blockno) s' := by
  unfold logWrite at he
  split at he
  · cases he
  · cases he
    exact .logWrite p blockno hp (by omega) (by omega)

theorem endOp_step (hp : s.pc p = .inOp) (he : s.endOp p = .ok s') :
    Step size s (.endOp p) s' := by
  simp only [endOp] at he
  split at he
  · cases he
  split at he
  · cases he
    rename_i hc ho
    have hstep : Step size s (.endOp p) _ := .endLast p hp (by simpa using hc) (by omega)
    simpa only [goto, ho] using hstep
  · cases he
    exact .endOp p hp (by simp_all) (by omega)

theorem step_cases {act : Act P} (he : step size act s = .ok s') :
    Step size s act s' := by
  cases act with
  | call p =>
    simp only [step] at he
    split at he <;> cases he
    exact .call p ‹_›
  | beginOp p =>
    simp only [step] at he
    split at he <;> cases he
    exact beginOp_step ‹_›
  | kill p =>
    simp only [step] at he
    split at he <;> cases he
    exact .kill p ‹_›
  | logWrite p blockno =>
    simp only [step] at he
    split at he
    · exact logWrite_step ‹_› he
    · cases he
  | logWriteTest p =>
    simp only [step, logWriteTest] at he
    split at he
    · split at he <;> cases he
      exact .logWriteTest p _ ‹_›
    · cases he
  | logWriteLock p =>
    simp only [step] at he
    split at he
    · rw [logWriteLock_eq he]
      exact .logWriteLock p _ ‹_›
    · cases he
  | endOp p =>
    simp only [step] at he
    split at he
    · exact endOp_step ‹_› he
    · cases he
  | commit p =>
    simp only [step] at he
    split at he <;> cases he
    exact .commit p _ ‹_›

end

end State

end Xv6Bfs.Log

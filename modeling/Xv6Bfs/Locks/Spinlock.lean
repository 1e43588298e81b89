import Mathlib.Data.Finset.Card
import Xv6Bfs.Lib.Execution

namespace Xv6Bfs.Locks.Spinlock

open Lib.Execution Function

/-- The fields of `struct cpu` that spin locks use, and `FL_IF` of the flags register. -/
structure Cpu where
  ncli : ℤ
  intena : Bool
  fl : Bool
  deriving DecidableEq, Repr

inductive Panic
  | acquire
  | release
  | popcli
  | popcliInterruptible
  | mycpu
  | schedPtable
  | schedLocks
  | schedRunning
  | schedInterruptible
  deriving DecidableEq, Repr

namespace Cpu

/-- `pushcli` after `readeflags`, which has returned `eflags`. -/
def pushcliFrom (eflags : Bool) (c : Cpu) : Cpu :=
  let c := { c with fl := false }
  let c := if c.ncli = 0 then { c with intena := eflags } else c
  { c with ncli := c.ncli + 1 }

/-- `pushcli` without an interrupt in between. -/
def pushcli (c : Cpu) : Cpu := c.pushcliFrom c.fl

def popcli (c : Cpu) : Except Panic Cpu :=
  if c.fl then .error .popcliInterruptible
  else
    let c := { c with ncli := c.ncli - 1 }
    if c.ncli < 0 then .error .popcli
    else if c.ncli = 0 ∧ c.intena then .ok { c with fl := true }
    else .ok c

end Cpu

/-- The calls that begin with `pushcli`. An interrupt may still come after `readeflags`. -/
inductive Call (L : Type)
  | acquire (l : L)
  | myproc
  deriving DecidableEq, Repr

/-- A kernel thread. `pending` is a call that has read the flags, `frames` has the pending calls of
the code that was interrupted, and `saved` is the variable `intena` of a `sched` that has switched to
the scheduler. `entry` is not in memory: the flag at the outermost `acquire`. -/
structure Thread (L : Type) where
  pending : Option (Call L × Bool)
  frames : List (Option (Call L × Bool))
  saved : Option Bool
  entry : Option Bool

/-- One processor. `locks` are the locks with `locked` set, and `running` is `none` for the
scheduler. -/
structure State (T L : Type) where
  cpu : Cpu
  locks : Finset L
  running : Option T
  thread : Option T → Thread L

/-- The steps of a run. `setfl` is a change of the flag by other means than spin locks: `sti`, `cli`,
the entry to the kernel and the return to a program. -/
inductive Action (T L : Type)
  | readeflags (c : Call L)
  | proceed
  | release (l : L)
  | sched (isRunning : Bool)
  | swtch (t : T)
  | setfl (fl : Bool)
  | interrupt
  | iret
  deriving DecidableEq, Repr

variable {T L : Type} [DecidableEq T] [DecidableEq L]

namespace State

def me (s : State T L) : Thread L := s.thread s.running

def put (s : State T L) (cpu : Cpu) (locks : Finset L) (th : Thread L) : State T L :=
  ⟨cpu, locks, s.running, update s.thread s.running th⟩

/-- `acquire(l)` after `readeflags`. -/
def acquire (l : L) (eflags : Bool) (s : State T L) : Except Panic (State T L) := do
  let cpu := s.cpu.pushcliFrom eflags
  -- holding(lk)
  let cpu ← cpu.pushcli.popcli
  if l ∈ s.locks then .error .acquire
  else .ok (s.put cpu (insert l s.locks) { s.me with
    pending := none, entry := if s.locks = ∅ then some eflags else s.me.entry })

/-- `myproc()` after `readeflags`. -/
def myproc (eflags : Bool) (s : State T L) : Except Panic (State T L) := do
  let cpu ← (s.cpu.pushcliFrom eflags).popcli
  .ok (s.put cpu s.locks { s.me with pending := none })

def release (l : L) (s : State T L) : Except Panic (State T L) := do
  -- holding(lk)
  let cpu ← s.cpu.pushcli.popcli
  if l ∉ s.locks then .error .release
  else do
    let cpu ← cpu.popcli
    .ok (s.put cpu (s.locks.erase l) { s.me with
      entry := if s.locks.erase l = ∅ then none else s.me.entry })

/-- `sched()` up to `swtch`. `isRunning` says whether `p->state == RUNNING`. -/
def sched (ptable : L) (isRunning : Bool) (s : State T L) : Except Panic (State T L) := do
  -- myproc() and holding(&ptable.lock)
  let cpu ← s.cpu.pushcli.popcli
  let cpu ← cpu.pushcli.popcli
  if ptable ∉ s.locks then .error .schedPtable
  else if cpu.fl then .error .mycpu
  else if cpu.ncli ≠ 1 then .error .schedLocks
  else if isRunning then .error .schedRunning
  else if cpu.fl then .error .schedInterruptible
  else .ok { s.put cpu s.locks { s.me with saved := some cpu.intena } with running := none }

/-- The scheduler switches to `t`. A thread that is in `sched` sets `intena` again, and a new one
begins in `forkret`. -/
def swtch (t : T) (s : State T L) : State T L :=
  let th := s.thread (some t)
  { s with
    running := some t
    cpu := { s.cpu with intena := th.saved.getD s.cpu.intena }
    thread := update s.thread (some t) { th with saved := none } }

end State

def step (ptable : L) : Action T L → State T L → Except Panic (State T L)
  | .readeflags c, s => .ok (s.put s.cpu s.locks { s.me with pending := some (c, s.cpu.fl) })
  | .proceed, s =>
    match s.me.pending with
    | none => .ok s
    | some (.acquire l, eflags) => s.acquire l eflags
    | some (.myproc, eflags) => s.myproc eflags
  | .release l, s => s.release l
  | .sched isRunning, s => s.sched ptable isRunning
  | .swtch t, s => .ok (s.swtch t)
  | .setfl fl, s => .ok { s with cpu := { s.cpu with fl := fl } }
  | .interrupt, s =>
    if s.cpu.fl then
      .ok (s.put { s.cpu with fl := false } s.locks { s.me with
        pending := none, frames := s.me.pending :: s.me.frames })
    else .ok s
  | .iret, s =>
    match s.me.frames with
    | [] => .ok s
    | pending :: frames =>
      .ok (s.put { s.cpu with fl := true } s.locks { s.me with pending := pending, frames := frames })

/-- A thread finishes a call before it begins another step. A process calls `sched` while it has one
lock, and the scheduler switches while it has `ptable.lock` only. The flag is changed by other means
only without locks. -/
def Allowed (ptable : L) : Action T L → State T L → Prop
  | .readeflags _, s => s.me.pending = none
  | .proceed, _ => True
  | .release _, s => s.me.pending = none
  | .sched _, s => s.me.pending = none ∧ s.running ≠ none ∧ s.locks.card = 1
  | .swtch _, s => s.me.pending = none ∧ s.running = none ∧ s.locks = {ptable}
  | .setfl _, s => s.me.pending = none ∧ s.locks = ∅
  | .interrupt, _ => True
  | .iret, s => s.me.pending = none ∧ s.locks = ∅

instance decidableAllowed (ptable : L) (a : Action T L) (s : State T L) : Decidable (Allowed ptable a s) :=
  match a with
  | .readeflags _ => inferInstanceAs (Decidable (_ = _))
  | .proceed => inferInstanceAs (Decidable True)
  | .release _ => inferInstanceAs (Decidable (_ = _))
  | .sched _ => inferInstanceAs (Decidable (_ ∧ _ ∧ _))
  | .swtch _ => inferInstanceAs (Decidable (_ ∧ _ ∧ _))
  | .setfl _ => inferInstanceAs (Decidable (_ ∧ _))
  | .interrupt => inferInstanceAs (Decidable True)
  | .iret => inferInstanceAs (Decidable (_ ∧ _))

def boot (intena fl : Bool) : State T L := ⟨⟨0, intena, fl⟩, ∅, none, fun _ ↦ ⟨none, [], none, none⟩⟩

end Xv6Bfs.Locks.Spinlock

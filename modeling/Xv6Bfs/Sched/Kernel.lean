import Xv6Bfs.Sched.SkipList
import Mathlib.Data.List.FinRange
import Mathlib.Tactic.Simps.Basic

namespace Xv6Bfs.Sched

open Lib.Execution

inductive ProcState
  | UNUSED
  | EMBRYO
  | SLEEPING
  | RUNNABLE
  | RUNNING
  | ZOMBIE
  deriving DecidableEq, Repr

/-- The `void *` that a process sleeps on. -/
inductive Chan
  | null
  | proc (p : ProcId)
  | ticks
  | obj (n : ℕ)
  deriving DecidableEq, Repr

def Chan.ofProc : Option ProcId → Chan
  | none => .null
  | some p => .proc p

def Chan.Shared (chan : Chan) : Prop := chan ≠ .null ∧ ∀ p, chan ≠ .proc p

instance : DecidablePred Chan.Shared := fun _ ↦ inferInstanceAs (Decidable (_ ∧ _))

/-- Where `swtch(..., p->context)` goes on: `forkret`, or the code after the call of
`sched` in which the process gave up the CPU. -/
inductive Context
  | null
  | forkret
  | yield
  | sleep
  | wait
  | exit
  deriving DecidableEq, Repr

structure Proc where
  state : ProcState
  pid : ℤ
  parent : Option ProcId
  context : Context
  chan : Chan
  killed : Bool
  virtDeadline : ℤ
  nice : ℤ
  ticksLeft : ℤ
  deriving DecidableEq, Repr

/-- The next thing to do in a call of `nicefork` after `allocproc` has released the
lock. The local variable `pid` is known after it has been read. -/
inductive Stage
  | kstack
  | copyuvm
  | parent
  | pid
  | nice (pid : ℤ)
  | deadline (pid : ℤ)
  | insert (pid : ℤ)
  deriving DecidableEq, Repr

/-- What the kernel thread of a process is doing, as far as it matters between two
critical sections: it is inside `nicefork`, in `exit` before the table is locked, or
in `exit` between the two critical sections. -/
inductive Thread
  | other
  | nicefork (np : ProcId) (niceValue : ℤ) (stage : Stage)
  | closing
  | zombie
  deriving DecidableEq, Repr

inductive Phase
  | main
  | userinit (p : ProcId)
  | running
  deriving DecidableEq, Repr

/-- The history that properties of whole runs speak about. Callers are given by pid. -/
inductive Event
  | alloc (p : ProcId) (pid : ℤ)
  | deadline (p : ProcId) (tick : ℕ)
  | inserted (p : ProcId)
  | dispatched (p : ProcId)
  | idled
  | niceforkRet (caller ret : ℤ)
  | waitRet (caller ret : ℤ)
  | killRet (pid ret : ℤ)
  | exited (pid : ℤ)
  deriving DecidableEq, Repr

/-- The globals of `proc.c` and `trap.c` other than the skip list. `thread`, `phase` and
`log` (newest event first) are not in memory. -/
structure Core where
  proc : ProcId → Proc
  cpuProc : Option ProcId
  initproc : Option ProcId
  nextpid : ℤ
  ticks : ℕ
  thread : ProcId → Thread
  phase : Phase
  log : List Event

/-- What the kernel calls to keep the processes that can run. The first argument gives
the `virt_deadline` of every process. -/
structure RunQueue (Q : Type) where
  insert : (ProcId → ℤ) → ProcId → Q → Except Stop Q
  delete : (ProcId → ℤ) → ProcId → Q → Except Stop Q
  first : Q → Except Stop (Option ProcId)

structure Machine (Q : Type) extends Core where
  queue : Q

namespace Core

def deadline (s : Core) (p : ProcId) : ℤ := (s.proc p).virtDeadline

@[simps]
def upd (s : Core) (p : ProcId) (f : Proc → Proc) : Core :=
  { s with proc := Function.update s.proc p (f (s.proc p)) }

@[simps]
def emit (s : Core) (e : Event) : Core := { s with log := e :: s.log }

@[simps]
def setThread (s : Core) (p : ProcId) (th : Thread) : Core :=
  { s with thread := Function.update s.thread p th }

@[simps]
def setCpu (s : Core) (p : Option ProcId) : Core := { s with cpuProc := p }

@[simps]
def setInitproc (s : Core) (p : ProcId) : Core := { s with initproc := some p }

@[simps]
def setPhase (s : Core) (ph : Phase) : Core := { s with phase := ph }

@[simps]
def nextPid (s : Core) : Core := { s with nextpid := int32 (s.nextpid + 1) }

@[simps]
def tick (s : Core) : Core := { s with ticks := (s.ticks + 1) % 2 ^ 32 }

def setDeadline (s : Core) (p : ProcId) (nice : ℤ) : Core :=
  (s.upd p (fun x ↦ { x with virtDeadline := computevd nice s.ticks })).emit (.deadline p s.ticks)

attribute [grind =] deadline setDeadline Function.update_apply upd_proc upd_cpuProc upd_initproc
  upd_nextpid upd_ticks upd_thread upd_phase upd_log emit_proc emit_cpuProc emit_initproc
  emit_nextpid emit_ticks emit_thread emit_phase emit_log setThread_proc setThread_cpuProc
  setThread_initproc setThread_nextpid setThread_ticks setThread_thread setThread_phase
  setThread_log setCpu_proc setCpu_cpuProc setCpu_initproc setCpu_nextpid setCpu_ticks
  setCpu_thread setCpu_phase setCpu_log setInitproc_proc setInitproc_cpuProc setInitproc_initproc
  setInitproc_nextpid setInitproc_ticks setInitproc_thread setInitproc_phase setInitproc_log
  setPhase_proc setPhase_cpuProc setPhase_initproc setPhase_nextpid setPhase_ticks setPhase_thread
  setPhase_phase setPhase_log nextPid_proc nextPid_cpuProc nextPid_initproc nextPid_nextpid
  nextPid_ticks nextPid_thread nextPid_phase nextPid_log tick_proc tick_cpuProc tick_initproc
  tick_nextpid tick_ticks tick_thread tick_phase tick_log

theorem deadline_upd (s : Core) (p : ProcId) (f : Proc → Proc) :
    (s.upd p f).deadline = Function.update s.deadline p (f (s.proc p)).virtDeadline := by
  funext q
  simp only [deadline, upd_proc, Function.update_apply]
  split <;> rfl

theorem deadline_upd_same {s : Core} {p : ProcId} {f : Proc → Proc}
    (hf : (f (s.proc p)).virtDeadline = s.deadline p) : (s.upd p f).deadline = s.deadline := by
  rw [deadline_upd, hf, Function.update_eq_self]

def current (s : Core) : Except Stop ProcId :=
  match s.cpuProc with
  | none => .error .disabled
  | some p => if (s.proc p).state = .RUNNING then .ok p else .error .disabled

def currentIn (s : Core) (places : Thread → Bool) : Except Stop ProcId := do
  let p ← s.current
  if places (s.thread p) then .ok p else .error .disabled

def zombieChild (s : Core) (p : ProcId) : Option ProcId :=
  (List.finRange NPROC).find? (fun q ↦ (s.proc q).parent = some p ∧ (s.proc q).state = .ZOMBIE)

def unusedSlot (s : Core) : Option ProcId :=
  (List.finRange NPROC).find? (fun p ↦ (s.proc p).state = .UNUSED)

def slotOf (s : Core) (pid : ℤ) : Option ProcId :=
  (List.finRange NPROC).find? (fun p ↦ (s.proc p).pid = pid)

end Core

def ValidNice (niceValue : ℤ) : Prop :=
  NICE_FIRST_LEVEL ≤ niceValue ∧ niceValue ≤ NICE_LAST_LEVEL

instance : DecidablePred ValidNice := fun _ ↦ inferInstanceAs (Decidable (_ ∧ _))

namespace Machine

variable {Q : Type}

def on (s : Machine Q) (f : Core → Core) : Machine Q := { f s.toCore with queue := s.queue }

@[simp, grind =] theorem on_toCore (s : Machine Q) (f : Core → Core) : (s.on f).toCore = f s.toCore := rfl

@[simp, grind =] theorem on_queue (s : Machine Q) (f : Core → Core) : (s.on f).queue = s.queue := rfl

def insert (rq : RunQueue Q) (p : ProcId) (s : Machine Q) : Except Stop (Machine Q) := do
  let q ← rq.insert s.deadline p s.queue
  .ok { s.emit (.inserted p) with queue := q }

def delete (rq : RunQueue Q) (p : ProcId) (s : Machine Q) : Except Stop (Machine Q) := do
  let q ← rq.delete s.deadline p s.queue
  .ok { s with queue := q }

/-- `sched()`, and the end of the turn of `scheduler` that it goes back to. -/
def sched (ctx : Context) (p : ProcId) (s : Machine Q) : Except Stop (Machine Q) :=
  if (s.proc p).state = .RUNNING then .error (.panic .schedRunning)
  else .ok (s.on (fun c ↦ (c.upd p (fun x ↦ { x with context := ctx })).setCpu none))

def ready (rq : RunQueue Q) (p : ProcId) (s : Machine Q) : Except Stop (Machine Q) :=
  (s.on (·.upd p (fun x ↦ { x with state := .RUNNABLE }))).insert rq p

/-- `if (p->state == RUNNABLE || p->state == RUNNING) delete(&ptable, p);` -/
def dequeue (rq : RunQueue Q) (p : ProcId) (s : Machine Q) : Except Stop (Machine Q) :=
  if (s.proc p).state = .RUNNABLE ∨ (s.proc p).state = .RUNNING then s.delete rq p else .ok s

def wakeOne (rq : RunQueue Q) (chan : Chan) (p : ProcId) (s : Machine Q) :
    Except Stop (Machine Q) :=
  if (s.proc p).state = .SLEEPING ∧ (s.proc p).chan = chan then s.ready rq p else .ok s

def wakeup1 (rq : RunQueue Q) (chan : Chan) (s : Machine Q) : Except Stop (Machine Q) :=
  exec (wakeOne rq chan) (List.finRange NPROC) s

def yield (rq : RunQueue Q) (p : ProcId) (s : Machine Q) : Except Stop (Machine Q) := do
  let s := s.on (·.upd p (fun x ↦ { x with state := .RUNNABLE }))
  let s ← s.delete rq p
  let s := s.on (fun c ↦ c.setDeadline p (c.proc p).nice)
  let s ← s.insert rq p
  s.sched .yield p

/-- `sleep`, up to the switch to the scheduler. -/
def sleep (rq : RunQueue Q) (ctx : Context) (chan : Chan) (p : ProcId) (s : Machine Q) :
    Except Stop (Machine Q) := do
  let s ← (s.on (·.upd p (fun x ↦ { x with chan := chan }))).dequeue rq p
  let s := s.on (·.upd p (fun x ↦ { x with state := .SLEEPING }))
  s.sched ctx p

/-- One turn of the `for(;;)` loop of `wait`. -/
def wait (rq : RunQueue Q) (p : ProcId) (s : Machine Q) : Except Stop (Machine Q) :=
  match s.zombieChild p with
  | some q =>
    .ok (s.on (fun c ↦ (c.upd q (fun x ↦ { x with
      pid := 0, parent := none, killed := false, state := .UNUSED })).emit
        (.waitRet (c.proc p).pid (c.proc q).pid)))
  | none =>
    if (∀ q, (s.proc q).parent ≠ some p) ∨ (s.proc p).killed then
      .ok (s.on (fun c ↦ c.emit (.waitRet (c.proc p).pid (-1))))
    else s.sleep rq .wait (.proc p) p

/-- What a process does after `swtch` until it releases the lock. -/
def resume (rq : RunQueue Q) (p : ProcId) (s : Machine Q) : Except Stop (Machine Q) :=
  match (s.proc p).context with
  | .null => .error .nullProc
  | .forkret => .ok s
  | .yield => .ok s
  | .sleep => .ok (s.on (·.upd p (fun x ↦ { x with chan := .null })))
  | .wait => (s.on (·.upd p (fun x ↦ { x with chan := .null }))).wait rq p
  | .exit => .error (.panic .zombieExit)

/-- `c->proc = p`, `p->state = RUNNING` and `p->ticks_left = BFS_DEFAULT_QUANTUM`. -/
def dispatch (p : ProcId) (s : Machine Q) : Machine Q :=
  s.on (fun c ↦ ((c.setCpu p).upd p (fun x ↦ { x with
    state := .RUNNING, ticksLeft := BFS_DEFAULT_QUANTUM })).emit (.dispatched p))

/-- One turn of the `for (;;)` loop of `scheduler`. -/
def scheduler (rq : RunQueue Q) (s : Machine Q) : Except Stop (Machine Q) := do
  match ← rq.first s.queue with
  | none => .ok (s.on (·.emit .idled))
  | some p => (s.dispatch p).resume rq p

/-- The part of `exit` before `acquire(&ptable.lock)`. -/
def exit (p : ProcId) (s : Machine Q) : Except Stop (Machine Q) :=
  if s.initproc = some p then .error (.panic .initExiting)
  else .ok (s.on (·.setThread p .closing))

def reparentOne (rq : RunQueue Q) (curproc p : ProcId) (s : Machine Q) :
    Except Stop (Machine Q) :=
  if (s.proc p).parent = some curproc then
    let s := s.on (fun c ↦ c.upd p (fun x ↦ { x with parent := c.initproc }))
    if (s.proc p).state = .ZOMBIE then s.wakeup1 rq (.ofProc s.initproc) else .ok s
  else .ok s

/-- The first critical section of `exit`. -/
def exitZombie (rq : RunQueue Q) (p : ProcId) (s : Machine Q) : Except Stop (Machine Q) := do
  let s ← s.dequeue rq p
  let s ← s.wakeup1 rq (.ofProc (s.proc p).parent)
  let s ← exec (reparentOne rq p) (List.finRange NPROC) s
  .ok (s.on (fun c ↦ ((c.upd p (fun x ↦ { x with state := .ZOMBIE })).setThread p .zombie).emit
    (.exited (c.proc p).pid)))

/-- The second critical section of `exit`. -/
def exitSched (p : ProcId) (s : Machine Q) : Except Stop (Machine Q) := do
  let s ← s.sched .exit p
  .ok (s.on (·.setThread p .other))

/-- The critical section of `allocproc`, after the label `found`. -/
def allocproc (p : ProcId) (s : Machine Q) : Machine Q :=
  s.on (fun c ↦ (c.upd p (fun x ↦ { x with
    virtDeadline := 0, nice := 0, state := .EMBRYO, pid := c.nextpid })).nextPid.emit
      (.alloc p c.nextpid))

/-- `userinit` down to `initproc = p`; `kalloc` says whether `kalloc()` succeeds. -/
def userinit (kalloc : Bool) (s : Machine Q) : Except Stop (Machine Q) :=
  match s.unusedSlot with
  | none => .error .nullProc
  | some p =>
    if kalloc then
      .ok ((s.allocproc p).on (fun c ↦
        ((c.upd p (fun x ↦ { x with context := .forkret })).setInitproc p).setPhase (.userinit p)))
    else .error .nullProc

/-- The rest of `userinit`; `setupkvm` says whether `setupkvm()` succeeds. -/
def userinitRun (rq : RunQueue Q) (setupkvm : Bool) (p : ProcId) (s : Machine Q) :
    Except Stop (Machine Q) :=
  if setupkvm then
    let s := s.on (fun c ↦ (c.upd p (fun x ↦ { x with nice := 0 })).setDeadline p 0)
    (s.on (·.setPhase .running)).ready rq p
  else .error (.panic .userinitMemory)

/-- `nicefork` down to the end of the critical section of `allocproc`. -/
def nicefork (niceValue : ℤ) (p : ProcId) (s : Machine Q) : Except Stop (Machine Q) :=
  if ValidNice niceValue then
    match s.unusedSlot with
    | none => .ok (s.on (fun c ↦ c.emit (.niceforkRet (c.proc p).pid (-1))))
    | some np => .ok ((s.allocproc np).on (·.setThread p (.nicefork np niceValue .kstack)))
  else .error (.panic .invalidNice)

def niceforkFail (p np : ProcId) (s : Machine Q) : Machine Q :=
  s.on (fun c ↦ ((c.upd np (fun x ↦ { x with state := .UNUSED })).setThread p .other).emit
    (.niceforkRet (c.proc p).pid (-1)))

/-- One more step of `nicefork`; `mem` says whether an allocation in it succeeds. -/
def niceforkStep (rq : RunQueue Q) (mem : Bool) (p np : ProcId) (niceValue : ℤ) (stage : Stage)
    (s : Machine Q) : Except Stop (Machine Q) :=
  match stage with
  | .kstack =>
    if mem then .ok (s.on (fun c ↦ (c.upd np (fun x ↦ { x with context := .forkret })).setThread p
      (.nicefork np niceValue .copyuvm)))
    else .ok (s.niceforkFail p np)
  | .copyuvm =>
    if mem then .ok (s.on (·.setThread p (.nicefork np niceValue .parent)))
    else .ok (s.niceforkFail p np)
  | .parent => .ok (s.on (fun c ↦ (c.upd np (fun x ↦ { x with parent := some p })).setThread p
      (.nicefork np niceValue .pid)))
  | .pid => .ok (s.on (fun c ↦ c.setThread p (.nicefork np niceValue (.nice (c.proc np).pid))))
  | .nice pid => .ok (s.on (fun c ↦ (c.upd np (fun x ↦ { x with nice := niceValue })).setThread p
      (.nicefork np niceValue (.deadline pid))))
  | .deadline pid => .ok (s.on (fun c ↦ (c.setDeadline np niceValue).setThread p
      (.nicefork np niceValue (.insert pid))))
  | .insert pid => do
    let s ← s.ready rq np
    .ok (s.on (fun c ↦ (c.setThread p .other).emit (.niceforkRet (c.proc p).pid pid)))

def kill (rq : RunQueue Q) (pid : ℤ) (s : Machine Q) : Except Stop (Machine Q) :=
  match s.slotOf pid with
  | none => .ok (s.on (·.emit (.killRet pid (-1))))
  | some p =>
    let s := s.on (fun c ↦ (c.upd p (fun x ↦ { x with killed := true })).emit (.killRet pid 0))
    if (s.proc p).state = .SLEEPING then s.ready rq p else .ok s

/-- The timer interrupt; `user` says whether it comes in user mode. -/
def timer (rq : RunQueue Q) (user : Bool) (s : Machine Q) : Except Stop (Machine Q) := do
  let s ← (s.on (·.tick)).wakeup1 rq .ticks
  match s.cpuProc with
  | none => .ok s
  | some p =>
    if (s.proc p).killed ∧ user then s.exit p
    else if (s.proc p).state = .RUNNING then
      let s := s.on (·.upd p (fun x ↦ { x with ticksLeft := x.ticksLeft - 1 }))
      if (s.proc p).ticksLeft = 0 then s.yield rq p else .ok s
    else .ok s

end Machine

/-- The atomic steps of the system: what one CPU does between two moments at which
`ptable.lock` is free and an interrupt may come. -/
inductive Op
  | userinit (kalloc : Bool)
  | userinitRun (setupkvm : Bool)
  | scheduler
  | timer (user : Bool)
  | fault
  | nicefork (niceValue : ℤ)
  | niceforkStep (mem : Bool)
  | yield
  | sleep (chan : Chan)
  | wakeup (chan : Chan)
  | kill (pid : ℤ)
  | exit
  | exitZombie
  | exitSched
  | wait
  deriving DecidableEq, Repr

namespace Machine

variable {Q : Type}

def step (rq : RunQueue Q) : Op → Machine Q → Except Stop (Machine Q)
  | .userinit kalloc, s => if s.phase = .main then s.userinit kalloc else .error .disabled
  | .userinitRun setupkvm, s =>
    match s.phase with
    | .userinit p => s.userinitRun rq setupkvm p
    | _ => .error .disabled
  | .scheduler, s =>
    if s.phase = .running ∧ s.cpuProc = none then s.scheduler rq else .error .disabled
  | .timer false, s => if s.phase = .running then s.timer rq false else .error .disabled
  | .timer true, s => do
    let _ ← s.currentIn (· = .other)
    s.timer rq true
  | .fault, s => do
    let p ← s.currentIn (· = .other)
    (s.on (·.upd p (fun x ↦ { x with killed := true }))).exit p
  | .nicefork niceValue, s => do
    let p ← s.currentIn (· = .other)
    s.nicefork niceValue p
  | .niceforkStep mem, s => do
    let p ← s.current
    match s.thread p with
    | .nicefork np niceValue stage => s.niceforkStep rq mem p np niceValue stage
    | _ => .error .disabled
  | .yield, s => do
    let p ← s.currentIn (· = .other)
    s.yield rq p
  | .sleep chan, s => do
    let p ← s.currentIn (fun th ↦ th = .other ∨ th = .closing)
    if chan.Shared then s.sleep rq .sleep chan p else .error .disabled
  | .wakeup chan, s => if s.phase = .running then s.wakeup1 rq chan else .error .disabled
  | .kill pid, s => do
    let _ ← s.currentIn (· = .other)
    s.kill rq pid
  | .exit, s => do
    let p ← s.currentIn (· = .other)
    s.exit p
  | .exitZombie, s => do
    let p ← s.currentIn (· = .closing)
    s.exitZombie rq p
  | .exitSched, s =>
    match s.cpuProc with
    | none => .error .disabled
    | some p => if s.thread p = .zombie then s.exitSched p else .error .disabled
  | .wait, s => do
    let p ← s.currentIn (· = .other)
    s.wait rq p

end Machine

def skipQueue (env : Env) : RunQueue SkipList where
  insert vd p t := do
    let (t, _) ← t.insert env vd p
    .ok t
  delete vd p t := do
    let (t, _) ← t.delete env vd p
    .ok t
  first t := t.first

/-- The kernel of the source. Every step has its own outcomes of `random` and of the read
outside the array. -/
abbrev Kernel := Machine SkipList

namespace Kernel

def step (a : Op × Env) (s : Kernel) : Except Stop Kernel := Machine.step (skipQueue a.2) a.1 s

end Kernel

def Core.bss : Core where
  proc := fun _ ↦ ⟨.UNUSED, 0, none, .null, .null, false, 0, 0, 0⟩
  cpuProc := none
  initproc := none
  nextpid := 1
  ticks := 0
  thread := fun _ ↦ .other
  phase := .main
  log := []

/-- The state after `pinit`. -/
def boot (seed : BitVec 32) : Kernel := { Core.bss with queue := (SkipList.bss seed).pinit }

end Xv6Bfs.Sched

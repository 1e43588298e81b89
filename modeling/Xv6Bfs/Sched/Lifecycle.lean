import Xv6Bfs.Sched.Deadline
import Xv6Bfs.Sched.Refinement
import Mathlib.Logic.Relation

namespace Xv6Bfs.Sched

open Lib.Execution Lib.KeyedQueue

/-- Where the first critical section of `exit` stands: not entered, after the process
has been taken off the queue, or right after one of its children has got a new parent. -/
inductive Flux
  | stable
  | exiting (p : ProcId)
  | adopting (p child : ProcId)

@[grind]
def Flux.leaving : Flux → Option ProcId
  | .stable => none
  | .exiting p => some p
  | .adopting p _ => some p

@[grind]
def Stage.Adopted : Stage → Prop
  | .kstack | .copyuvm | .parent => False
  | .pid | .nice _ | .deadline _ | .insert _ => True

@[grind =]
def Core.AsleepInWait (c : Core) (q : ProcId) : Prop :=
  (c.proc q).state = .SLEEPING ∧ (c.proc q).chan = .proc q

/-- What can happen to a process that is on the queue or asleep. With `short` the clock
stays below `TICK_LIMIT`, with `kind` nobody kills a free slot. -/
inductive SchedMove (short kind : Prop) : Flux × EdfKernel → Flux × EdfKernel → Prop
  | tick {x a} (hs : short → a.ticks + 1 < TICK_LIMIT) :
    SchedMove short kind (x, a) (x, { a with ticks := (a.ticks + 1) % 2 ^ 32 })
  | wake {x a} (p : ProcId) (hp : (a.proc p).state = .SLEEPING) :
    SchedMove short kind (x, a) (x, { a with
      proc := Function.update a.proc p { a.proc p with state := .RUNNABLE }
      log := .inserted p :: a.log
      queue := enqueue a.deadline p a.queue })
  | idle {a} (hq : a.queue = []) :
    SchedMove short kind (.stable, a) (.stable, { a with log := .idled :: a.log })
  | dispatch {a} (p : ProcId) (hc : a.cpuProc = none) (hp : a.queue.head? = some p) :
    SchedMove short kind (.stable, a) (.stable, { a with
      proc := Function.update a.proc p { a.proc p with
        state := .RUNNING, ticksLeft := BFS_DEFAULT_QUANTUM }
      cpuProc := some p
      log := .dispatched p :: a.log })
  | touch {a} (p : ProcId) (chan : Chan) (ticksLeft : ℤ) (hp : (a.proc p).state = .RUNNING) :
    SchedMove short kind (.stable, a) (.stable, { a with
      proc := Function.update a.proc p { a.proc p with chan := chan, ticksLeft := ticksLeft } })
  | yield {a} (p : ProcId) (hp : (a.proc p).state = .RUNNING) :
    SchedMove short kind (.stable, a) (.stable, { a with
      proc := Function.update a.proc p { a.proc p with
        state := .RUNNABLE, virtDeadline := computevd (a.proc p).nice a.ticks, context := .yield }
      cpuProc := none
      log := .inserted p :: .deadline p a.ticks :: a.log
      queue := enqueue (Function.update a.deadline p (computevd (a.proc p).nice a.ticks)) p
        (a.queue.erase p) })
  | block {a} (p : ProcId) (ctx : Context) (chan : Chan) (hp : (a.proc p).state = .RUNNING)
    (ht : a.thread p = .other ∨ a.thread p = .closing) (hctx : ctx = .sleep ∨ ctx = .wait)
    (hchan : ∀ q, chan = .proc q → q = p ∧
      ∀ c, (a.proc c).parent = some p → (a.proc c).state ≠ .ZOMBIE) :
    SchedMove short kind (.stable, a) (.stable, { a with
      proc := Function.update a.proc p { a.proc p with
        state := .SLEEPING, chan := chan, context := ctx }
      cpuProc := none
      queue := a.queue.erase p })
  | fault {a} (p : ProcId) (hp : (a.proc p).state = .RUNNING) :
    SchedMove short kind (.stable, a) (.stable, { a with
      proc := Function.update a.proc p { a.proc p with killed := true } })
  | kill {a} (p : ProcId) (hk : kind → (a.proc p).state ≠ .UNUSED) :
    SchedMove short kind (.stable, a) (.stable, { a with
      proc := Function.update a.proc p { a.proc p with killed := true }
      log := .killRet (a.proc p).pid 0 :: a.log })
  | killNone {a} (pid : ℤ) :
    SchedMove short kind (.stable, a) (.stable, { a with log := .killRet pid (-1) :: a.log })

/-- What happens when a process is made. With `kind` no slot is given up with its killed
flag set. -/
inductive ForkMove (kind : Prop) : Flux × EdfKernel → Flux × EdfKernel → Prop
  | userinit {a} (p : ProcId) (hph : a.phase = .main) (hp : (a.proc p).state = .UNUSED) :
    ForkMove kind (.stable, a) (.stable, { a with
      proc := Function.update a.proc p { a.proc p with
        virtDeadline := 0, nice := 0, state := .EMBRYO, pid := a.nextpid, context := .forkret }
      nextpid := int32 (a.nextpid + 1)
      initproc := some p
      phase := .userinit p
      log := .alloc p a.nextpid :: a.log })
  | userinitRun {a} (p : ProcId) (hph : a.phase = .userinit p) :
    ForkMove kind (.stable, a) (.stable, { a with
      proc := Function.update a.proc p { a.proc p with
        nice := 0, virtDeadline := computevd 0 a.ticks, state := .RUNNABLE }
      phase := .running
      log := .inserted p :: .deadline p a.ticks :: a.log
      queue := enqueue (Function.update a.deadline p (computevd 0 a.ticks)) p a.queue })
  | noSlot {a} (c : ProcId) (hc : (a.proc c).state = .RUNNING) :
    ForkMove kind (.stable, a) (.stable, { a with
      log := .niceforkRet (a.proc c).pid (-1) :: a.log })
  | nicefork {a} (c np : ProcId) (niceValue : ℤ) (hn : ValidNice niceValue)
    (hc : (a.proc c).state = .RUNNING) (ht : a.thread c = .other)
    (hp : (a.proc np).state = .UNUSED) :
    ForkMove kind (.stable, a) (.stable, { a with
      proc := Function.update a.proc np { a.proc np with
        virtDeadline := 0, nice := 0, state := .EMBRYO, pid := a.nextpid }
      nextpid := int32 (a.nextpid + 1)
      thread := Function.update a.thread c (.nicefork np niceValue .kstack)
      log := .alloc np a.nextpid :: a.log })
  | giveUp {a} (c np : ProcId) {niceValue : ℤ} {stage : Stage}
    (hc : (a.proc c).state = .RUNNING) (ht : a.thread c = .nicefork np niceValue stage)
    (hst : stage = .kstack ∨ stage = .copyuvm) (hk : kind → (a.proc np).killed = false) :
    ForkMove kind (.stable, a) (.stable, { a with
      proc := Function.update a.proc np { a.proc np with state := .UNUSED }
      thread := Function.update a.thread c .other
      log := .niceforkRet (a.proc c).pid (-1) :: a.log })
  | kstack {a} (c np : ProcId) {niceValue : ℤ} (hc : (a.proc c).state = .RUNNING)
    (ht : a.thread c = .nicefork np niceValue .kstack) :
    ForkMove kind (.stable, a) (.stable, { a with
      proc := Function.update a.proc np { a.proc np with context := .forkret }
      thread := Function.update a.thread c (.nicefork np niceValue .copyuvm) })
  | copyuvm {a} (c np : ProcId) {niceValue : ℤ} (hc : (a.proc c).state = .RUNNING)
    (ht : a.thread c = .nicefork np niceValue .copyuvm) :
    ForkMove kind (.stable, a) (.stable, { a with
      thread := Function.update a.thread c (.nicefork np niceValue .parent) })
  | parent {a} (c np : ProcId) {niceValue : ℤ} (hc : (a.proc c).state = .RUNNING)
    (ht : a.thread c = .nicefork np niceValue .parent) :
    ForkMove kind (.stable, a) (.stable, { a with
      proc := Function.update a.proc np { a.proc np with parent := some c }
      thread := Function.update a.thread c (.nicefork np niceValue .pid) })
  | pid {a} (c np : ProcId) {niceValue : ℤ} (hc : (a.proc c).state = .RUNNING)
    (ht : a.thread c = .nicefork np niceValue .pid) :
    ForkMove kind (.stable, a) (.stable, { a with
      thread := Function.update a.thread c (.nicefork np niceValue (.nice (a.proc np).pid)) })
  | nice {a} (c np : ProcId) {niceValue pid : ℤ} (hc : (a.proc c).state = .RUNNING)
    (ht : a.thread c = .nicefork np niceValue (.nice pid)) :
    ForkMove kind (.stable, a) (.stable, { a with
      proc := Function.update a.proc np { a.proc np with nice := niceValue }
      thread := Function.update a.thread c (.nicefork np niceValue (.deadline pid)) })
  | deadline {a} (c np : ProcId) {niceValue pid : ℤ} (hc : (a.proc c).state = .RUNNING)
    (ht : a.thread c = .nicefork np niceValue (.deadline pid)) :
    ForkMove kind (.stable, a) (.stable, { a with
      proc := Function.update a.proc np { a.proc np with
        virtDeadline := computevd niceValue a.ticks }
      thread := Function.update a.thread c (.nicefork np niceValue (.insert pid))
      log := .deadline np a.ticks :: a.log })
  | fork {a} (c np : ProcId) {niceValue pid : ℤ} (hc : (a.proc c).state = .RUNNING)
    (ht : a.thread c = .nicefork np niceValue (.insert pid)) :
    ForkMove kind (.stable, a) (.stable, { a with
      proc := Function.update a.proc np { a.proc np with state := .RUNNABLE }
      thread := Function.update a.thread c .other
      log := .niceforkRet (a.proc c).pid pid :: .inserted np :: a.log
      queue := enqueue a.deadline np a.queue })

/-- What happens when a process ends and is waited for. -/
inductive ExitMove : Flux × EdfKernel → Flux × EdfKernel → Prop
  | exit {a} (p : ProcId) (hp : (a.proc p).state = .RUNNING) (ht : a.thread p = .other)
    (hi : a.initproc ≠ some p) :
    ExitMove (.stable, a) (.stable, { a with
      thread := Function.update a.thread p .closing })
  | leave {a} (p : ProcId) (hp : (a.proc p).state = .RUNNING) (ht : a.thread p = .closing) :
    ExitMove (.stable, a) (.exiting p, { a with queue := a.queue.erase p })
  | adopt {a} (p child : ProcId) (hc : (a.proc child).parent = some p) :
    ExitMove (.exiting p, a) (.adopting p child, { a with
      proc := Function.update a.proc child { a.proc child with parent := a.initproc } })
  | adopted {a} (p child : ProcId)
    (hc : (a.proc child).state = .ZOMBIE → ∀ i, a.initproc = some i → ¬ a.AsleepInWait i) :
    ExitMove (.adopting p child, a) (.exiting p, a)
  | zombie {a} (p : ProcId) (hc : ∀ c, (a.proc c).parent ≠ some p)
    (hp : ∀ q, (a.proc p).parent = some q → ¬ a.AsleepInWait q) :
    ExitMove (.exiting p, a) (.stable, { a with
      proc := Function.update a.proc p { a.proc p with state := .ZOMBIE }
      thread := Function.update a.thread p .zombie
      log := .exited (a.proc p).pid :: a.log })
  | gone {a} (p : ProcId) (ht : a.thread p = .zombie) :
    ExitMove (.stable, a) (.stable, { a with
      proc := Function.update a.proc p { a.proc p with context := .exit }
      cpuProc := none
      thread := Function.update a.thread p .other })
  | reap {a} (p q : ProcId) (hp : (a.proc p).state = .RUNNING)
    (hq : (a.proc q).parent = some p) (hz : (a.proc q).state = .ZOMBIE) :
    ExitMove (.stable, a) (.stable, { a with
      proc := Function.update a.proc q { a.proc q with
        pid := 0, parent := none, killed := false, state := .UNUSED }
      log := .waitRet (a.proc p).pid (a.proc q).pid :: a.log })
  | noChild {a} (p : ProcId) (hp : (a.proc p).state = .RUNNING) :
    ExitMove (.stable, a) (.stable, { a with
      log := .waitRet (a.proc p).pid (-1) :: a.log })

/-- One thing that can happen to the processes. A critical section of the kernel is a
sequence of these. -/
inductive Move (short kind : Prop) (s s' : Flux × EdfKernel) : Prop
  | sched (h : SchedMove short kind s s')
  | fork (h : ForkMove kind s s')
  | exit (h : ExitMove s s')

def Moves (short kind : Prop) : Flux × EdfKernel → Flux × EdfKernel → Prop :=
  Relation.ReflTransGen (Move short kind)

theorem written {R : Proc → Proc → Prop} [Std.Refl R] {f : ProcId → Proc} {p : ProcId} {x : Proc}
    (hp : R x (f p)) (q : ProcId) : R (Function.update f p x q) (f q) := by
  by_cases hq : q = p
  · subst hq
    rwa [Function.update_self]
  · rw [Function.update_of_ne hq]
    exact Std.Refl.refl _

theorem Moves.preserves {short kind : Prop} {I : Flux × EdfKernel → Prop}
    (hstep : ∀ s s', Move short kind s s' → I s → I s') {s s' : Flux × EdfKernel}
    (h : Moves short kind s s') (hs : I s) : I s' := by
  induction h with
  | refl => exact hs
  | tail _ hm ih => exact hstep _ _ hm ih

end Xv6Bfs.Sched

import Xv6Bfs.Sched.Kernel
import Xv6Bfs.Vm.AddressSpace

namespace Xv6Bfs.Memory

open Lib.Execution Function Vm
open Sched (ProcState ProcId)

def P2V (a : ℕ) : ℕ := a + KERNBASE

/-- What stops the kernel: a panic of the virtual memory or one of those of `freerange`, `freevm`,
`userinit` and `exit`, and the use of a null `kpgdir` or `initproc`. -/
inductive Stop
  | vm (e : Vm.Panic)
  | freerange
  | freevm
  | userinit
  | initExiting
  | nullKpgdir
  | nullProc
  deriving DecidableEq, Repr

/-- The fields of `struct proc` that say what memory a process has. The task is `none` where `pgdir`
is 0, and what is left of the last process in a slot that is not used. -/
structure Slot where
  state : ProcState
  parent : Option ProcId
  kstack : Option ℕ
  task : Option Task

def Slot.Active (p : Slot) : Prop := p.state ≠ .UNUSED ∧ p.state ≠ .EMBRYO ∧ p.state ≠ .ZOMBIE

instance (p : Slot) : Decidable p.Active := inferInstanceAs (Decidable (_ ∧ _ ∧ _))

/-- `struct pipe`, and the page that it is in. -/
structure Pipe where
  page : ℕ
  readopen : Bool
  writeopen : Bool

def Pipe.close (p : Pipe) (writable : Bool) : Pipe :=
  if writable then { p with writeopen := false } else { p with readopen := false }

/-- All that uses the pages of `kalloc`: the page table of the kernel, the stacks of the other
processors, the processes and the pipes. -/
structure System where
  kpgdir : Pgdir
  cpuStacks : List (Option ℕ)
  initproc : ProcId
  proc : ProcId → Slot
  pipes : List Pipe
  mem : Mem

section Boot

variable (M : Machine)

def freeLoop (vend : ℕ) : ℕ → ℕ → Mem → Except Panic Mem
  | 0, _, _ => .error .diverge
  | fuel + 1, p, m =>
    if (p + PGSIZE) % 2 ^ 32 ≤ vend then do
      let m ← m.kfree M (V2P p / PGSIZE)
      freeLoop vend fuel ((p + PGSIZE) % 2 ^ 32) m
    else .ok m

def freerange (vstart vend : ℕ) (m : Mem) : Except Stop Mem :=
  if vend < vstart then .error .freerange
  else (freeLoop M vend (2 ^ 20) (PGROUNDUP vstart) m).mapError .vm

/-- The stacks of `n` other processors. A null pointer is not looked for. -/
def startothers : ℕ → Mem → List (Option ℕ) × Mem
  | 0, m => ([], m)
  | n + 1, m =>
    let (stack, m) := m.kalloc M
    let (cpuStacks, m) := startothers n m
    (stack :: cpuStacks, m)

namespace System

def set (s : System) (i : ProcId) (p : Slot) (m : Mem) : System :=
  { s with proc := update s.proc i p, mem := m }

def allocproc (s : System) : Option ProcId × System :=
  match (List.finRange NPROC).find? (fun i ↦ (s.proc i).state = .UNUSED) with
  | none => (none, s)
  | some i =>
    match s.mem.kalloc M with
    | (none, m) => (none, s.set i { s.proc i with kstack := none } m)
    | (some p, m) => (some i, s.set i { s.proc i with state := .EMBRYO, kstack := some p } m)

def initTask (pgdir : Pgdir) : Task :=
  ⟨⟨PGSIZE, pgdir⟩, [105, 110, 105, 116, 99, 111, 100, 101], 0, PGSIZE⟩

def userinit (data : ℕ) (init : List UInt8) (s : System) : Except Stop System :=
  match s.allocproc M with
  | (none, _) => .error .nullProc
  | (some i, s) => do
    let (pgdir, m) ← (Pgdir.setupkvm M data s.mem).mapError .vm
    match pgdir with
    | none => .error .userinit
    | some pgdir => do
      let (pgdir, m) ← (pgdir.inituvm M init m).mapError .vm
      let p := { s.proc i with state := .RUNNABLE, task := some (initTask pgdir) }
      .ok { s.set i p m with initproc := i }

end System

def noProc : Slot := ⟨.UNUSED, none, none, none⟩

/-- What `main` does with memory, for `ncpu` processors and the program `init`. -/
def main (data ncpu : ℕ) (init : List UInt8) (phys : ℕ → ℕ → UInt8) : Except Stop System := do
  let m ← freerange M M.kend (P2V (4 * 1024 * 1024)) ⟨[], 0, phys⟩
  let (kpgdir, m) ← (Pgdir.setupkvm M data m).mapError .vm
  match kpgdir with
  | none => .error .nullKpgdir
  | some kpgdir => do
    let (cpuStacks, m) := startothers M (ncpu - 1) m
    let m ← freerange M (P2V (4 * 1024 * 1024)) (P2V PHYSTOP) m
    System.userinit M data init ⟨kpgdir, cpuStacks, 0, fun _ ↦ noProc, [], m⟩

end Boot

section Calls

variable (M : Machine) (data : ℕ)

/-- `kfree` of a pointer that may be null. -/
def kfreePtr (p : Option ℕ) (m : Mem) : Except Panic Mem :=
  match p with
  | some p => m.kfree M p
  | none => .error .kfree

namespace System

/-- `nicefork` for the process `i`. The result is the slot of the child, or `none` for -1. -/
def fork (i : ProcId) (t : Task) (s : System) : Except Stop (Option ProcId × System) :=
  match s.allocproc M with
  | (none, s) => .ok (none, s)
  | (some j, s) => do
    let (d, m) ← (Pgdir.copyuvm M data t.pgdir t.sz s.mem).mapError .vm
    match d with
    | none => do
      let m ← (kfreePtr M (s.proc j).kstack m).mapError .vm
      .ok (none, s.set j { s.proc j with state := .UNUSED, kstack := none, task := none } m)
    | some d =>
      .ok (some j, s.set j { s.proc j with
        state := .RUNNABLE, parent := some i, task := some { t with pgdir := d } } m)

def sbrk (i : ProcId) (t : Task) (n : ℤ) (s : System) : Except Stop System := do
  let (_, p, m) ← (growproc M n t.toProc s.mem).mapError .vm
  .ok (s.set i { s.proc i with task := some { t with toProc := p } } m)

/-- `exec`, where `namei` gives the file of the path. -/
def exec (namei : List UInt8 → Option Inode) (path : List UInt8) (argv : List (List UInt8))
    (i : ProcId) (t : Task) (s : System) : Except Stop System := do
  let (_, t, m) ← (Vm.exec M data namei path argv t s.mem).mapError .vm
  .ok (s.set i { s.proc i with task := some t } m)

/-- `exit` up to `sched`, which is taken to come before the parent looks at the table again. -/
def exit (i : ProcId) (s : System) : Except Stop System :=
  if i = s.initproc then .error .initExiting
  else .ok { s with proc := fun j ↦
    { s.proc j with
      parent := if (s.proc j).parent = some i then some s.initproc else (s.proc j).parent
      state := if j = i then .ZOMBIE else (s.proc j).state } }

/-- One scan of the table in `wait`. The result is the slot of the child that was found. -/
def wait (i : ProcId) (s : System) : Except Stop (Option ProcId × System) :=
  match (List.finRange NPROC).find?
      (fun j ↦ (s.proc j).parent = some i ∧ (s.proc j).state = .ZOMBIE) with
  | none => .ok (none, s)
  | some j => do
    let m ← (kfreePtr M (s.proc j).kstack s.mem).mapError .vm
    match (s.proc j).task with
    | none => .error .freevm
    | some t => do
      let m ← (t.pgdir.freevm M m).mapError .vm
      .ok (some j, s.set j { s.proc j with state := .UNUSED, parent := none, kstack := none } m)

def pipealloc (s : System) : System :=
  match s.mem.kalloc M with
  | (none, m) => { s with mem := m }
  | (some p, m) => { s with mem := m, pipes := ⟨p, true, true⟩ :: s.pipes }

def pipeclose (page : ℕ) (writable : Bool) (s : System) : Except Stop System :=
  match s.pipes.find? (fun p ↦ p.page = page) with
  | none => .ok s
  | some p =>
    let p := p.close writable
    let rest := s.pipes.eraseP (fun p ↦ p.page = page)
    if p.readopen = false ∧ p.writeopen = false then do
      let m ← (s.mem.kfree M page).mapError .vm
      .ok { s with mem := m, pipes := rest }
    else .ok { s with pipes := p :: rest }

/-- A user instruction that writes a byte. Where it may not, there is a page fault. -/
def store (t : Task) (a : ℕ) (c : UInt8) (s : System) : System :=
  match t.pgdir.tr (a / PGSIZE % 2 ^ 20) with
  | some e => if e.u ∧ e.w then { s with mem := s.mem.write e.ppn (a % PGSIZE) [c] } else s
  | none => s

end System

/-- What a process can do to memory, by a call of the kernel or by an instruction. -/
inductive Call
  | fork
  | sbrk (n : ℤ)
  | exec (namei : List UInt8 → Option Inode) (path : List UInt8) (argv : List (List UInt8))
  | exit
  | wait
  | pipealloc
  | pipeclose (page : ℕ) (writable : Bool)
  | store (a : ℕ) (c : UInt8)

def System.call (i : ProcId) (t : Task) (s : System) : Call → Except Stop System
  | .fork => do
    let (_, s) ← s.fork M data i t
    .ok s
  | .sbrk n => s.sbrk M i t n
  | .exec namei path argv => s.exec M data namei path argv i t
  | .exit => s.exit i
  | .wait => do
    let (_, s) ← s.wait M i
    .ok s
  | .pipealloc => .ok (s.pipealloc M)
  | .pipeclose page writable => s.pipeclose M page writable
  | .store a c => .ok (s.store t a c)

def step (c : ProcId × Call) (s : System) : Except Stop System :=
  match (s.proc c.1).task with
  | some t => if (s.proc c.1).Active then s.call M data c.1 t c.2 else .ok s
  | none => .ok s

end Calls

end Xv6Bfs.Memory

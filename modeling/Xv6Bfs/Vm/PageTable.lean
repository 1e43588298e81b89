import Xv6Bfs.Lib.Execution
import Mathlib.Logic.Function.Basic
import Mathlib.Algebra.Group.Nat.Defs
import Mathlib.Algebra.Group.Int.Defs

namespace Xv6Bfs.Vm

open Lib.Execution Function

def PGSIZE : ℕ := 4096

def KERNBASE : ℕ := 0x80000000

def PHYSTOP : ℕ := 0xE000000

def PGROUNDUP (sz : ℕ) : ℕ := (sz + PGSIZE - 1) % 2 ^ 32 / PGSIZE * PGSIZE

def PGROUNDDOWN (a : ℕ) : ℕ := a / PGSIZE * PGSIZE

def PDX (va : ℕ) : ℕ := va / 2 ^ 22 % 1024

def PTX (va : ℕ) : ℕ := va / 2 ^ 12 % 1024

/-- An entry with `PTE_P`: the physical page, `PTE_W` and `PTE_U`. -/
structure Pte where
  ppn : ℕ
  w : Bool
  u : Bool
  deriving DecidableEq, Repr

/-- A page table, and the page that it is in. An entry without `PTE_P` is `none`. -/
structure Table where
  page : ℕ
  pte : ℕ → Option Pte

structure Pgdir where
  page : ℕ
  pde : ℕ → Option Table

/-- The free list of `kalloc`, how often it was called, and the bytes of the pages. -/
structure Mem where
  freelist : List ℕ
  kallocs : ℕ
  phys : ℕ → ℕ → UInt8

/-- The panics, the use of a null pointer to an entry or a page, and a loop that does not end. -/
inductive Panic
  | kfree
  | remap
  | phystop
  | inituvm
  | loaduvm
  | clearpteu
  | copyuvm
  | nullPte
  | nullPage
  | diverge
  deriving DecidableEq, Repr

/-- What `vm.c` does not decide: the end of the kernel, and which calls of `kalloc` find no page
because others have taken them. -/
structure Machine where
  kend : ℕ
  fails : ℕ → Bool
  kend_gt : KERNBASE < kend

variable (M : Machine)

namespace Mem

def fill (m : Mem) (p : ℕ) (c : UInt8) : Mem := { m with phys := update m.phys p (fun _ ↦ c) }

def kalloc (m : Mem) : Option ℕ × Mem :=
  let called := { m with kallocs := m.kallocs + 1 }
  if M.fails m.kallocs then (none, called)
  else match m.freelist with
    | [] => (none, called)
    | p :: l => (some p, { called with freelist := l })

def Valid (p : ℕ) : Prop := M.kend ≤ p * PGSIZE + KERNBASE ∧ p * PGSIZE < PHYSTOP

instance decidableValid (p : ℕ) : Decidable (Valid M p) := inferInstanceAs (Decidable (_ ∧ _))

def kfree (p : ℕ) (m : Mem) : Except Panic Mem :=
  if Valid M p then
    let m := m.fill p 1
    .ok { m with freelist := p :: m.freelist }
  else .error .kfree

end Mem

namespace Pgdir

/-- `walkpgdir(pgdir, va, 0)` with what the entry holds, or `none` for a null pointer. -/
def walk (pgdir : Pgdir) (va : ℕ) : Option (Option Pte) :=
  (pgdir.pde (PDX va)).map (fun t ↦ t.pte (PTX va))

def setTable (pgdir : Pgdir) (i : ℕ) (t : Table) : Pgdir :=
  { pgdir with pde := update pgdir.pde i (some t) }

/-- `walkpgdir(pgdir, va, 1)`: a table for `va` is there afterwards, unless there is no page for
it. -/
def walkAlloc (pgdir : Pgdir) (va : ℕ) (m : Mem) : Option Pgdir × Mem :=
  match pgdir.pde (PDX va) with
  | some _ => (some pgdir, m)
  | none =>
    match m.kalloc M with
    | (none, m) => (none, m)
    | (some p, m) => (some (pgdir.setTable (PDX va) ⟨p, fun _ ↦ none⟩), m.fill p 0)

def setPte (pgdir : Pgdir) (va : ℕ) (e : Option Pte) : Pgdir :=
  match pgdir.pde (PDX va) with
  | some t => pgdir.setTable (PDX va) { t with pte := update t.pte (PTX va) e }
  | none => pgdir

def mapLoop (last : ℕ) (w u : Bool) : ℕ → ℕ → ℕ → Pgdir → Mem → Except Panic (Bool × Pgdir × Mem)
  | 0, _, _, _, _ => .error .diverge
  | fuel + 1, a, ppn, pgdir, m =>
    match pgdir.walkAlloc M a m with
    | (none, m) => .ok (false, pgdir, m)
    | (some pgdir, m) =>
      if (pgdir.walk a).join.isSome then .error .remap
      else
        let pgdir := pgdir.setPte a (some ⟨ppn, w, u⟩)
        if a = last then .ok (true, pgdir, m)
        else mapLoop last w u fuel ((a + PGSIZE) % 2 ^ 32) (ppn + 1) pgdir m

/-- The result is `false` for -1. The physical address is that of a page. -/
def mappages (pgdir : Pgdir) (va size ppn : ℕ) (w u : Bool) (m : Mem) :
    Except Panic (Bool × Pgdir × Mem) :=
  let a := PGROUNDDOWN va
  let last := PGROUNDDOWN ((va + size - 1) % 2 ^ 32)
  mapLoop M last w u (2 ^ 20) a ppn pgdir m

def deallocLoop (oldsz : ℕ) : ℕ → ℕ → Pgdir → Mem → Except Panic (Pgdir × Mem)
  | 0, _, _, _ => .error .diverge
  | fuel + 1, a, pgdir, m =>
    if a < oldsz then
      match pgdir.walk a with
      | none => deallocLoop oldsz fuel ((PDX a + 1) * 2 ^ 22 % 2 ^ 32) pgdir m
      | some none => deallocLoop oldsz fuel ((a + PGSIZE) % 2 ^ 32) pgdir m
      | some (some e) =>
        if e.ppn = 0 then .error .kfree
        else do
          let m ← m.kfree M e.ppn
          deallocLoop oldsz fuel ((a + PGSIZE) % 2 ^ 32) (pgdir.setPte a none) m
    else .ok (pgdir, m)

def deallocuvm (pgdir : Pgdir) (oldsz newsz : ℕ) (m : Mem) : Except Panic (ℕ × Pgdir × Mem) :=
  if newsz ≥ oldsz then .ok (oldsz, pgdir, m)
  else do
    let (pgdir, m) ← deallocLoop M oldsz (2 ^ 20 + 1) (PGROUNDUP newsz) pgdir m
    .ok (newsz, pgdir, m)

def allocLoop (oldsz newsz : ℕ) : ℕ → ℕ → Pgdir → Mem → Except Panic (ℕ × Pgdir × Mem)
  | 0, _, _, _ => .error .diverge
  | fuel + 1, a, pgdir, m =>
    if a < newsz then
      match m.kalloc M with
      | (none, m) => do
        let (_, pgdir, m) ← pgdir.deallocuvm M newsz oldsz m
        .ok (0, pgdir, m)
      | (some p, m) => do
        let (mapped, pgdir, m) ← pgdir.mappages M a PGSIZE p true true (m.fill p 0)
        if mapped then allocLoop oldsz newsz fuel ((a + PGSIZE) % 2 ^ 32) pgdir m
        else do
          let (_, pgdir, m) ← pgdir.deallocuvm M newsz oldsz m
          let m ← m.kfree M p
          .ok (0, pgdir, m)
    else .ok (newsz, pgdir, m)

def allocuvm (pgdir : Pgdir) (oldsz newsz : ℕ) (m : Mem) : Except Panic (ℕ × Pgdir × Mem) :=
  if newsz ≥ KERNBASE then .ok (0, pgdir, m)
  else if newsz < oldsz then .ok (oldsz, pgdir, m)
  else allocLoop M oldsz newsz (2 ^ 20 + 1) (PGROUNDUP oldsz) pgdir m

end Pgdir

end Xv6Bfs.Vm

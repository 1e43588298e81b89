import Xv6Bfs.Vm.Uvm
import Xv6Bfs.Lib.Bytes

namespace Xv6Bfs.Vm

open Lib.Execution Lib.Bytes Function

def EXTMEM : ℕ := 0x100000

def DEVSPACE : ℕ := 0xFE000000

def KERNLINK : ℕ := KERNBASE + EXTMEM

def V2P (a : ℕ) : ℕ := a - KERNBASE

def NPDENTRIES : ℕ := 1024

/-- The difference of two numbers of type `uint`. -/
def sub32 (a b : ℕ) : ℕ := (a + 2 ^ 32 - b % 2 ^ 32) % 2 ^ 32

/-- `struct kmap`, where `perm` is whether there is `PTE_W`. -/
structure Kmap where
  virt : ℕ
  physStart : ℕ
  physEnd : ℕ
  perm : Bool

/-- The table of the kernel's mappings, for the address `data` that the linker gives. -/
def kmap (data : ℕ) : List Kmap :=
  [⟨KERNBASE, 0, EXTMEM, true⟩,
   ⟨KERNLINK, V2P KERNLINK, V2P data, false⟩,
   ⟨data, V2P data, PHYSTOP, true⟩,
   ⟨DEVSPACE, DEVSPACE, 0, true⟩]

/-- An inode, as far as it is read here: `readi off n` is what `readi` copies. -/
structure Inode where
  readi : ℕ → ℕ → List UInt8
  readi_le : ∀ off n, (readi off n).length ≤ n

def Mem.write (m : Mem) (p off : ℕ) (l : List UInt8) : Mem :=
  { m with phys := update m.phys p (fun i ↦
      if off ≤ i ∧ i < off + l.length then l.getD (i - off) 0 else m.phys p i) }

def Mem.copy (m : Mem) (p q : ℕ) : Mem := { m with phys := update m.phys q (m.phys p) }

namespace Pgdir

variable (M : Machine)

def freevm (pgdir : Pgdir) (m : Mem) : Except Panic Mem := do
  let (_, pgdir, m) ← pgdir.deallocuvm M KERNBASE 0 m
  let m ← (List.range NPDENTRIES).foldlM (fun m i ↦
    match pgdir.pde i with
    | some t => m.kfree M t.page
    | none => .ok m) m
  m.kfree M pgdir.page

def setupLoop : List Kmap → Pgdir → Mem → Except Panic (Option Pgdir × Mem)
  | [], pgdir, m => .ok (some pgdir, m)
  | k :: ks, pgdir, m => do
    let (mapped, pgdir, m) ← pgdir.mappages M k.virt (sub32 k.physEnd k.physStart)
      (k.physStart / PGSIZE) k.perm false m
    if mapped then setupLoop ks pgdir m
    else do
      let m ← pgdir.freevm M m
      .ok (none, m)

def setupkvm (data : ℕ) (m : Mem) : Except Panic (Option Pgdir × Mem) :=
  match m.kalloc M with
  | (none, m) => .ok (none, m)
  | (some p, m) =>
    let m := m.fill p 0
    if PHYSTOP + KERNBASE > DEVSPACE then .error .phystop
    else setupLoop M (kmap data) ⟨p, fun _ ↦ none⟩ m

/-- The result of `mappages` is not looked at. -/
def inituvm (pgdir : Pgdir) (init : List UInt8) (m : Mem) : Except Panic (Pgdir × Mem) :=
  if init.length ≥ PGSIZE then .error .inituvm
  else match m.kalloc M with
    | (none, _) => .error .nullPage
    | (some p, m) => do
      let (_, pgdir, m) ← pgdir.mappages M 0 PGSIZE p true true (m.fill p 0)
      .ok (pgdir, m.write p 0 init)

/-- The loop of `loaduvm`. An entry without `PTE_P` is 0, and so is its address. -/
def loadLoop (pgdir : Pgdir) (addr : ℕ) (ip : Inode) (offset sz : ℕ) :
    ℕ → ℕ → Mem → Except Panic (Bool × Mem)
  | 0, _, _ => .error .diverge
  | fuel + 1, i, m =>
    if i < sz then
      match pgdir.walk ((addr + i) % 2 ^ 32) with
      | none => .error .loaduvm
      | some e =>
        let p := (e.map Pte.ppn).getD 0
        let n := if sz - i < PGSIZE then sz - i else PGSIZE
        let l := ip.readi ((offset + i) % 2 ^ 32) n
        let m := m.write p 0 l
        if l.length ≠ n then .ok (false, m)
        else loadLoop pgdir addr ip offset sz fuel ((i + PGSIZE) % 2 ^ 32) m
    else .ok (true, m)

/-- The result is `false` for -1. -/
def loaduvm (pgdir : Pgdir) (addr : ℕ) (ip : Inode) (offset sz : ℕ) (m : Mem) :
    Except Panic (Bool × Mem) :=
  if addr % PGSIZE ≠ 0 then .error .loaduvm
  else loadLoop pgdir addr ip offset sz (2 ^ 20 + 1) 0 m

def clearpteu (pgdir : Pgdir) (uva : ℕ) : Except Panic Pgdir :=
  match pgdir.walk uva with
  | none => .error .clearpteu
  | some e => .ok (pgdir.setPte uva (e.map (fun e ↦ { e with u := false })))

def copyLoop (pgdir : Pgdir) (sz : ℕ) : ℕ → ℕ → Pgdir → Mem → Except Panic (Option Pgdir × Mem)
  | 0, _, _, _ => .error .diverge
  | fuel + 1, i, d, m =>
    if i < sz then
      match (pgdir.walk i).join with
      | none => .error .copyuvm
      | some e =>
        match m.kalloc M with
        | (none, m) => do
          let m ← d.freevm M m
          .ok (none, m)
        | (some p, m) => do
          let (mapped, d, m) ← d.mappages M i PGSIZE p e.w e.u (m.copy e.ppn p)
          if mapped then copyLoop pgdir sz fuel ((i + PGSIZE) % 2 ^ 32) d m
          else do
            let m ← m.kfree M p
            let m ← d.freevm M m
            .ok (none, m)
    else .ok (some d, m)

def copyuvm (data : ℕ) (pgdir : Pgdir) (sz : ℕ) (m : Mem) : Except Panic (Option Pgdir × Mem) := do
  let (d, m) ← setupkvm M data m
  match d with
  | none => .ok (none, m)
  | some d => copyLoop M pgdir sz (2 ^ 20 + 1) 0 d m

/-- The page that `uva2ka` finds, or `none` for 0. -/
def uva2ka (pgdir : Pgdir) (uva : ℕ) : Except Panic (Option ℕ) :=
  match pgdir.walk uva with
  | none => .error .nullPte
  | some none => .ok none
  | some (some e) => .ok (if e.u then some e.ppn else none)

def copyoutLoop (pgdir : Pgdir) : ℕ → ℕ → List UInt8 → Mem → Except Panic (Bool × Mem)
  | 0, _, _, _ => .error .diverge
  | fuel + 1, va, buf, m =>
    if buf.length > 0 then do
      let va0 := PGROUNDDOWN va
      match ← pgdir.uva2ka va0 with
      | none => .ok (false, m)
      | some pa0 =>
        let n := min (PGSIZE - (va - va0)) buf.length
        copyoutLoop pgdir fuel ((va0 + PGSIZE) % 2 ^ 32) (buf.drop n)
          (m.write pa0 (va - va0) (buf.take n))
    else .ok (true, m)

/-- The result is `false` for -1. -/
def copyout (pgdir : Pgdir) (va : ℕ) (p : List UInt8) (m : Mem) : Except Panic (Bool × Mem) :=
  copyoutLoop pgdir (p.length + 1) va p m

end Pgdir

end Xv6Bfs.Vm

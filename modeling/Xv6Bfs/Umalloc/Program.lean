import Xv6Bfs.Lib.Execution
import Mathlib.Logic.Function.Basic
import Mathlib.Tactic.Simps.Basic
import Mathlib.Algebra.Group.Nat.Defs

namespace Xv6Bfs.Umalloc

open Lib.Execution

def HEADER : ℕ := 8

/-- A `union header`. Pointers are addresses, and 0 is the null pointer. -/
structure Header where
  ptr : ℕ
  size : ℕ
  deriving DecidableEq, Repr

/-- A loop that does not stop. -/
inductive Stop
  | diverge
  deriving DecidableEq, Repr

/-- The headers in memory, `freep` and the break. `live` is not in memory: what `malloc` has
returned and `free` has not got back, with the number of bytes asked for. -/
structure Heap where
  mem : ℕ → Header
  freep : ℕ
  brk : ℕ
  live : List (ℕ × ℕ)

namespace Heap

def ptr (s : Heap) (a : ℕ) : ℕ := (s.mem a).ptr

def size (s : Heap) (a : ℕ) : ℕ := (s.mem a).size

@[simps]
def setPtr (s : Heap) (a p : ℕ) : Heap :=
  { s with mem := Function.update s.mem a { s.mem a with ptr := p } }

@[simps]
def setSize (s : Heap) (a n : ℕ) : Heap :=
  { s with mem := Function.update s.mem a { s.mem a with size := n } }

@[simps]
def setFreep (s : Heap) (p : ℕ) : Heap := { s with freep := p }

def plus (p n : ℕ) : ℕ := p + HEADER * n

def freeLoop (bp : ℕ) (s : Heap) : ℕ → ℕ → Except Stop ℕ
  | 0, _ => .error .diverge
  | fuel + 1, p =>
    if p < bp ∧ bp < s.ptr p then .ok p
    else if s.ptr p ≤ p ∧ (p < bp ∨ bp < s.ptr p) then .ok p
    else freeLoop bp s fuel (s.ptr p)

def joinNext (bp p : ℕ) (s : Heap) : Heap :=
  if plus bp (s.size bp) = s.ptr p then
    let s := s.setSize bp (s.size bp + s.size (s.ptr p))
    s.setPtr bp (s.ptr (s.ptr p))
  else s.setPtr bp (s.ptr p)

def joinPrev (bp p : ℕ) (s : Heap) : Heap :=
  if plus p (s.size p) = bp then
    let s := s.setSize p (s.size p + s.size bp)
    s.setPtr p (s.ptr bp)
  else s.setPtr p bp

def free (ap : ℕ) (s : Heap) : Except Stop Heap := do
  let bp := ap - HEADER
  let p ← freeLoop bp s (s.brk + 2) s.freep
  .ok (((s.joinNext bp p).joinPrev bp p).setFreep p)

def MINUNITS : ℕ := 4096

def coreUnits (nu : ℕ) : ℕ := if nu < MINUNITS then MINUNITS else nu

def nunits (nbytes : ℕ) : ℕ := (nbytes + HEADER - 1) % 2 ^ 32 / HEADER + 1

/-- What `malloc` does with the block `p` behind `prevp`, and its return value. -/
def take (nunits prevp p : ℕ) (s : Heap) : Heap × ℕ :=
  if s.size p = nunits then ((s.setPtr prevp (s.ptr p)).setFreep prevp, plus p 1)
  else
    let s := s.setSize p (s.size p - nunits)
    let p := plus p (s.size p)
    let s := s.setSize p nunits
    (s.setFreep prevp, plus p 1)

def setup (base : ℕ) (s : Heap) : Heap :=
  if s.freep = 0 then ((s.setPtr base base).setFreep base).setSize base 0 else s

def record (ap nbytes : ℕ) (s : Heap) : Heap :=
  if ap = 0 then s else { s with live := (ap, nbytes) :: s.live }

end Heap

/-- The heap, and what the kernel keeps for the process. -/
structure Process (κ : Type) where
  heap : Heap
  kernel : κ

/-- What the library needs: the system call `sbrk`, with `none` for `(char*)-1`, and an outcome for a
loop that does not stop. -/
structure Kernel (κ ε : Type) where
  sbrk : ℕ → Process κ → Except ε (Option ℕ × Process κ)
  stop : Stop → ε

namespace Process

variable {κ ε : Type} (K : Kernel κ ε)

def morecore (nu : ℕ) (s : Process κ) : Except ε (Process κ × ℕ) := do
  let nu := Heap.coreUnits nu
  match ← K.sbrk (nu * HEADER % 2 ^ 32) s with
  | (none, s) => .ok (s, 0)
  | (some hp, s) => do
    let heap := s.heap.setSize hp nu
    let heap ← (heap.free (Heap.plus hp 1)).mapError K.stop
    .ok ({ s with heap }, heap.freep)

def mallocLoop (nunits : ℕ) : ℕ → Process κ → ℕ → ℕ → Except ε (Process κ × ℕ)
  | 0, _, _, _ => .error (K.stop .diverge)
  | fuel + 1, s, prevp, p =>
    if nunits ≤ s.heap.size p then
      let r := s.heap.take nunits prevp p
      .ok ({ s with heap := r.1 }, r.2)
    else if p = s.heap.freep then do
      let (s, p) ← s.morecore K nunits
      if p = 0 then .ok (s, 0) else mallocLoop nunits fuel s p (s.heap.ptr p)
    else mallocLoop nunits fuel s p (s.heap.ptr p)

/-- The loop goes round the list at most once before `morecore`, and once after it. -/
def malloc (base nbytes : ℕ) (s : Process κ) : Except ε (Process κ × ℕ) :=
  let nunits := Heap.nunits nbytes
  let s := { s with heap := s.heap.setup base }
  mallocLoop K nunits (2 * (s.heap.brk + HEADER * Heap.coreUnits nunits) + 4) s s.heap.freep
    (s.heap.ptr s.heap.freep)

end Process

/-- A kernel that keeps nothing but the break, and has memory or not. -/
def answer (ok : Bool) : Kernel Unit Stop where
  sbrk n s := .ok (if ok then
      (some s.heap.brk, { s with heap := { s.heap with brk := s.heap.brk + n } })
    else (none, s))
  stop := id

/-- What a program does with its heap: it asks for memory, gives it back, and stores what
it likes in the blocks it has. -/
inductive Op
  | malloc (nbytes : ℕ) (sbrk : Bool)
  | free (ap : ℕ)
  | store (ap i : ℕ) (value : Header)
  deriving DecidableEq, Repr

namespace Op

def step (base : ℕ) : Op → Heap → Except Stop Heap
  | .malloc nbytes ok, s => do
    let (s, ap) ← Process.malloc (answer ok) base nbytes ⟨s, ()⟩
    .ok (s.heap.record ap nbytes)
  | .free ap, s => do
    let s ← s.free ap
    .ok { s with live := s.live.eraseP (fun x ↦ x.1 = ap) }
  | .store ap i value, s => .ok { s with mem := Function.update s.mem (Heap.plus ap i) value }

/-- Requests are small, only live pointers are freed, and a program stores in its own blocks
only, behind the header. -/
def Allowed : Op → Heap → Prop
  | .malloc nbytes _, _ => (HEADER * ((nbytes + HEADER - 1) / HEADER + 1)) < 2 ^ 31
  | .free ap, s => ap ∈ s.live.map Prod.fst
  | .store ap i _, s => ap ∈ s.live.map Prod.fst ∧ i + 1 < s.size (ap - HEADER)

instance decidableAllowed (op : Op) (s : Heap) : Decidable (op.Allowed s) :=
  match op with
  | .malloc _ _ => Nat.decLt _ _
  | .free _ => inferInstanceAs (Decidable (_ ∈ _))
  | .store _ _ _ => inferInstanceAs (Decidable (_ ∧ _))

end Op

end Xv6Bfs.Umalloc

import Xv6Bfs.Sched.ProcTable
import Mathlib.Data.BitVec

namespace Xv6Bfs.Sched

/-- The value an `int` takes, by wraparound, where the exact result is `x`. -/
def int32 (x : ℤ) : ℤ := (x + 2 ^ 31) % 2 ^ 32 - 2 ^ 31

def computevd (niceValue currTicks : ℤ) : ℤ :=
  int32 (currTicks + (niceValue - NICE_FIRST_LEVEL + 1) * BFS_DEFAULT_QUANTUM)

/-- The comparison of the search loops of `insert` and `delete`: a queued process
whose deadline passes it is ordered strictly before the one searched for. -/
def goesBefore (deadline currDeadline : ℤ) : Bool := deadline < currDeadline

def random (seed : BitVec 32) (max : ℕ) : ℕ × BitVec 32 :=
  let seed := seed ^^^ (seed <<< 17)
  let seed := seed ^^^ (seed >>> 7)
  let seed := seed ^^^ (seed <<< 5)
  (seed.toNat % max, seed)

namespace SkipList

/-- The `while (level >= 0)` loop that `insert` and `delete` begin with. It returns
the last value of `curr` and the array `placement`. -/
def search (noLower : Panic) (vd : ProcId → ℤ) (currDeadline : ℤ) (t : SkipList) :
    ℕ → ℤ → NodePtr → (ℤ → NodePtr) → Except Stop (NodePtr × (ℤ → NodePtr))
  | 0, _, _, _ => .error .diverge
  | fuel + 1, level, curr, placement =>
    if level < 0 then .ok (curr, placement)
    else do
      let c ← t.load curr
      if ← t.nextTest vd (goesBefore · currDeadline) c then
        search noLower vd currDeadline t fuel level c.next placement
      else if c.proc = none then
        search noLower vd currDeadline t fuel (level - 1) (.cell (level - 1) 0)
          (Function.update placement level curr)
      else if c.lower = .null ∧ 0 ≤ level - 1 then .error (.panic noLower)
      else
        search noLower vd currDeadline t fuel (level - 1) c.lower
          (Function.update placement level curr)

/-- The loop starts at the head of the top level. It moves at most `NPROC` times
to the right on a level. -/
def searchAll (noLower : Panic) (vd : ProcId → ℤ) (currDeadline : ℤ) (t : SkipList) :
    Except Stop (NodePtr × (ℤ → NodePtr)) :=
  search noLower vd currDeadline t (LEVELS * (NPROC + 1) + 1) (LEVELS - 1) (.cell (LEVELS - 1) 0)
    (fun _ ↦ .null)

def forward (vd : ProcId → ℤ) (p : ProcId) (currDeadline : ℤ) (t : SkipList) :
    ℕ → NodePtr → Except Stop NodePtr
  | 0, _ => .error .diverge
  | fuel + 1, curr => do
    let c ← t.load curr
    if (← t.nextTest vd (· = currDeadline) c) ∧ c.proc ≠ some p then
      forward vd p currDeadline t fuel c.next
    else .ok curr

/-- `for (level = LEVELS - 1; curr->proc != proc; level--)`. The first test is made
on the `curr` that the search loop left behind. -/
def findTop (env : Env) (vd : ProcId → ℤ) (p : ProcId) (currDeadline : ℤ)
    (placement : ℤ → NodePtr) (t : SkipList) : ℕ → ℤ → NodePtr → Except Stop NodePtr
  | 0, _, _ => .error .diverge
  | fuel + 1, level, curr => do
    let q ← t.procOf env curr
    if q = some p then .ok curr
    else if level < 0 then .error (.panic .deleteBeyond)
    else do
      let curr ← forward vd p currDeadline t (NPROC + 1) (placement level)
      findTop env vd p currDeadline placement t fuel (level - 1) curr

/-- One turn of the `do ... while (curr != 0)` loop of `delete`, with the new `curr`. -/
def unlinkNode (t : SkipList) (curr : NodePtr) : Except Stop (SkipList × NodePtr) := do
  let c ← t.load curr
  if c.prev = .null then .error (.panic .deleteNoPrev)
  else do
    let t ← t.store c.prev (fun n ↦ { n with next := c.next })
    let c ← t.load curr
    let t ← if c.next ≠ .null then t.store c.next (fun n ↦ { n with prev := c.prev }) else .ok t
    let t ← t.store curr (fun n ↦ { n with proc := none, prev := .null, next := .null })
    let c ← t.load curr
    let t ← t.store curr (fun n ↦ { n with lower := .null })
    .ok (t, c.lower)

def unlink : ℕ → SkipList → NodePtr → Except Stop SkipList
  | 0, _, _ => .error .diverge
  | fuel + 1, t, curr => do
    let (t, curr) ← t.unlinkNode curr
    if curr = .null then .ok t else unlink fuel t curr

def delete (env : Env) (vd : ProcId → ℤ) (p : ProcId) (t : SkipList) :
    Except Stop (SkipList × ℤ) := do
  let (curr, placement) ← t.searchAll .deleteNoLower vd (vd p)
  let curr ← t.findTop env vd p (vd p) placement (LEVELS + 1) (LEVELS - 1) curr
  let t ← unlink (LEVELS + 1) t curr
  .ok ({ t with maxSkiplistLevel := Function.update t.maxSkiplistLevel p (-1) },
    t.maxSkiplistLevel p)

/-- The scan for an unallocated node of a level. The index is increased before it
is compared with `NPROC + 1`. -/
def freeSlot (t : SkipList) (level : ℤ) : ℕ → ℕ → Except Stop ℕ
  | 0, _ => .error .diverge
  | fuel + 1, j => do
    let c ← t.load (.cell level j)
    if c.proc = none then .ok j
    else if NPROC + 1 ≤ j + 1 then .error (.panic .noMemory)
    else freeSlot t level fuel (j + 1)

def linkNode (p : ProcId) (t : SkipList) (node lower curr : NodePtr) : Except Stop SkipList := do
  let t ← t.store node (fun n ↦ { n with lower := lower })
  let t ← t.store node (fun n ↦ { n with proc := some p })
  let t ← t.store node (fun n ↦ { n with prev := curr })
  let c ← t.load curr
  let t ← t.store node (fun n ↦ { n with next := c.next })
  let t ← t.store curr (fun n ↦ { n with next := node })
  let c ← t.load node
  if c.next ≠ .null then t.store c.next (fun n ↦ { n with prev := node }) else .ok t

/-- `random(10000) >= SKIPLIST_P`, not evaluated at level 0. -/
def roll (env : Env) (t : SkipList) (level : ℤ) : Bool × SkipList :=
  if level = 0 then (false, t)
  else
    let (r, seed) := env.random t.seed 10000
    (decide (SKIPLIST_P ≤ r), { t with seed := seed })

/-- `for (level = 0; level < LEVELS; level++)`, with the number of levels that are left. -/
def insertLevels (env : Env) (p : ProcId) (placement : ℤ → NodePtr) :
    ℕ → ℤ → NodePtr → SkipList → Except Stop (SkipList × ℤ)
  | 0, level, _, t => .ok (t, level)
  | n + 1, level, lower, t =>
    let (stop, t) := t.roll env level
    if stop then .ok (t, level)
    else do
      let j ← t.freeSlot level (NPROC + 1) 1
      let t ← linkNode p t (.cell level j) lower (placement level)
      insertLevels env p placement n (level + 1) (.cell level j) t

def insert (env : Env) (vd : ProcId → ℤ) (p : ProcId) (t : SkipList) :
    Except Stop (SkipList × ℤ) := do
  let (_, placement) ← t.searchAll .insertNoLower vd (vd p)
  let (t, level) ← insertLevels env p placement LEVELS 0 .null t
  .ok ({ t with maxSkiplistLevel := Function.update t.maxSkiplistLevel p level }, level)

def first (t : SkipList) : Except Stop (Option ProcId) := do
  let c ← t.load (.cell 0 0)
  if c.next = .null then .ok none
  else do
    let n ← t.load c.next
    match n.proc with
    | none => .error (.panic .selectedZero)
    | some p => .ok (some p)

/-- Static memory before `pinit` runs. -/
def bss (seed : BitVec 32) : SkipList where
  level := fun _ ↦ ⟨none, .null, .null, .null⟩
  maxSkiplistLevel := fun _ ↦ 0
  seed := seed

def pinit (t : SkipList) : SkipList :=
  { t with level := fun a ↦ match a with
    | .cell k 0 => if (NodePtr.cell k 0).Valid then ⟨none, .null, .null, .null⟩ else t.level a
    | .cell k j => if (NodePtr.cell k j).Valid then { t.level a with proc := none } else t.level a
    | .null => t.level a }

/-- The processes met by following `next` from a node, for at most `fuel` nodes. -/
def walk (t : SkipList) : ℕ → NodePtr → List ProcId
  | 0, _ => []
  | _ + 1, .null => []
  | fuel + 1, a => (t.level a).proc.toList ++ walk t fuel (t.level a).next

def levelProcs (t : SkipList) (k : ℤ) : List ProcId :=
  t.walk (NPROC + 1) (t.level (.cell k 0)).next

end SkipList

end Xv6Bfs.Sched

import Mathlib.Data.Fintype.Basic
import Mathlib.Logic.Function.Basic
import Xv6Bfs.Lib.Execution
import Xv6Bfs.Param

namespace Xv6Bfs.Sched

def BFS_DEFAULT_QUANTUM : ℤ := 50
def NICE_FIRST_LEVEL : ℤ := -20
def NICE_LAST_LEVEL : ℤ := 19
def SEED : BitVec 32 := 6969420
def LEVELS : ℕ := 4
def SKIPLIST_P : ℕ := 2500

/-- A slot of `ptable.proc`; a `struct proc *` is an `Option ProcId`. -/
abbrev ProcId := Fin NPROC

/-- A `struct node *`. `cell k j` is `&ptable.level[k][j]`, for any indices the
code computes, so that an address below level 0 can be written down. -/
inductive NodePtr
  | null
  | cell (k : ℤ) (j : ℕ)
  deriving DecidableEq, Repr

def NodePtr.Valid : NodePtr → Prop
  | .null => False
  | .cell k j => (0 ≤ k ∧ k < LEVELS) ∧ j ≤ NPROC

instance : DecidablePred NodePtr.Valid
  | .null => inferInstanceAs (Decidable False)
  | .cell k j => inferInstanceAs (Decidable ((0 ≤ k ∧ k < LEVELS) ∧ j ≤ NPROC))

structure Node where
  proc : Option ProcId
  prev : NodePtr
  next : NodePtr
  lower : NodePtr
  deriving DecidableEq, Repr

inductive Panic
  | insertNoLower
  | noMemory
  | deleteNoLower
  | deleteBeyond
  | deleteNoPrev
  | selectedZero
  | schedRunning
  | zombieExit
  | invalidNice
  | initExiting
  | userinitMemory
  deriving DecidableEq, Repr

/-- Why a computation does not come to its end: a call of `panic`, an access to
a `struct node` that is not in the array, an access through a null `struct proc *`,
a loop that does not stop, a step that the state does not allow, or a call of the
abstract run queue outside its contract. -/
inductive Stop
  | panic (m : Panic)
  | fault (a : NodePtr)
  | nullProc
  | diverge
  | disabled
  | contract
  deriving DecidableEq, Repr

/-- `ptable.level`, the `max_skiplist_level` of every process, which only `insert`
and `delete` touch, and the seed of `random`. -/
structure SkipList where
  level : NodePtr → Node
  maxSkiplistLevel : ProcId → ℤ
  seed : BitVec 32

/-- What the code meets and does not control: the `proc` field that a read
outside the array finds (`none` when that read traps) and the outcomes of `random`. -/
structure Env where
  wild : Option (Option ProcId)
  random : BitVec 32 → ℕ → ℕ × BitVec 32

namespace SkipList

def load (t : SkipList) (a : NodePtr) : Except Stop Node :=
  if a.Valid then .ok (t.level a) else .error (.fault a)

def modify (t : SkipList) (a : NodePtr) (f : Node → Node) : SkipList :=
  { t with level := Function.update t.level a (f (t.level a)) }

def store (t : SkipList) (a : NodePtr) (f : Node → Node) : Except Stop SkipList :=
  if a.Valid then .ok (t.modify a f) else .error (.fault a)

/-- `curr->proc`, read through a pointer that may have left the array. -/
def procOf (env : Env) (t : SkipList) (a : NodePtr) : Except Stop (Option ProcId) :=
  if a.Valid then .ok (t.level a).proc
  else match env.wild with
    | none => .error (.fault a)
    | some q => .ok q

def nextTest (vd : ProcId → ℤ) (test : ℤ → Bool) (t : SkipList) (c : Node) : Except Stop Bool :=
  if c.next = .null then .ok false
  else do
    let n ← t.load c.next
    match n.proc with
    | none => .error .nullProc
    | some q => .ok (test (vd q))

theorem load_of_valid {t : SkipList} {a : NodePtr} (h : a.Valid) : t.load a = .ok (t.level a) :=
  if_pos h

theorem store_of_valid {t : SkipList} {a : NodePtr} {f : Node → Node} (h : a.Valid) :
    t.store a f = .ok (t.modify a f) := if_pos h

theorem procOf_of_valid {env : Env} {t : SkipList} {a : NodePtr} (h : a.Valid) :
    t.procOf env a = .ok (t.level a).proc := if_pos h

theorem modify_level (t : SkipList) (a b : NodePtr) (f : Node → Node) :
    (t.modify a f).level b = if b = a then f (t.level a) else t.level b := by
  simp only [modify, Function.update_apply]

@[simp] theorem modify_maxSkiplistLevel (t : SkipList) (a : NodePtr) (f : Node → Node) :
    (t.modify a f).maxSkiplistLevel = t.maxSkiplistLevel := rfl

@[simp] theorem modify_seed (t : SkipList) (a : NodePtr) (f : Node → Node) :
    (t.modify a f).seed = t.seed := rfl

end SkipList

end Xv6Bfs.Sched

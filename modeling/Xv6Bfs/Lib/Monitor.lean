import Mathlib.Logic.Function.Basic
import Xv6Bfs.Lib.Execution

namespace Xv6Bfs.Lib.Monitor

open Execution Function

variable {P E V D L C X : Type}

/-- What a thread at one of the locations `L` does next with the data `D` and the lock that
protects it. -/
inductive Instr (D L C : Type)
  | acquire (d : D) (l : L)
  | act (d : D) (l : L)
  | sleep (c : C) (l : L)
  | wakeup (c : C) (l : L)
  | release (d : D) (l : L)

def Instr.Bracketed (inside : L → Prop) (l : L) : Instr D L C → Prop
  | .acquire _ l' => ¬ inside l ∧ inside l'
  | .act _ l' | .sleep _ l' | .wakeup _ l' => inside l ∧ inside l'
  | .release _ l' => inside l ∧ ¬ inside l'

/-- The code that the threads run, with a choice `E` from outside where there is one. The lock
is held at the locations `inside`. A thread that is killed is marked in the data, and `env` is
what else may happen to the data without the lock. -/
structure Program (P E V D L C X : Type) where
  next : P → E → L → D → Except X (Instr D L C)
  kill : P → D → D
  env : V → D → Except X D
  inside : L → Prop
  bracketed : ∀ p e l d i, next p e l d = .ok i → i.Bracketed inside l

/-- A thread in its own code, at one of the steps of `sleep` (the table lock has to be taken, the
lock released, the state changed), asleep, on its way back to the lock, or in `wakeup`. -/
inductive Thread (L C : Type)
  | run (l : L)
  | sleep (c : C) (l : L)
  | unlock (c : C) (l : L)
  | mark (c : C) (l : L)
  | SLEEPING (c : C) (l : L)
  | RUNNABLE (l : L)
  | resumed (l : L)
  | reacquire (l : L)
  | wakeup (c : C) (l : L)
  | scan (c : C) (l : L)
  | scanned (l : L)
  deriving DecidableEq

namespace Thread

def loc : Thread L C → L
  | .run l | .sleep _ l | .unlock _ l | .mark _ l | .SLEEPING _ l | .RUNNABLE l | .resumed l
  | .reacquire l | .wakeup _ l | .scan _ l | .scanned l => l

def Holds (inside : L → Prop) : Thread L C → Prop
  | .run l => inside l
  | .sleep .. | .unlock .. | .wakeup .. | .scan .. | .scanned .. => True
  | .mark .. | .SLEEPING .. | .RUNNABLE .. | .resumed .. | .reacquire .. => False

def HoldsTable : Thread L C → Prop
  | .unlock .. | .mark .. | .resumed .. | .scan .. | .scanned .. => True
  | .run .. | .sleep .. | .SLEEPING .. | .RUNNABLE .. | .reacquire .. | .wakeup .. => False

/-- The channel of a thread that has given the lock up in `sleep` and was not woken since. -/
def waits : Thread L C → Option C
  | .mark c _ | .SLEEPING c _ => some c
  | _ => none

def asleep : Thread L C → Option C
  | .SLEEPING c _ => some c
  | _ => none

theorem waits_of_asleep {t : Thread L C} {c : C} (h : t.asleep = some c) : t.waits = some c := by
  cases t <;> simp_all [asleep, waits]

/-- Past the test that led to `sleep`, and not yet asleep. -/
def Falling : Thread L C → Prop
  | .sleep .. | .unlock .. | .mark .. => True
  | _ => False

def Scans : Thread L C → Prop
  | .scan .. => True
  | _ => False

def Parked : Thread L C → Prop
  | .sleep .. | .unlock .. | .mark .. | .SLEEPING .. | .RUNNABLE .. | .resumed .. | .reacquire .. =>
    True
  | .run .. | .wakeup .. | .scan .. | .scanned .. => False

/-- The steps of `sleep` and `wakeup` that only take or leave the table lock. -/
def Next : Thread L C → Thread L C → Prop
  | .sleep c l, t => t = .unlock c l
  | .mark c l, t => t = .SLEEPING c l
  | .RUNNABLE l, t => t = .resumed l
  | .resumed l, t => t = .reacquire l
  | .wakeup c l, t => t = .scan c l
  | .scanned l, t => t = .run l
  | _, _ => False

def roused : Thread L C → Thread L C
  | .SLEEPING _ l => .RUNNABLE l
  | t => t

theorem loc_roused (t : Thread L C) : t.roused.loc = t.loc := by
  cases t <;> rfl

theorem loc_next {t t' : Thread L C} (h : t.Next t') : t'.loc = t.loc := by
  cases t <;> simp_all [Thread.Next, Thread.loc]

theorem parked_next {t t' : Thread L C} (h : t.Next t') : t'.Parked ↔ t.Parked := by
  cases t <;> simp_all [Thread.Next, Thread.Parked]

theorem parked_roused (t : Thread L C) : t.roused.Parked ↔ t.Parked := by
  cases t <;> simp [Thread.roused, Thread.Parked]

theorem holds_next {inside : L → Prop} {t t' : Thread L C}
    (hi : (∀ l, t ≠ .run l) → inside t.loc) (h : t.Next t') : t'.Holds inside ↔ t.Holds inside := by
  cases t <;> simp_all [Thread.Next, Thread.Holds, Thread.loc]

variable [DecidableEq C]

def woken (c : C) : Thread L C → Thread L C
  | .SLEEPING c' l => if c' = c then .RUNNABLE l else .SLEEPING c' l
  | t => t

theorem holds_woken (t : Thread L C) (c : C) (inside : L → Prop) :
    (t.woken c).Holds inside ↔ t.Holds inside := by
  cases t <;> simp only [Thread.woken]
  split <;> simp [Thread.Holds]

theorem parked_woken (t : Thread L C) (c : C) : (t.woken c).Parked ↔ t.Parked := by
  cases t <;> simp only [Thread.woken]
  split <;> simp [Thread.Parked]

theorem holdsTable_woken (t : Thread L C) (c : C) : (t.woken c).HoldsTable ↔ t.HoldsTable := by
  cases t <;> simp only [Thread.woken]
  split <;> simp [Thread.HoldsTable]

theorem loc_woken (t : Thread L C) (c : C) : (t.woken c).loc = t.loc := by
  cases t <;> simp only [Thread.woken]
  split <;> rfl

end Thread

structure State (P D L C : Type) where
  data : D
  lock : Option P
  table : Option P
  thread : P → Thread L C

inductive Act (P E V : Type)
  | step (p : P) (e : E)
  | kill (p : P)
  | env (v : V)

/-- Why a thread cannot go on: a spin lock is taken, it is asleep, or its code says so. -/
inductive Stop (X : Type)
  | spins
  | asleep
  | stop (x : X)
  deriving DecidableEq

def State.init (d : D) (l : L) : State P D L C := ⟨d, none, none, fun _ ↦ .run l⟩

structure Locks (π : Program P E V D L C X) (s : State P D L C) : Prop where
  lock : ∀ p, s.lock = some p ↔ (s.thread p).Holds π.inside
  table : ∀ p, s.table = some p ↔ (s.thread p).HoldsTable
  inside : ∀ p, (∀ l, s.thread p ≠ .run l) → π.inside (s.thread p).loc

variable {π : Program P E V D L C X} {s s' : State P D L C}

theorem Locks.init (d : D) {l : L} (hl : ¬ π.inside l) :
    Locks π (.init d l : State P D L C) where
  lock := by simp [State.init, Thread.Holds, hl]
  table := by simp [State.init, Thread.HoldsTable]
  inside := fun p h ↦ absurd rfl (h l)

theorem Locks.inside_loc (h : Locks π s) {p : P}
    (hp : s.lock = some p) : π.inside (s.thread p).loc := by
  cases ht : s.thread p with
  | run l =>
    have := (h.lock p).mp hp
    rwa [ht] at this
  | _ => exact ht ▸ h.inside p (by simp [ht])

theorem Locks.not_scans (h : Locks π s) {p q : P}
    (hp : (s.thread p).Falling) (hq : (s.thread q).Scans) : False := by
  have hlock : s.lock = some q := (h.lock q).mpr (by
    cases ht : s.thread q <;> simp_all [Thread.Scans, Thread.Holds])
  have htable : s.table = some q := (h.table q).mpr (by
    cases ht : s.thread q <;> simp_all [Thread.Scans, Thread.HoldsTable])
  have hne : p ≠ q := by
    rintro rfl
    cases ht : s.thread p <;> simp_all [Thread.Scans, Thread.Falling]
  have hl := h.lock p
  have ht := h.table p
  rw [hlock] at hl
  rw [htable] at ht
  cases ht : s.thread p <;> simp_all [Thread.Falling, Thread.Holds, Thread.HoldsTable]

namespace State

variable [DecidableEq P]

def goto (s : State P D L C) (p : P) (t : Thread L C) : State P D L C :=
  { s with thread := update s.thread p t }

def takeTable (s : State P D L C) (p : P) (t : Thread L C) : Except (Stop X) (State P D L C) :=
  if s.table = none then .ok { s.goto p t with table := some p } else .error .spins

def leaveTable (s : State P D L C) (p : P) (t : Thread L C) : State P D L C :=
  { s.goto p t with table := none }

def takeLock (s : State P D L C) (p : P) (d : D) (l : L) : Except (Stop X) (State P D L C) :=
  if s.lock = none then .ok { s.goto p (.run l) with lock := some p, data := d } else .error .spins

def leaveLock (s : State P D L C) (p : P) (d : D) (t : Thread L C) : State P D L C :=
  { s.goto p t with lock := none, data := d }

def issue (s : State P D L C) (p : P) : Instr D L C → Except (Stop X) (State P D L C)
  | .acquire d l => s.takeLock p d l
  | .act d l => .ok { s.goto p (.run l) with data := d }
  | .sleep c l => .ok (s.goto p (.sleep c l))
  | .wakeup c l => .ok (s.goto p (.wakeup c l))
  | .release d l => .ok (s.leaveLock p d (.run l))

end State

theorem Locks.move [DecidableEq P] {p : P}
    {t : Thread L C} (h : Locks π s) (ht : s'.thread = update s.thread p t)
    (hlock : ∀ q, s'.lock = some q ↔ if q = p then t.Holds π.inside else s.lock = some q)
    (htable : ∀ q, s'.table = some q ↔ if q = p then t.HoldsTable else s.table = some q)
    (hin : (∀ l, t ≠ .run l) → π.inside t.loc) : Locks π s' := by
  constructor
  · intro q
    rw [hlock, ht, update_apply]
    split
    · rfl
    · exact h.lock q
  · intro q
    rw [htable, ht, update_apply]
    split
    · rfl
    · exact h.table q
  · intro q
    rw [ht, update_apply]
    split
    · exact hin
    · exact h.inside q

theorem Locks.woken [DecidableEq C] (h : Locks π s) (c : C) :
    Locks π { s with thread := fun q ↦ (s.thread q).woken c } := by
  refine ⟨fun q ↦ ?_, fun q ↦ ?_, fun q hq ↦ ?_⟩
  · rw [Thread.holds_woken, h.lock]
  · rw [Thread.holdsTable_woken, h.table]
  · simp only [Thread.loc_woken] at hq ⊢
    exact h.inside q (fun l hl ↦ hq l (by simp [hl, Thread.woken]))

variable [DecidableEq P] [DecidableEq C]

def Program.step (π : Program P E V D L C X) :
    Act P E V → State P D L C → Except (Stop X) (State P D L C)
  | .step p e, s =>
    match s.thread p with
    | .run l =>
      match π.next p e l s.data with
      | .ok i => s.issue p i
      | .error x => .error (.stop x)
    | .sleep c l => s.takeTable p (.unlock c l)
    | .unlock c l => .ok (s.leaveLock p s.data (.mark c l))
    | .mark c l => .ok (s.leaveTable p (.SLEEPING c l))
    | .SLEEPING .. => .error .asleep
    | .RUNNABLE l => s.takeTable p (.resumed l)
    | .resumed l => .ok (s.leaveTable p (.reacquire l))
    | .reacquire l => s.takeLock p s.data l
    | .wakeup c l => s.takeTable p (.scan c l)
    | .scan c l => .ok { s with thread := update (fun q ↦ (s.thread q).woken c) p (.scanned l) }
    | .scanned l => .ok (s.leaveTable p (.run l))
  | .kill p, s =>
    if s.table = none then .ok { s.goto p (s.thread p).roused with data := π.kill p s.data }
    else .error .spins
  | .env v, s =>
    match π.env v s.data with
    | .ok d => .ok { s with data := d }
    | .error x => .error (.stop x)

/-- What one step can do. The steps that only take the table lock, and those that only leave it,
are taken together. -/
inductive Step (π : Program P E V D L C X) (s : State P D L C) : Act P E V → State P D L C → Prop
  | acquire (p e l d l') : s.thread p = .run l → π.next p e l s.data = .ok (.acquire d l') →
      s.lock = none → Step π s (.step p e) { s.goto p (.run l') with lock := some p, data := d }
  | act (p e l d l') : s.thread p = .run l → π.next p e l s.data = .ok (.act d l') →
      Step π s (.step p e) { s.goto p (.run l') with data := d }
  | sleep (p e l c l') : s.thread p = .run l → π.next p e l s.data = .ok (.sleep c l') →
      Step π s (.step p e) (s.goto p (.sleep c l'))
  | wakeup (p e l c l') : s.thread p = .run l → π.next p e l s.data = .ok (.wakeup c l') →
      Step π s (.step p e) (s.goto p (.wakeup c l'))
  | release (p e l d l') : s.thread p = .run l → π.next p e l s.data = .ok (.release d l') →
      Step π s (.step p e) (s.leaveLock p d (.run l'))
  | takeTable (p e t) : s.table = none → (s.thread p).Next t → t.HoldsTable →
      Step π s (.step p e) { s.goto p t with table := some p }
  | leaveTable (p e t) : (s.thread p).Next t → (s.thread p).HoldsTable → ¬ t.HoldsTable →
      Step π s (.step p e) (s.leaveTable p t)
  | unlock (p e c l) : s.thread p = .unlock c l → Step π s (.step p e) (s.leaveLock p s.data (.mark c l))
  | reacquire (p e l) : s.thread p = .reacquire l → s.lock = none →
      Step π s (.step p e) { s.goto p (.run l) with lock := some p }
  | scan (p e c l) : s.thread p = .scan c l →
      Step π s (.step p e) { s with thread := update (fun q ↦ (s.thread q).woken c) p (.scanned l) }
  | kill (p) : s.table = none →
      Step π s (.kill p) { s.goto p (s.thread p).roused with data := π.kill p s.data }
  | env (v d) : π.env v s.data = .ok d → Step π s (.env v) { s with data := d }

theorem Step.of_step {a : Act P E V} (h : π.step a s = .ok s') : Step π s a s' := by
  cases a with
  | kill p =>
    simp only [Program.step] at h
    split at h <;> cases h
    exact .kill p ‹_›
  | env v =>
    simp only [Program.step] at h
    split at h <;> cases h
    exact .env v _ ‹_›
  | step p e =>
    cases ht : s.thread p with
    | run l =>
      cases hn : π.next p e l s.data with
      | error x => simp [Program.step, ht, hn] at h
      | ok i =>
        cases i with
        | acquire d l' =>
          simp only [Program.step, ht, hn, State.issue, State.takeLock] at h
          split at h <;> cases h
          exact .acquire p e l d l' ht hn ‹_›
        | act d l' =>
          simp only [Program.step, ht, hn, State.issue] at h
          cases h
          exact .act p e l d l' ht hn
        | sleep c l' =>
          simp only [Program.step, ht, hn, State.issue] at h
          cases h
          exact .sleep p e l c l' ht hn
        | wakeup c l' =>
          simp only [Program.step, ht, hn, State.issue] at h
          cases h
          exact .wakeup p e l c l' ht hn
        | release d l' =>
          simp only [Program.step, ht, hn, State.issue] at h
          cases h
          exact .release p e l d l' ht hn
    | sleep c l | RUNNABLE l | wakeup c l =>
      simp only [Program.step, ht, State.takeTable] at h
      split at h <;> cases h
      exact .takeTable p e _ ‹_› (by simp [ht, Thread.Next]) trivial
    | mark c l | resumed l | scanned l =>
      simp only [Program.step, ht] at h
      cases h
      exact .leaveTable p e _ (by simp [ht, Thread.Next]) (by simp [ht, Thread.HoldsTable])
        (by simp [Thread.HoldsTable])
    | SLEEPING c l => simp [Program.step, ht] at h
    | unlock c l =>
      simp only [Program.step, ht] at h
      cases h
      exact .unlock p e c l ht
    | reacquire l =>
      simp only [Program.step, ht, State.takeLock] at h
      split at h <;> cases h
      exact .reacquire p e l ht ‹_›
    | scan c l =>
      simp only [Program.step, ht] at h
      cases h
      exact .scan p e c l ht

theorem Locks.step {a : Act P E V} (h : Locks π s) (hs : Step π s a s') : Locks π s' := by
  cases hs with
  | acquire p e l d l' ht hn hl =>
    have hb := π.bracketed _ _ _ _ _ hn
    refine h.move rfl (fun q ↦ ?_) (fun q ↦ ?_) (fun h' ↦ absurd rfl (h' l'))
    · have := hb.2
      grind [Thread.Holds]
    · have := h.table q
      grind [Thread.HoldsTable, State.goto]
  | act p e l d l' ht hn | sleep p e l d l' ht hn | wakeup p e l d l' ht hn =>
    have hb := π.bracketed _ _ _ _ _ hn
    refine h.move rfl (fun q ↦ ?_) (fun q ↦ ?_) (fun _ ↦ hb.2)
    · have := h.lock q
      have := hb.1
      have := hb.2
      grind [Thread.Holds, State.goto]
    · have := h.table q
      grind [Thread.HoldsTable, State.goto]
  | release p e l d l' ht hn =>
    have hb := π.bracketed _ _ _ _ _ hn
    refine h.move rfl (fun q ↦ ?_) (fun q ↦ ?_) (fun h' ↦ absurd rfl (h' l'))
    · have := h.lock p
      have := hb.1
      have := hb.2
      grind [Thread.Holds, State.leaveLock]
    · have := h.table q
      grind [Thread.HoldsTable, State.leaveLock, State.goto]
  | takeTable p e t hl hn hh =>
    refine h.move rfl (fun q ↦ ?_) (fun q ↦ ?_) (fun h' ↦ ?_)
    · have := h.lock q
      have := Thread.holds_next (h.inside p) hn
      grind [State.goto]
    · grind
    · rw [Thread.loc_next hn]
      exact h.inside p (by rintro l hl; simp [hl, Thread.Next] at hn)
  | leaveTable p e t hn hh hh' =>
    refine h.move rfl (fun q ↦ ?_) (fun q ↦ ?_) (fun h' ↦ ?_)
    · have := h.lock q
      have := Thread.holds_next (h.inside p) hn
      grind [State.leaveTable, State.goto]
    · have := h.table p
      grind [State.leaveTable]
    · rw [Thread.loc_next hn]
      exact h.inside p (by rintro l hl; simp [hl, Thread.Next] at hn)
  | unlock p e c l ht =>
    have hin := h.inside p (by simp [ht])
    rw [ht] at hin
    refine h.move rfl (fun q ↦ ?_) (fun q ↦ ?_) (fun _ ↦ hin)
    · have := h.lock p
      grind [Thread.Holds, State.leaveLock]
    · have := h.table q
      grind [Thread.HoldsTable, State.leaveLock, State.goto]
  | reacquire p e l ht hl =>
    have hin := h.inside p (by simp [ht])
    rw [ht] at hin
    refine h.move rfl (fun q ↦ ?_) (fun q ↦ ?_) (fun h' ↦ absurd rfl (h' l))
    · have : (Thread.run l : Thread L C).Holds π.inside := hin
      grind
    · have := h.table q
      grind [Thread.HoldsTable, State.goto]
  | scan p e c l ht =>
    have hw := h.woken c
    have hin := h.inside p (by simp [ht])
    rw [ht] at hin
    refine hw.move rfl (fun q ↦ ?_) (fun q ↦ ?_) (fun _ ↦ hin)
    · have := h.lock q
      grind [Thread.Holds]
    · have := h.table q
      grind [Thread.HoldsTable]
  | kill p hl =>
    refine h.move rfl (fun q ↦ ?_) (fun q ↦ ?_) (fun hq ↦ ?_)
    · have := h.lock q
      cases ht : s.thread p <;> grind [Thread.Holds, Thread.roused, State.goto]
    · have := h.table q
      cases ht : s.thread p <;> grind [Thread.HoldsTable, Thread.roused, State.goto]
    · rw [Thread.loc_roused]
      exact h.inside p (fun l hl ↦ hq l (by simp [hl, Thread.roused]))
  | env v d hv => exact ⟨h.lock, h.table, h.inside⟩

end Xv6Bfs.Lib.Monitor

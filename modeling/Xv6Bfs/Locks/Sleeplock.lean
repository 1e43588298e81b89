import Mathlib.Data.Int.Notation
import Xv6Bfs.Lib.Signals

namespace Xv6Bfs.Locks

open Lib.Execution Lib.Monitor Function

variable {P : Type}

/-- `struct sleeplock` without its spin lock. The process that took it last is kept beside it. -/
structure Sleeplock (P : Type) where
  locked : Bool
  pid : ℤ
  owner : Option P

/-- Where a process is: the test of `acquiresleep`, its end, between `acquiresleep` and
`releasesleep`, and the steps of `releasesleep`. -/
inductive Pc
  | idle
  | test
  | taken
  | holding
  | drop
  | wakeup
  | done
  deriving DecidableEq, Repr

def Pc.between : Pc → Bool
  | .taken | .holding | .drop => true
  | _ => false

def Pc.inside : Pc → Prop
  | .idle | .holding => False
  | _ => True

def next (pid : P → ℤ) (p : P) (pc : Pc) (d : Sleeplock P) : Instr (Sleeplock P) Pc Unit :=
  match pc with
  | .idle => .acquire d .test
  | .test => if d.locked then .sleep () .test else .act ⟨true, pid p, some p⟩ .taken
  | .taken => .release d .holding
  | .holding => .acquire d .drop
  | .drop => .act ⟨false, 0, none⟩ .wakeup
  | .wakeup => .wakeup () .done
  | .done => .release d .idle

def program (pid : P → ℤ) : Program P Unit Empty (Sleeplock P) Pc Unit Empty where
  next p _ pc d := .ok (next pid p pc d)
  kill _ d := d
  env := nofun
  inside := Pc.inside
  bracketed := by
    intro p _ pc d i h
    cases h
    cases pc with
    | test => simp only [next]; split <;> simp [Instr.Bracketed, Pc.inside]
    | _ => simp [next, Instr.Bracketed, Pc.inside]

def init : State P (Sleeplock P) Pc Unit := .init ⟨false, 0, none⟩ .idle

section

variable {pid : P → ℤ} {p : P} {pc pc' : Pc} {d d' : Sleeplock P}

theorem next_acquire (h : next pid p pc d = .acquire d' pc') :
    d' = d ∧ pc'.between = pc.between ∧ pc'.inside := by
  cases pc <;> simp only [next] at h <;> grind [Pc.between, Pc.inside]

theorem next_act (h : next pid p pc d = .act d' pc') :
    (pc = .test ∧ d.locked = false ∧ d' = ⟨true, pid p, some p⟩ ∧ pc' = .taken) ∨
    (pc = .drop ∧ d' = ⟨false, 0, none⟩ ∧ pc' = .wakeup) := by
  cases pc <;> simp only [next] at h <;> grind

theorem next_sleep {c : Unit} (h : next pid p pc d = .sleep c pc') :
    pc = .test ∧ pc' = .test ∧ d.locked = true := by
  cases pc <;> simp only [next] at h <;> grind

theorem next_wakeup {c : Unit} (h : next pid p pc d = .wakeup c pc') : pc = .wakeup ∧ pc' = .done := by
  cases pc <;> simp only [next] at h <;> grind

theorem next_release (h : next pid p pc d = .release d' pc') :
    d' = d ∧ pc'.between = pc.between ∧ (pc = .taken ∨ pc = .done) := by
  cases pc <;> simp only [next] at h <;> grind [Pc.between]

end

/-- The lock is taken exactly while it has an owner, who is then at a place between
`acquiresleep` and `releasesleep`. -/
def outline (pid : P → ℤ) : Outline (program pid) where
  free d := d.locked = true ↔ d.owner ≠ none
  own p pc d := pc.between = true ↔ d.owner = some p
  held _ _ d := d.locked = true ↔ d.owner ≠ none
  resumes _ := True
  resume _ _ _ _ _ hf := hf
  kill_free _ _ h := h
  kill_own _ _ _ _ h := h
  kill_held _ _ _ _ h := h
  env_free := nofun
  env_own := nofun
  env_held := nofun
  acquire := by
    intro p e pc d d' pc' h ho hf
    obtain ⟨rfl, hb, -⟩ := next_acquire (Except.ok.inj h)
    exact ⟨by rw [hb]; exact ho, hf, fun _ _ _ hq ↦ hq⟩
  act := by
    intro p e pc d d' pc' h ho hh
    rcases next_act (Except.ok.inj h) with ⟨rfl, hl, rfl, rfl⟩ | ⟨rfl, rfl, rfl⟩
    · refine ⟨by simp [Pc.between], by simp, fun q m hq hm ↦ ?_⟩
      -- nobody else had it
      have hnone : d.owner = none := by simpa [hl] using hh
      rw [hnone] at hm
      simpa [hq.symm] using hm
    · have hp : d.owner = some p := ho.mp rfl
      refine ⟨by simp [Pc.between], by simp, fun q m hq hm ↦ ?_⟩
      rw [hp] at hm
      simpa [hq.symm] using hm
  sleep := by
    intro p e pc d c pc' h ho hh
    obtain ⟨rfl, rfl, -⟩ := next_sleep (Except.ok.inj h)
    exact ⟨ho, hh, trivial⟩
  wakeup := by
    intro p e pc d c pc' h ho hh
    obtain ⟨rfl, rfl⟩ := next_wakeup (Except.ok.inj h)
    exact ⟨ho, hh⟩
  release := by
    intro p e pc d d' pc' h ho hh
    obtain ⟨rfl, hb, -⟩ := next_release (Except.ok.inj h)
    exact ⟨by rw [hb]; exact ho, hh, fun _ _ _ hq ↦ hq⟩

/-- Waiters wait for the lock to be given back, and `releasesleep` owes them a `wakeup`. -/
def signals (pid : P → ℤ) : Signals (outline pid) where
  wait _ d := d.locked = true
  owes pc _ := pc = .wakeup
  kill _ _ _ h := h
  env := nofun
  acquire := by
    intro p e pc d d' pc' c h _ hw
    obtain ⟨rfl, -⟩ := next_acquire (Except.ok.inj h)
    exact .inl hw
  act := by
    intro p e pc d d' pc' c h _
    rcases next_act (Except.ok.inj h) with ⟨rfl, hl, rfl, rfl⟩ | ⟨rfl, rfl, rfl⟩
    · exact ⟨nofun, fun _ ↦ .inl rfl⟩
    · exact ⟨nofun, fun _ ↦ .inr rfl⟩
  sleep := by
    intro p e pc d c pc' h _
    exact (next_sleep (Except.ok.inj h)).2.2
  wakeup := by
    intro p e pc d c c' pc' _ _
    exact .inl rfl
  release := by
    intro p e pc d d' pc' c h hw
    obtain ⟨rfl, -⟩ := next_release (Except.ok.inj h)
    exact hw

theorem pays (pid : P → ℤ) (a : Act P Unit Empty) (s : State P (Sleeplock P) Pc Unit) :
    (signals pid).Pays a s := by
  apply Signals.pays
  · intro p e pc d d' pc' c h ho
    have := (next_release (Except.ok.inj h)).2.2
    cases ho
    simp at this
  · intro p e pc d c' pc' c h ho
    have := (next_sleep (Except.ok.inj h)).1
    cases ho
    simp at this

theorem init_inv (pid : P → ℤ) : (outline pid).Inv init :=
  .init id (by simp [outline]) (by simp [outline, Pc.between])

variable [DecidableEq P]

/-- A sleep lock has at most one owner, nobody sleeps on it while it is free, and no `wakeup` looks
through the table between the test of a waiter and its going to sleep. -/
theorem sleeplock_excludes {pid : P → ℤ} {acts : List (Act P Unit Empty)}
    {s : State P (Sleeplock P) Pc Unit} (h : exec (program pid).step acts init = .ok s) :
    (∀ p q, (s.thread p).loc.between = true → (s.thread q).loc.between = true → p = q) ∧
    (s.lock = none → ∀ p, (s.thread p).asleep = some () → s.data.locked = true) ∧
    (∀ p, (s.thread p).Falling → ∀ q, ¬ (s.thread q).Scans) := by
  obtain ⟨ho, hs⟩ := (Signals.Inv.init (S := signals pid) _ _).run (init_inv pid)
    ((meets_true _ _ _).mono (fun _ _ _ ↦ pays pid _ _)) h
  refine ⟨fun p q hp hq ↦ ?_, fun hl p hp ↦ hs.wait_of_asleep hl hp, fun p hp q hq ↦ ?_⟩
  · have hp' := (ho.own p).mp hp
    rw [(ho.own q).mp hq] at hp'
    exact (Option.some.inj hp').symm
  · exact ho.locks.not_scans hp hq

/-- One process has the lock, and another one sleeps on it. -/
theorem sleeplock_excludes_waiter : ∃ s : State (Fin 2) (Sleeplock (Fin 2)) Pc Unit,
    exec (program fun p : Fin 2 ↦ p + 1).step
      (List.replicate 3 (.step 0 ()) ++ List.replicate 5 (.step 1 ())) init = .ok s ∧
    (s.thread 0).loc = .holding ∧ (s.thread 1).asleep = some () ∧ s.data.locked = true := by
  refine Ensures.exists_ok_and (fun s ↦ s.lock = none ∧ (s.thread 0).loc = .holding ∧
    (s.thread 1).asleep = some ()) (by decide +kernel) ?_
  rintro s he ⟨hl, h0, h1⟩
  exact ⟨h0, h1, (sleeplock_excludes he).2.1 hl 1 h1⟩

end Xv6Bfs.Locks

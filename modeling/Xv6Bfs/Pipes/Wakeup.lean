import Mathlib.Data.Fintype.Basic
import Xv6Bfs.Pipes.Fifo

namespace Xv6Bfs.Pipes

open Lib.Execution Lib.RingBuffer Lib.Monitor Function

variable {P : Type}

def wait (c : Chan) (d : Mem P) : Prop :=
  match c with
  | .nread => d.pipe.nread = d.pipe.nwrite ∧ d.pipe.writeopen = true
  | .nwrite => d.pipe.nwrite = d.pipe.nread + BitVec.ofNat 32 PIPESIZE ∧ d.pipe.readopen = true

def owes (pc : Pc) (c : Chan) : Prop :=
  match pc with
  | .write .. => c = .nread
  | .readCopy .. => c = .nwrite
  | .closeWakeup w _ => c = if w then .nread else .nwrite
  | _ => False

variable [DecidableEq P]

def signals (P : Type) [DecidableEq P] : Signals (outline P) where
  wait := wait
  owes := owes
  kill := by
    intro p c d h
    cases c <;> exact h
  env := nofun
  acquire := by
    intro p call pc d d' pc' c h _ hw
    left
    cases Move.of_next h <;> cases c <;> exact hw
  act := by
    intro p call pc d d' pc' c h _
    cases Move.of_next h with
    | store addr n i hi hf =>
      refine ⟨fun ho ↦ ho, fun hw ↦ .inr ?_⟩
      cases c with
      | nread => rfl
      | nwrite => simp [Pipe.full, hw.1] at hf
    | readReady n => exact ⟨fun ho ↦ ho.elim, .inl⟩
    | fetch n i hi hne =>
      refine ⟨fun ho ↦ ho, fun hw ↦ .inr ?_⟩
      cases c with
      | nread => exact absurd hw.1 hne
      | nwrite => rfl
    | close w rest =>
      refine ⟨fun ho ↦ ho.elim, fun hw ↦ ?_⟩
      cases w <;> cases c
      · exact .inl hw
      · exact .inr rfl
      · exact .inr rfl
      · exact .inl hw
  sleep := by
    intro p call pc d c pc' h hh
    cases Move.of_next h with
    | writeSleep addr n i => exact ⟨by simpa [Pipe.full] using hh.2.1, hh.2.2⟩
    | readSleep n he hw => exact ⟨he, hw⟩
  wakeup := by
    intro p call pc d c c' pc' h ho
    left
    cases Move.of_next h <;> exact ho
  release := by
    intro p call pc d d' pc' c h hw
    cases Move.of_next h with
    | closed rest =>
      unfold pipefree
      split <;> cases c <;> exact hw
    | _ => cases c <;> exact hw

/-- `pipewrite` finds the pipe full, and gives up since nobody can read or since it was killed. -/
def givesUp (s : State P (Mem P) Pc Chan) (p : P) : Bool :=
  match s.thread p with
  | .run (.write _ n i) =>
    decide (i < n) && s.data.pipe.full && (!s.data.pipe.readopen || s.data.killed p)
  | _ => false

/-- No process is asleep on `&p->nread`, or about to be, when a `pipewrite` gives up. -/
def GivesUpUnwatched : Act P Call Empty → State P (Mem P) Pc Chan → Prop
  | .step p _, s => givesUp s p = true → ∀ q, (s.thread q).waits ≠ some .nread
  | .kill _, _ => True

instance [Fintype P] (a : Act P Call Empty) (s : State P (Mem P) Pc Chan) :
    Decidable (GivesUpUnwatched a s) :=
  match a with
  | .step _ _ => inferInstanceAs (Decidable (_ → _))
  | .kill _ => isTrue trivial

theorem GivesUpUnwatched.pays {a : Act P Call Empty} {s : State P (Mem P) Pc Chan}
    (h : GivesUpUnwatched a s) : (signals P).Pays a s := by
  apply Signals.pays_of
  · intro p call pc d' pc' c ha ht hn ho
    subst ha
    cases Move.of_next hn with
    | giveUp addr n i hi hf hk =>
      cases ho
      apply h
      have hk' : (!s.data.pipe.readopen || s.data.killed p) = true := by
        rcases hk with hk | hk <;> simp [hk]
      simp [givesUp, ht, hi, hf, hk']
    | _ => exact ho.elim
  · intro p call pc c' pc' c ha ht hn ho
    cases Move.of_next hn <;> exact ho.elim

/-- In every run in which no process is asleep on `&p->nread` when a `pipewrite` gives up, whoever
sleeps while the lock of the pipe is free sleeps for a reason: a reader on an empty pipe that can
still be written, and a writer on a full pipe that can still be read. -/
theorem sleeps_only_on_unready_pipe {page : ℕ → UInt8} {killed : P → Bool} {acts : List (Act P Call Empty)}
    {s : State P (Mem P) Pc Chan}
    (hg : Meets (program P).step GivesUpUnwatched acts (init page killed))
    (h : exec (program P).step acts (init page killed) = .ok s) (hl : s.lock = none) (p : P) :
    ((s.thread p).asleep = some .nread →
      s.data.pipe.nread = s.data.pipe.nwrite ∧ s.data.pipe.writeopen = true) ∧
    ((s.thread p).asleep = some .nwrite →
      s.data.pipe.nwrite = s.data.pipe.nread + BitVec.ofNat 32 PIPESIZE ∧
        s.data.pipe.readopen = true) := by
  have hs := (Signals.Inv.init (S := signals P) _ _).run (init_inv page killed)
    (hg.mono (fun _ _ ha ↦ ha.pays)) h
  exact ⟨hs.2.wait_of_asleep hl, hs.2.wait_of_asleep hl⟩

/-- One byte is written and read, and the reader sleeps in its next call. -/
theorem sleeps_only_on_unready_pipe_reader : ∃ s : State (Fin 2) (Mem (Fin 2)) Pc Chan,
    exec (program (Fin 2)).step
      (List.replicate 7 (.step 0 (.pipewrite (fun _ ↦ 7) 1)) ++ List.replicate 13 (.step 1 (.piperead 1)))
      (init (fun _ ↦ 0) fun _ ↦ false) = .ok s ∧
    (s.thread 1).asleep = some .nread ∧ s.data.pipe.nread = s.data.pipe.nwrite := by
  refine Ensures.exists_ok_and (fun s ↦ s.lock = none ∧ (s.thread 1).asleep = some .nread)
    (by decide +kernel) ?_
  rintro s he ⟨hl, hp⟩
  exact ⟨hp, ((sleeps_only_on_unready_pipe (by decide +kernel) he hl 1).1 hp).1⟩

/-- A reader sleeps. A writer fills the pipe, is killed, and gives up without a `wakeup`. -/
theorem reader_asleep_on_full_pipe : ∃ s : State (Fin 2) (Mem (Fin 2)) Pc Chan,
    exec (program (Fin 2)).step
      (List.replicate 5 (.step 0 (.piperead 1)) ++
        List.replicate 513 (.step 1 (.pipewrite (fun _ ↦ 7) 513)) ++
        [.kill 1, .step 1 (.pipewrite (fun _ ↦ 7) 513)]) (init (fun _ ↦ 0) fun _ ↦ false) = .ok s ∧
    s.lock = none ∧ s.table = none ∧ (s.thread 0).asleep = some .nread ∧
    s.data.pipe.writeopen = true ∧ s.data.pipe.nread ≠ s.data.pipe.nwrite ∧
    s.data.pipe.nwrite = s.data.pipe.nread + BitVec.ofNat 32 PIPESIZE :=
  Ensures.exists_ok (by decide +kernel)

end Xv6Bfs.Pipes

import Xv6Bfs.Sched.Steps

namespace Xv6Bfs.Sched

open Lib.Execution Lib.KeyedQueue

variable {short kind : Prop} {s s' : Kernel} {a : EdfKernel}

/-- A state at which `ptable.lock` is free. -/
def Reachable (s : Kernel) : Prop := ∃ seed l, exec Kernel.step l (boot seed) = .ok s

/-- The kernel is in a state of the abstract one in which the invariant and `I` hold. -/
def Tracks (I : Flux × EdfKernel → Prop) (s : Kernel) : Prop :=
  ∃ a, Agrees Represents s a ∧ Inv .stable a ∧ I (.stable, a)

def Op.Meets (short kind : Prop) (act : Op × Env) (s : Kernel) : Prop :=
  (short → act.1.Short s.toCore) ∧ (kind → act.1.Kind s.toCore)

theorem Op.meets_free (act : Op × Env) (s : Kernel) : Op.Meets False False act s :=
  ⟨False.elim, False.elim⟩

theorem Kernel.step_ensures (h : Agrees Represents s a) (hi : Inv .stable a) (act : Op × Env)
    (hc : Op.Meets short kind act s) :
    Ensures (fun s' ↦ ∃ b, Agrees Represents s' b ∧ Moves short kind (.stable, a) (.stable, b))
      (fun e ↦ LostRead e ∨ act.1.Expected e) (Kernel.step act s) := by
  have hstep := EdfKernel.step_ensures hi act.1 (fun hs ↦ h.1 ▸ hc.1 hs) (fun hk ↦ h.1 ▸ hc.2 hk)
  refine (step_refines h act).ensures hstep ?_
  rintro e rfl he
  cases hop : act.1 <;> rw [hop] at he <;> exact he

section Invariant

variable {I : Flux × EdfKernel → Prop}
  (hmove : ∀ {x a y b}, Move short kind (x, a) (y, b) → Inv x a → I (x, a) → I (y, b))

include hmove

theorem Moves.keeps {x y : Flux} {a b : EdfKernel} (h : Moves short kind (x, a) (y, b))
    (hi : Inv x a) (ha : I (x, a)) : Inv y b ∧ I (y, b) :=
  h.preserves (I := fun s ↦ Inv s.1 s.2 ∧ I s) (fun _ _ hm hs ↦ ⟨hm.inv hs.1, hmove hm hs.1 hs.2⟩)
    ⟨hi, ha⟩

theorem Tracks.step (h : Tracks I s) {act : Op × Env} (hc : Op.Meets short kind act s)
    (he : Kernel.step act s = .ok s') : Tracks I s' := by
  obtain ⟨a, hag, hi, ha⟩ := h
  obtain ⟨b, hag', hm⟩ := (Kernel.step_ensures hag hi act hc).of_ok he
  exact ⟨b, hag', Moves.keeps hmove hm hi ha⟩

theorem Tracks.run (h : Tracks I s) {l : List (Op × Env)}
    (hc : Meets Kernel.step (Op.Meets short kind) l s) (he : exec Kernel.step l s = .ok s') :
    Tracks I s' :=
  exec_invariant_of_meets (fun _ _ _ hs hc he ↦ Tracks.step hmove hs hc he) h hc he

end Invariant

theorem boot_tracks {I : Flux × EdfKernel → Prop} (h : I (.stable, EdfKernel.boot))
    (seed : BitVec 32) : Tracks I (boot seed) :=
  ⟨_, boot_agrees seed, boot_inv, h⟩

theorem Reachable.tracks {I : Flux × EdfKernel → Prop}
    (hmove : ∀ {x a y b}, Move False False (x, a) (y, b) → Inv x a → I (x, a) → I (y, b))
    (hboot : I (.stable, EdfKernel.boot)) (h : Reachable s) : Tracks I s := by
  obtain ⟨seed, l, he⟩ := h
  exact exec_invariant (fun _ _ _ hs he ↦ Tracks.step hmove hs (Op.meets_free _ _) he)
    (boot_tracks hboot seed) he

theorem Reachable.sim (h : Reachable s) : ∃ a, Agrees Represents s a ∧ Inv .stable a := by
  obtain ⟨a, hag, hi, -⟩ := h.tracks (I := fun _ ↦ True) (fun _ _ _ ↦ trivial) trivial
  exact ⟨a, hag, hi⟩

theorem Reachable.step (h : Reachable s) {act : Op × Env} (he : Kernel.step act s = .ok s') :
    Reachable s' := by
  obtain ⟨seed, l, hl⟩ := h
  refine ⟨seed, l ++ [act], ?_⟩
  rw [exec_append, hl, ok_bind, exec_cons, he, ok_bind, exec_nil]

/-- The `random` of the source, and a null process below level 0. -/
def withRandom (ops : List Op) : List (Op × Env) := ops.map (·, ⟨some none, random⟩)

def runOps (ops : List Op) : Except Stop Kernel := exec Kernel.step (withRandom ops) (boot SEED)

theorem runOps_reachable {ops : List Op} (h : runOps ops = .ok s) : Reachable s := ⟨_, _, h⟩

theorem exists_reachable {post : Kernel → Prop} (ops : List Op)
    (h : Ensures post (fun _ ↦ False) (runOps ops)) : ∃ s, Reachable s ∧ post s := by
  obtain ⟨s, hs, hpost⟩ := h.exists_ok
  exact ⟨s, runOps_reachable hs, hpost⟩

def startOps : List Op := [.userinit true, .userinitRun true, .scheduler]

def forkOps (niceValue : ℤ) : List Op :=
  .nicefork niceValue :: List.replicate 7 (.niceforkStep true)

theorem exists_forked : ∃ s, Reachable s ∧ (s.proc 0).state = .RUNNING ∧ (s.proc 1).state = .RUNNABLE :=
  exists_reachable (startOps ++ forkOps 0) (by decide +kernel)

end Xv6Bfs.Sched

import Xv6Bfs.Sched.Reachable

namespace Xv6Bfs.Sched

open Lib.Execution Lib.KeyedQueue

variable {s : Kernel} {a : EdfKernel} {p q : ProcId}

def Kernel.Selects (s : Kernel) (p : ProcId) : Prop :=
  s.phase = .running ∧ s.cpuProc = none ∧ s.queue.first = .ok (some p)

/-- Among the processes that can run, `p` has the earliest deadline, and it was inserted
after every other one with that deadline. -/
def Core.Earliest (c : Core) (p : ProcId) : Prop :=
  (c.proc p).state = .RUNNABLE ∧ ∀ q, (c.proc q).state = .RUNNABLE → q ≠ p →
    c.deadline p < c.deadline q ∨ c.deadline p = c.deadline q ∧
      c.log.idxOf (.inserted p) < c.log.idxOf (.inserted q)

theorem Represents.first {t : SkipList} {l : List ProcId} (h : Represents t l) :
    t.first = .ok l.head? := by
  obtain ⟨-, ⟨vd, L, hrep, rfl⟩, rfl, -⟩ := h
  exact SkipList.first_spec hrep

theorem Inv.mem_queue (h : Inv .stable a) : p ∈ a.queue ↔ (a.proc p).state.Queued := by
  simp [h.queue.mem, Flux.leaving]

theorem Inv.not_running (h : Inv .stable a) (hc : a.cpuProc = none) (q : ProcId) :
    (a.proc q).state ≠ .RUNNING := fun hr ↦ by
  have hcpu := (h.thread.cpu q).mpr (.inl hr)
  rw [hc] at hcpu
  cases hcpu

theorem Inv.head_earliest (h : Inv .stable a) (hc : a.cpuProc = none)
    (hp : a.queue.head? = some p) : a.Earliest p := by
  obtain ⟨l, hl⟩ := List.head?_eq_some_iff.mp hp
  have hmem : p ∈ a.queue := by simp [hl]
  refine ⟨(h.mem_queue.mp hmem).resolve_right (h.not_running hc p), fun q hq hne ↦ ?_⟩
  have hq : q ∈ a.queue := h.mem_queue.mpr (.inl hq)
  have hranked := h.queue.ranked
  rw [hl] at hq hranked
  exact hranked.head ((List.mem_cons.mp hq).resolve_left hne)

theorem Reachable.earliest (h : Reachable s) (hp : s.Selects p) : s.Earliest p := by
  obtain ⟨a, ⟨hcore, hrep⟩, hi⟩ := h.sim
  obtain ⟨-, hc, hf⟩ := hp
  rw [hcore] at hc ⊢
  rw [hrep.first] at hf
  exact hi.head_earliest hc (Except.ok.inj hf)

/-- A turn of `scheduler` switches to the process with the earliest deadline, and idles
only if there is none. -/
theorem scheduler_earliest_deadline (h : Reachable s) (hph : s.phase = .running)
    (hc : s.cpuProc = none) (env : Env) :
    (∀ q, (s.proc q).state ≠ .RUNNING) ∧
    ((∃ p, s.Earliest p ∧
        Kernel.step (.scheduler, env) s = (s.dispatch p).resume (skipQueue env) p) ∨
      (∀ q, (s.proc q).state ≠ .RUNNABLE) ∧
        Kernel.step (.scheduler, env) s = .ok (s.on (·.emit .idled))) := by
  obtain ⟨a, ⟨hcore, hrep⟩, hi⟩ := h.sim
  have hca : a.cpuProc = none := hcore ▸ hc
  refine ⟨fun q ↦ hcore ▸ hi.not_running hca q, ?_⟩
  simp only [Kernel.step, Machine.step, hph, hc, and_self, if_true, Machine.scheduler, skipQueue,
    hrep.first, ok_bind]
  cases hh : a.queue.head? with
  | some p => exact .inl ⟨p, hcore ▸ hi.head_earliest hca hh, rfl⟩
  | none =>
    refine .inr ⟨fun q hq ↦ ?_, rfl⟩
    have hmem : q ∈ a.queue := hi.mem_queue.mpr (.inl (hcore ▸ hq))
    simp [List.head?_eq_none_iff.mp hh] at hmem

theorem scheduler_earliest_deadline_forked : ∃ s : Kernel, s.phase = .running ∧ s.cpuProc = none ∧
    (s.proc 0).state = .RUNNABLE ∧ (s.proc 1).state = .RUNNABLE ∧
    ∃ p, s.Earliest p ∧ Kernel.step (.scheduler, ⟨some none, random⟩) s =
      (s.dispatch p).resume (skipQueue ⟨some none, random⟩) p := by
  obtain ⟨s, hs, hph, hc, h0, h1⟩ : ∃ s, Reachable s ∧ s.phase = .running ∧ s.cpuProc = none ∧
      (s.proc 0).state = .RUNNABLE ∧ (s.proc 1).state = .RUNNABLE :=
    exists_reachable (startOps ++ forkOps 0 ++ [.yield]) (by decide +kernel)
  have hturn := scheduler_earliest_deadline hs hph hc ⟨some none, random⟩
  exact ⟨s, hph, hc, h0, h1, hturn.2.resolve_right (fun hidle ↦ hidle.1 0 h0)⟩

theorem EdfKernel.run_ensures (ops : List Op) (h : Inv .stable a) :
    Ensures (Inv .stable) (· ≠ .contract) (exec EdfKernel.step ops a) := by
  induction ops generalizing a with
  | nil => exact h
  | cons op ops ih =>
    have hstep : Ensures (Inv .stable) (· ≠ .contract) (EdfKernel.step op a) := by
      refine ((EdfKernel.step_ensures h op (fun hf : False ↦ hf.elim)
        (fun hf : False ↦ hf.elim)).mono (fun b hb ↦ hb.inv h)).weaken ?_
      rintro e he rfl
      cases op <;> exact he
    exact hstep.bind (fun b hb ↦ ih hb)

theorem bottom_run_not_contract (ops : List Op) :
    exec bottomStep ops bottomBoot ≠ .error .contract := by
  intro he
  have hrun := EdfKernel.run_ensures ops boot_inv
  have href := bottom_run_edf ops
  rw [he] at href
  generalize exec EdfKernel.step ops EdfKernel.boot = y at href hrun
  cases href with
  | error => exact hrun rfl
  | lost _ hl => exact not_lostRead_contract _ rfl hl
  | undef _ hu => exact hrun hu

/-- Two runs of the same operations agree in everything but the upper levels, whatever
the seeds and the outcomes of `random`, unless the second one is lost to the read outside
the array. -/
theorem schedule_independent_of_heights {seed₁ seed₂ : BitVec 32} {l₁ l₂ : List (Op × Env)}
    {s₁ : Kernel} (hops : l₁.map Prod.fst = l₂.map Prod.fst)
    (h₁ : exec Kernel.step l₁ (boot seed₁) = .ok s₁) :
    (∃ s₂, exec Kernel.step l₂ (boot seed₂) = .ok s₂ ∧ s₁.toCore = s₂.toCore ∧
      s₁.queue.levelProcs 0 = s₂.queue.levelProcs 0 ∧
      ∃ l, s₁.queue.LevelRep 0 l ∧ s₂.queue.LevelRep 0 l) ∨
    ∃ e, exec Kernel.step l₂ (boot seed₂) = .error e ∧ LostRead e := by
  have href₁ := run_bottom seed₁ l₁
  have href₂ := run_bottom seed₂ l₂
  have hrun := bottom_run_not_contract (l₂.map Prod.fst)
  rw [h₁, hops] at href₁
  generalize exec bottomStep (l₂.map Prod.fst) bottomBoot = y at href₁ href₂ hrun
  cases href₁ with
  | undef _ hu => exact absurd (congrArg _ hu) hrun
  | ok hag₁ =>
    generalize exec Kernel.step l₂ (boot seed₂) = x at href₂
    cases href₂ with
    | lost _ hl => exact .inr ⟨_, rfl, hl⟩
    | ok hag₂ =>
      obtain ⟨hcore₁, vd₁, L₁, hrep₁, hL₁⟩ := hag₁
      obtain ⟨hcore₂, vd₂, L₂, hrep₂, hL₂⟩ := hag₂
      refine .inl ⟨_, rfl, hcore₁.trans hcore₂.symm, ?_, L₁ 0, hrep₁.level 0 inLevels_zero, ?_⟩
      · rw [SkipList.levelProcs_eq hrep₁ inLevels_zero, SkipList.levelProcs_eq hrep₂ inLevels_zero,
          procs, procs, hL₁, hL₂]
      · rw [hL₁, ← hL₂]
        exact hrep₂.level 0 inLevels_zero

/-- In one run every process is on all levels, in the other one on the bottom level only. -/
theorem schedule_independent_of_heights_forked :
    ∃ s₁ s₂ : Kernel, s₁.queue.levelProcs 3 = [1, 0] ∧ s₂.queue.levelProcs 1 = [] ∧
      s₁.toCore = s₂.toCore ∧ s₁.queue.levelProcs 0 = s₂.queue.levelProcs 0 := by
  let l₁ : List (Op × Env) := (startOps ++ forkOps 0).map (·, ⟨some none, fun seed _ ↦ (0, seed)⟩)
  let l₂ : List (Op × Env) := (startOps ++ forkOps 0).map (·, ⟨some none, fun seed _ ↦ (9999, seed)⟩)
  have hrun₁ : Ensures (fun s : Kernel ↦ s.queue.levelProcs 3 = [1, 0]) (fun _ ↦ False)
      (exec Kernel.step l₁ (boot SEED)) := by decide +kernel
  have hrun₂ : Ensures (fun s : Kernel ↦ s.queue.levelProcs 1 = []) (fun _ ↦ False)
      (exec Kernel.step l₂ (boot 1)) := by decide +kernel
  obtain ⟨s₁, h₁, h3⟩ := hrun₁.exists_ok
  obtain ⟨s₂, h₂, h1⟩ := hrun₂.exists_ok
  have hops : l₁.map Prod.fst = l₂.map Prod.fst := by decide
  rcases @schedule_independent_of_heights _ 1 _ _ _ hops h₁ with
    ⟨s, he, hcore, hbottom, -⟩ | ⟨e, he, -⟩
  · cases h₂.symm.trans he
    exact ⟨s₁, s₂, h3, h1, hcore, hbottom⟩
  · cases h₂.symm.trans he

end Xv6Bfs.Sched

import Xv6Bfs.Sched.Reachable

namespace Xv6Bfs.Sched

open Lib.Execution

variable {s : Kernel} {p : ProcId}

theorem Reachable.rep (h : Reachable s) :
    ∃ L, SkipList.Rep s.deadline s.queue L ∧ ∀ p, p ∈ procs L 0 ↔ (s.proc p).state.Queued := by
  obtain ⟨a, ⟨hcore, hrep⟩, hi⟩ := h.sim
  rw [hcore]
  obtain ⟨L, hL, hq⟩ := hrep.rep hi.queue.sorted
  refine ⟨L, hL, fun p ↦ ?_⟩
  rw [hq, hi.queue.mem]
  simp [Flux.leaving]

/-- In every reachable state the skip list is well formed, and its bottom level holds the
processes that are RUNNABLE or RUNNING, each one once. -/
theorem runQueue_wellFormed (h : Reachable s) :
    ∃ L, SkipList.Rep s.deadline s.queue L ∧
      (∀ k, InLevels k → (procs L k).Pairwise (fun p q ↦ s.deadline p ≤ s.deadline q)) ∧
      (∀ k, InLevels k → ∀ j, 1 ≤ j → j ≤ NPROC →
        ((s.queue.level (.cell k j)).proc ≠ none ↔ j ∈ (L k).map Prod.fst)) ∧
      ∀ p, (procs L 0).count p =
        if (s.proc p).state = .RUNNABLE ∨ (s.proc p).state = .RUNNING then 1 else 0 := by
  obtain ⟨L, hL, hmem⟩ := h.rep
  refine ⟨L, hL, fun k hk ↦ hL.sorted_at hk, fun k hk j h1 h2 ↦ ⟨fun hp ↦ ?_, fun hj ↦ ?_⟩,
    fun p ↦ ?_⟩
  · by_contra hj
    exact hp ((hL.level k hk).free j h1 h2 hj)
  · obtain ⟨e, he, rfl⟩ := List.mem_map.mp hj
    have hholds := (hL.level k hk).holds e he
    rw [ptr] at hholds
    simp [hholds]
  · split
    · rename_i hp
      exact List.count_eq_one_of_mem hL.nodup ((hmem p).mpr hp)
    · rename_i hp
      exact List.count_eq_zero_of_not_mem (fun hm ↦ hp ((hmem p).mp hm))

theorem runQueue_wellFormed_forked : ∃ s, Reachable s ∧ (s.proc 0).state = .RUNNING ∧
    (s.proc 1).state = .RUNNABLE ∧ ∃ L, SkipList.Rep s.deadline s.queue L ∧
      (∀ k, InLevels k → (procs L k).Pairwise (fun p q ↦ s.deadline p ≤ s.deadline q)) ∧
      (∀ k, InLevels k → ∀ j, 1 ≤ j → j ≤ NPROC →
        ((s.queue.level (.cell k j)).proc ≠ none ↔ j ∈ (L k).map Prod.fst)) ∧
      ∀ p, (procs L 0).count p =
        if (s.proc p).state = .RUNNABLE ∨ (s.proc p).state = .RUNNING then 1 else 0 := by
  obtain ⟨s, hs, h0, h1⟩ := exists_forked
  exact ⟨s, hs, h0, h1, runQueue_wellFormed hs⟩

/-- The panics that would show a broken run queue or a broken hand-over of the CPU. -/
def schedulerPanics : List Panic :=
  [.insertNoLower, .noMemory, .deleteNoLower, .deleteBeyond, .deleteNoPrev, .selectedZero,
    .schedRunning, .zombieExit]

theorem Reachable.step_error (h : Reachable s) {act : Op × Env} {e : Stop}
    (he : Kernel.step act s = .error e) : LostRead e ∨ act.1.Expected e := by
  obtain ⟨a, hag, hi⟩ := h.sim
  exact (Kernel.step_ensures hag hi act (Op.meets_free act s)).of_error he

theorem Op.Expected.not_schedulerPanic {op : Op} {m : Panic} (h : op.Expected (.panic m)) :
    m ∉ schedulerPanics := by
  cases op <;> cases m <;> first | exact h.elim | decide

theorem Op.not_expected_fault (op : Op) (a : NodePtr) : ¬ op.Expected (.fault a) := by
  cases op <;> exact id

/-- No step from a reachable state ends in one of these panics or reads a slot behind the
array, and the scan for a free slot succeeds on every level. -/
theorem no_schedulerPanic (h : Reachable s) :
    (∀ act, ∀ m ∈ schedulerPanics, Kernel.step act s ≠ .error (.panic m)) ∧
    (∀ act k, Kernel.step act s ≠ .error (.fault (.cell k (NPROC + 1)))) ∧
    ∀ p, ¬ (s.proc p).state.Queued → ∀ k, InLevels k →
      ∃ j, 1 ≤ j ∧ j ≤ NPROC ∧ (s.queue.level (.cell k j)).proc = none ∧
        s.queue.freeSlot k (NPROC + 1) 1 = .ok j := by
  refine ⟨fun act m hm he ↦ ?_, fun act k he ↦ ?_, fun p hp k hk ↦ ?_⟩
  · rcases h.step_error he with hl | hx
    · rcases hl with hl | hl <;> cases hl
    · exact hx.not_schedulerPanic hm
  · rcases h.step_error he with hl | hx
    · rcases hl with hl | hl
      · injection hl with hl
        injection hl with _ hj
        exact absurd hj (by decide)
      · cases hl
    · exact act.1.not_expected_fault _ hx
  · obtain ⟨L, hL, hmem⟩ := h.rep
    exact SkipList.freeSlot_spec hL hk
      (fun hin ↦ hp ((hmem p).mp ((hL.sub_bottom hk).subset hin)))

theorem no_schedulerPanic_forked : ∃ s, Reachable s ∧ (s.proc 0).state = .RUNNING ∧
    (s.proc 1).state = .RUNNABLE ∧
    ∀ act, ∀ m ∈ schedulerPanics, Kernel.step act s ≠ .error (.panic m) := by
  obtain ⟨s, hs, h0, h1⟩ := exists_forked
  exact ⟨s, hs, h0, h1, (no_schedulerPanic hs).1⟩

/-- A parent outlives its children, or init takes its place, and nobody waits in `wait`
next to a zombie. -/
theorem zombie_not_forgotten (h : Reachable s) :
    (∀ p, (s.proc p).state ≠ .UNUSED → (s.proc p).state ≠ .EMBRYO → s.initproc ≠ some p →
      ∃ q, (s.proc p).parent = some q ∧ (s.proc q).state ≠ .UNUSED ∧
        (s.proc q).state ≠ .ZOMBIE) ∧
    ∀ p q, (s.proc p).state = .ZOMBIE → (s.proc p).parent = some q →
      ¬ ((s.proc q).state = .SLEEPING ∧ (s.proc q).chan = .proc q) := by
  obtain ⟨a, ⟨hcore, -⟩, hi⟩ := h.sim
  rw [hcore]
  refine ⟨fun p hu he hp ↦ ?_, fun p q hz hq hs ↦ ?_⟩
  · have hst : (a.proc p).state.Alive ∨ (a.proc p).state = .ZOMBIE := by
      cases hst : (a.proc p).state <;> simp_all [ProcState.Alive]
    obtain ⟨q, hq, halive⟩ := hi.family.live p hst hp
    exact ⟨q, hq, by grind, by grind⟩
  · obtain ⟨r, hr⟩ := hi.family.zombie p q hz hq hs
    cases hr

theorem zombie_not_forgotten_child : ∃ s, Reachable s ∧ (s.proc 1).state = .ZOMBIE ∧
    (s.proc 1).parent = some 0 ∧
    ¬ ((s.proc 0).state = .SLEEPING ∧ (s.proc 0).chan = .proc 0) := by
  obtain ⟨s, hs, h1, h2⟩ : ∃ s, Reachable s ∧ (s.proc 1).state = .ZOMBIE ∧
      (s.proc 1).parent = some 0 := exists_reachable
    (startOps ++ forkOps 0 ++ [.wait, .scheduler, .exit, .exitZombie]) (by decide +kernel)
  exact ⟨s, hs, h1, h2, (zombie_not_forgotten hs).2 1 0 h1 h2⟩

end Xv6Bfs.Sched

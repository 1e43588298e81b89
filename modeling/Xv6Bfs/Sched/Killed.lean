import Xv6Bfs.Sched.ForkWait
import Xv6Bfs.Sched.Safety

namespace Xv6Bfs.Sched

open Lib.Execution

variable {short : Prop} {x y : Flux} {a b : EdfKernel} {c d : Core} {s s' : Kernel} {p np : ProcId}

def sinceAlloc (p : ProcId) (pid : ℤ) (log : List Event) : List Event :=
  log.takeWhile (· ≠ .alloc p pid)

@[grind =] theorem sinceAlloc_cons (p : ProcId) (pid : ℤ) (e : Event) (log : List Event) :
    sinceAlloc p pid (e :: log) = if e = .alloc p pid then [] else e :: sinceAlloc p pid log := by
  by_cases h : e = .alloc p pid <;> simp [sinceAlloc, h]

/-- No free slot is marked, and a process that is being made is marked only if it was killed
by its pid. -/
structure KilledInv (c : Core) : Prop where
  unused : ∀ p, (c.proc p).state = .UNUSED → (c.proc p).killed = false
  embryo : ∀ p, (c.proc p).state = .EMBRYO → (c.proc p).killed = true →
    .killRet (c.proc p).pid 0 ∈ sinceAlloc p (c.proc p).pid c.log

theorem KilledInv.frame (h : KilledInv c) (es : List Event) (hl : d.log = es ++ c.log)
    (hes : ∀ p pid, .alloc p pid ∉ es)
    (hu : ∀ p, (d.proc p).state = .UNUSED → (d.proc p).killed = true →
      (c.proc p).state = .UNUSED ∧ (c.proc p).killed = true)
    (he : ∀ p, (d.proc p).state = .EMBRYO → (c.proc p).state = .EMBRYO ∧
      (d.proc p).pid = (c.proc p).pid ∧ ((d.proc p).killed = true → (c.proc p).killed = true ∨
        .killRet (d.proc p).pid 0 ∈ es)) : KilledInv d := by
  refine ⟨fun p hp ↦ ?_, fun p hp hk ↦ ?_⟩
  · by_contra hk
    have hold := hu p hp (by simpa using hk)
    simp [h.unused p hold.1] at hold
  · obtain ⟨hst, hpid, hkill⟩ := he p hp
    rw [hl, sinceAlloc, List.takeWhile_append_of_pos]
    · rcases hkill hk with hold | hnew
      · rw [hpid]
        exact List.mem_append_right _ (h.embryo p hst hold)
      · exact List.mem_append_left _ hnew
    · intro e hm
      have := hes p (d.proc p).pid
      grind

theorem SchedMove.killedInv (h : SchedMove short True (x, a) (y, b)) (hq : QueueInv x a)
    (hk : KilledInv a.toCore) : KilledInv b.toCore := by
  cases h with
  | dispatch p hc hh =>
    have := ((hq.mem p).mp (List.mem_of_mem_head? hh)).1
    exact hk.frame [_] rfl (by simp) (by grind) (by grind)
  | tick | touch | block | fault => exact hk.frame [] rfl nofun (by grind) (by grind)
  | wake | idle | kill | killNone => exact hk.frame [_] rfl (by simp) (by grind) (by grind)
  | yield => exact hk.frame [_, _] rfl (by simp) (by grind) (by grind)

theorem KilledInv.alloc {pid : ℤ} (h : KilledInv c) (hl : d.log = .alloc p pid :: c.log)
    (hp : (c.proc p).state = .UNUSED) (hk : (d.proc p).killed = (c.proc p).killed)
    (hpid : (d.proc p).state = .EMBRYO) (hw : ∀ q, q ≠ p → d.proc q = c.proc q) :
    KilledInv d := by
  have hu := h.unused p hp
  refine ⟨fun q hq ↦ ?_, fun q hq hkq ↦ ?_⟩
  · by_cases hqp : q = p
    · rw [hqp, hk, hu]
    · rw [hw q hqp] at hq ⊢
      exact h.unused q hq
  · have hqp : q ≠ p := by
      rintro rfl
      simp [hk, hu] at hkq
    rw [hw q hqp] at hq hkq ⊢
    have := h.embryo q hq hkq
    rw [hl, sinceAlloc_cons, if_neg (by grind)]
    exact List.mem_cons_of_mem _ this

theorem ForkMove.killedInv (h : ForkMove True (x, a) (y, b)) (ht : ThreadInv x a.toCore)
    (hk : KilledInv a.toCore) : KilledInv b.toCore := by
  cases h with
  | userinit p hph hp | nicefork _ p _ _ _ _ hp =>
    exact hk.alloc rfl hp (by simp) (by simp) (fun _ hq ↦ Function.update_of_ne hq ..)
  | giveUp c np hc hth hst hkind =>
    have hemb := ht.embryo hth
    have hclear := hkind trivial
    exact hk.frame [_] rfl (by simp) (by grind) (by grind)
  | noSlot | deadline => exact hk.frame [_] rfl (by simp) (by grind) (by grind)
  | userinitRun | fork => exact hk.frame [_, _] rfl (by simp) (by grind) (by grind)
  | kstack | copyuvm | parent | pid | nice => exact hk.frame [] rfl nofun (by grind) (by grind)

theorem ExitMove.killedInv (h : ExitMove (x, a) (y, b)) (hk : KilledInv a.toCore) :
    KilledInv b.toCore := by
  cases h with
  | exit | leave | adopt | adopted | gone => exact hk.frame [] rfl nofun (by grind) (by grind)
  | zombie | reap | noChild => exact hk.frame [_] rfl (by simp) (by grind) (by grind)

theorem Move.killedInv (h : Move short True (x, a) (y, b)) (hi : Inv x a)
    (hk : KilledInv a.toCore) : KilledInv b.toCore := by
  cases h with
  | sched h => exact h.killedInv hi.queue hk
  | fork h => exact h.killedInv hi.thread hk
  | exit h => exact h.killedInv hk

/-- What `kill(pid)` is meant to do: it marks a process with this pid and returns 0, or there
is none and it returns -1. -/
def Kernel.KillsOnlyLive (s : Kernel) (env : Env) (pid : ℤ) : Prop :=
  ∃ s', s.kill (skipQueue env) pid = .ok s' ∧
    ((∃ es, s'.log = es ++ .killRet pid 0 :: s.log) ∧
        (∃ p, (s.proc p).pid = pid ∧ (s.proc p).state ≠ .UNUSED ∧ (s'.proc p).killed = true ∧
          ∀ q, q ≠ p → (s'.proc q).killed = (s.proc q).killed) ∨
      s' = s.on (·.emit (.killRet pid (-1))) ∧
        ∀ p, (s.proc p).pid = pid → (s.proc p).state = .UNUSED)

/-- The first slot with the pid is in use. (Or its flag is set already, and so is the one of a
process with the same pid, which takes a pid that has been given out twice.) -/
def Core.KillSafe (c : Core) (pid : ℤ) : Prop :=
  ∀ p, c.slotOf pid = some p → (c.proc p).state ≠ .UNUSED ∨ (c.proc p).killed = true ∧
    ∃ q, (c.proc q).pid = pid ∧ (c.proc q).state ≠ .UNUSED ∧ (c.proc q).killed = true

instance (c : Core) (pid : ℤ) : Decidable (c.KillSafe pid) :=
  inferInstanceAs (Decidable (∀ _, _ → _))

theorem Core.slotOf_pid {pid : ℤ} (h : c.slotOf pid = some p) : (c.proc p).pid = pid := by
  simpa using List.find?_some h

theorem Core.slotOf_none {pid : ℤ} (h : c.slotOf pid = none) (p : ProcId) :
    (c.proc p).pid ≠ pid := by
  simpa using List.find?_eq_none.mp h p (List.mem_finRange p)

theorem Reachable.ready_ok (h : Reachable s) (env : Env) (hp : ¬ (s.proc p).state.Queued)
    {f : Core → Core} (hf : (f s.toCore).deadline = s.deadline) :
    ∃ s', (s.on f).ready (skipQueue env) p = .ok s' := by
  obtain ⟨L, hL, hmem⟩ := h.rep
  obtain ⟨t, -, r, hins, -⟩ := SkipList.insert_spec env hL (fun hin ↦ hp ((hmem p).mp hin))
  have hd : ((s.on f).on (·.upd p (fun x ↦ { x with state := .RUNNABLE }))).deadline =
      s.deadline := by
    rw [Machine.on_toCore, Core.deadline_upd_same (by rfl)]
    exact hf
  simp only [Machine.ready, Machine.insert, hd, skipQueue, Machine.on_queue, hins, ok_bind]
  exact ⟨_, rfl⟩

theorem Reachable.kill_marks (h : Reachable s) (env : Env) {pid : ℤ} (hp : s.slotOf pid = some p) :
    ∃ s', s.kill (skipQueue env) pid = .ok s' ∧ (∃ es, s'.log = es ++ .killRet pid 0 :: s.log) ∧
      ∀ q, (s'.proc q).killed = if q = p then true else (s.proc q).killed := by
  simp only [Machine.kill, hp]
  split
  · rename_i hst
    obtain ⟨s', hs'⟩ := h.ready_ok env (p := p) (by simp at hst; simp [hst, ProcState.Queued])
      (f := fun c ↦ (c.upd p (fun x ↦ { x with killed := true })).emit (.killRet pid 0))
      (by funext q; grind)
    obtain ⟨hproc, hlog⟩ := Machine.ready_proc hs'
    refine ⟨s', hs', ⟨[.inserted p], hlog⟩, fun q ↦ ?_⟩
    rw [hproc]
    grind
  · exact ⟨_, rfl, ⟨[], rfl⟩, by grind⟩

theorem Kernel.killsOnlyLive_iff (h : Reachable s) (env : Env) (pid : ℤ) :
    s.KillsOnlyLive env pid ↔ s.KillSafe pid := by
  cases hslot : s.slotOf pid with
  | none =>
    have hnone := Core.slotOf_none hslot
    refine iff_of_true ⟨_, by simp only [Machine.kill, hslot], .inr ⟨rfl, fun p hp ↦ ?_⟩⟩ ?_
    · exact absurd hp (hnone p)
    · intro p hp
      rw [hslot] at hp
      cases hp
  | some p =>
    obtain ⟨s', hk, hlog, hkilled⟩ := h.kill_marks env hslot
    have hpid := Core.slotOf_pid hslot
    have hsafe : s.KillSafe pid ↔ (s.proc p).state ≠ .UNUSED ∨ (s.proc p).killed = true ∧
        ∃ q, (s.proc q).pid = pid ∧ (s.proc q).state ≠ .UNUSED ∧ (s.proc q).killed = true := by
      simp [Core.KillSafe, hslot]
    have hspec : s.KillsOnlyLive env pid ↔ ∃ q, (s.proc q).pid = pid ∧ (s.proc q).state ≠ .UNUSED ∧
        (s'.proc q).killed = true ∧ ∀ r, r ≠ q → (s'.proc r).killed = (s.proc r).killed := by
      constructor
      · rintro ⟨s'', hk', hcase⟩
        cases hk.symm.trans hk'
        rcases hcase with ⟨-, hq⟩ | ⟨rfl, -⟩
        · exact hq
        · obtain ⟨es, hes⟩ := hlog
          have hlen := congrArg List.length hes
          have hnil : es = [] := by simpa using hlen
          simp [hnil] at hes
      · exact fun hq ↦ ⟨s', hk, .inl ⟨hlog, hq⟩⟩
    rw [hspec, hsafe]
    simp only [hkilled]
    grind

abbrev Op.Gentle : Op → Core → Prop := Op.Spares fun pid c ↦ c.KillSafe pid

theorem Op.Gentle.kind {op : Op} (h : op.Gentle c) (hk : KilledInv c) : op.Kind c := by
  cases op with
  | kill pid =>
    intro p hp hu
    rcases h p hp with hne | ⟨hset, -⟩
    · exact hne hu
    · rw [hk.unused p hu] at hset
      cases hset
  | niceforkStep mem => exact h
  | _ => trivial

theorem boot_killedInv : KilledInv EdfKernel.boot.toCore := by
  constructor <;> simp [EdfKernel.boot, Core.bss]

theorem killedInv_of_gentle {seed : BitVec 32} {l : List (Op × Env)}
    (he : exec Kernel.step l (boot seed) = .ok s)
    (hg : Meets Kernel.step (fun act s ↦ act.1.Gentle s.toCore) l (boot seed)) :
    KilledInv s.toCore := by
  have htracks : Tracks (fun xa ↦ KilledInv xa.2.toCore) s := by
    refine exec_invariant_of_meets (fun act s s' hs hact he ↦ ?_)
      (boot_tracks boot_killedInv seed) hg he
    obtain ⟨a, hag, hi, hk⟩ := hs
    have hmeets : Op.Meets False True act s := ⟨False.elim, fun _ ↦ hact.kind (hag.1 ▸ hk)⟩
    exact Tracks.step Move.killedInv ⟨a, hag, hi, hk⟩ hmeets he
  obtain ⟨a, ⟨hcore, -⟩, -, hk⟩ := htracks
  rw [hcore]
  exact hk

theorem Reachable.child_starts {env : Env} {mem : Bool} {n pid : ℤ} (h : Reachable s)
    (hk : KilledInv s.toCore) (hp : s.cpuProc = some p)
    (hth : s.thread p = .nicefork np n (.insert pid))
    (hs : Kernel.step (.niceforkStep mem, env) s = .ok s') :
    (s'.proc np).pid = pid ∧ (s'.proc np).state = .RUNNABLE ∧
      ((s'.proc np).killed = true → .killRet pid 0 ∈ sinceAlloc np pid s'.log) := by
  obtain ⟨a, ⟨hcore, -⟩, hi⟩ := h.sim
  have hemb : (s.proc np).state = .EMBRYO := by
    rw [hcore] at hth ⊢
    exact (hi.thread.fork p np n _ hth).2.1
  have hpid := h.copied p np n _ pid hth rfl
  obtain ⟨s₁, hr, hs⟩ := bind_eq_ok.mp (Kernel.niceforkStep_eq hp hth hs)
  obtain ⟨hproc, hlog⟩ := Machine.ready_proc hr
  cases hs
  refine ⟨by simp [hproc, hpid], by simp [hproc], fun hkilled ↦ ?_⟩
  have hm := hk.embryo np hemb (by simpa [hproc] using hkilled)
  rw [hpid] at hm
  simp only [Machine.on_toCore, Core.emit_log, Core.setThread_log, hlog]
  grind

/-- `kill` does what it is meant to do exactly if it is safe. In every run in which all calls
are safe and no slot is given up marked, a child starts marked only if it was killed by its
own pid after it had been allocated. -/
theorem kill_only_live_iff_safe {seed : BitVec 32} {l : List (Op × Env)} {s : Kernel}
    (he : exec Kernel.step l (boot seed) = .ok s) :
    (∀ env pid, s.KillsOnlyLive env pid ↔ s.KillSafe pid) ∧
    (Meets Kernel.step (fun act s ↦ act.1.Gentle s.toCore) l (boot seed) →
      ∀ p np n pid mem env s', s.cpuProc = some p → s.thread p = .nicefork np n (.insert pid) →
        Kernel.step (.niceforkStep mem, env) s = .ok s' →
        (s'.proc np).pid = pid ∧ (s'.proc np).state = .RUNNABLE ∧
          ((s'.proc np).killed = true → .killRet pid 0 ∈ sinceAlloc np pid s'.log)) := by
  refine ⟨fun env pid ↦ Kernel.killsOnlyLive_iff ⟨seed, l, he⟩ env pid, ?_⟩
  intro hg p np n pid mem env s' hp hth hs
  exact Reachable.child_starts ⟨seed, l, he⟩ (killedInv_of_gentle he hg) hp hth hs

theorem kill_only_live_iff_safe_forked : ∃ s s' : Kernel, Reachable s ∧ s.KillSafe 2 ∧
    s.KillsOnlyLive ⟨some none, random⟩ 2 ∧
    Kernel.step (.niceforkStep true, ⟨some none, random⟩) s = .ok s' ∧ (s'.proc 1).pid = 2 ∧
    ((s'.proc 1).killed = true → .killRet 2 0 ∈ sinceAlloc 1 2 s'.log) := by
  let l := withRandom (startOps ++ .nicefork 0 :: List.replicate 6 (.niceforkStep true))
  have hrun : Ensures (fun s : Kernel ↦ s.cpuProc = some 0 ∧ s.thread 0 = .nicefork 1 0 (.insert 2) ∧
      s.KillSafe 2 ∧ Ensures (fun _ ↦ True) (fun _ ↦ False)
        (Kernel.step (.niceforkStep true, ⟨some none, random⟩) s)) (fun _ ↦ False)
      (exec Kernel.step l (boot SEED)) := by decide +kernel
  have hg : Meets Kernel.step (fun act s ↦ act.1.Gentle s.toCore) l (boot SEED) := by
    decide +kernel
  obtain ⟨s, he, hc, hth, hsafe, hstep⟩ := hrun.exists_ok
  obtain ⟨s', hs, -⟩ := hstep.exists_ok
  have hchild := (kill_only_live_iff_safe he).2 hg 0 1 0 2 true _ s' hc hth hs
  exact ⟨s, s', ⟨SEED, l, he⟩, hsafe,
    ((kill_only_live_iff_safe he).1 _ 2).mpr hsafe, hs, hchild.1, hchild.2.2⟩

/-- Init kills pid 0, which marks a free slot, and then forks: the child starts marked. -/
theorem kill_zero_marks_next_child : ∃ s s₁ s₂ : Kernel, Reachable s ∧
    ¬ s.KillsOnlyLive ⟨some none, random⟩ 0 ∧
    exec Kernel.step (withRandom [.kill 0]) s = .ok s₁ ∧
    (s.proc 1).state = .UNUSED ∧ (s.proc 1).killed = false ∧ (s₁.proc 1).killed = true ∧
    exec Kernel.step (withRandom (forkOps 0)) s₁ = .ok s₂ ∧
    (s₂.proc 1).state = .RUNNABLE ∧ (s₂.proc 1).pid = 2 ∧ (s₂.proc 1).killed = true ∧
    ∀ e ∈ s₂.log, e ≠ .killRet 2 0 ∧ e ≠ .killRet 2 (-1) := by
  have hrun : Ensures (fun s : Kernel ↦ ¬ s.KillSafe 0 ∧ (s.proc 1).state = .UNUSED ∧
      (s.proc 1).killed = false ∧ Ensures (fun s₁ : Kernel ↦ (s₁.proc 1).killed = true ∧
        Ensures (fun s₂ : Kernel ↦ (s₂.proc 1).state = .RUNNABLE ∧ (s₂.proc 1).pid = 2 ∧
          (s₂.proc 1).killed = true ∧ ∀ e ∈ s₂.log, e ≠ .killRet 2 0 ∧ e ≠ .killRet 2 (-1))
          (fun _ ↦ False) (exec Kernel.step (withRandom (forkOps 0)) s₁))
        (fun _ ↦ False) (exec Kernel.step (withRandom [.kill 0]) s))
      (fun _ ↦ False) (runOps startOps) := by decide +kernel
  obtain ⟨s, he, hsafe, hu, hk, hrun⟩ := hrun.exists_ok
  obtain ⟨s₁, h₁, hk₁, hrun⟩ := hrun.exists_ok
  obtain ⟨s₂, h₂, hst, hpid, hk₂, hlog⟩ := hrun.exists_ok
  have hreach := runOps_reachable he
  exact ⟨s, s₁, s₂, hreach, fun hl ↦ hsafe ((Kernel.killsOnlyLive_iff hreach _ 0).mp hl), h₁, hu, hk,
    hk₁, h₂, hst, hpid, hk₂, hlog⟩

end Xv6Bfs.Sched

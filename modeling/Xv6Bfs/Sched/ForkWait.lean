import Xv6Bfs.Sched.Accounting

namespace Xv6Bfs.Sched

open Lib.Execution

section Calls

variable {Q : Type} {s s' : Machine Q} {rq : RunQueue Q} {p np : ProcId} {w : ℤ}

theorem Machine.sleep_log {ctx : Context} {chan : Chan} (h : s.sleep rq ctx chan p = .ok s') :
    s'.log = s.log := by
  obtain ⟨s₁, h₁, h⟩ := bind_eq_ok.mp h
  have hlog : s₁.log = s.log := by
    rw [Machine.dequeue] at h₁
    split at h₁
    · obtain ⟨q, -, hq⟩ := bind_eq_ok.mp h₁
      cases hq
      rfl
    · cases h₁
      rfl
  simp only [Machine.sched] at h
  split at h
  · cases h
  · cases h
    exact hlog

theorem Machine.wait_log (h : s.wait rq p = .ok s') :
    s'.log = s.log ∨ ∃ e, s'.log = e :: s.log := by
  rw [Machine.wait] at h
  split at h
  · cases h
    exact .inr ⟨_, rfl⟩
  · split at h
    · cases h
      exact .inr ⟨_, rfl⟩
    · exact .inl (Machine.sleep_log h)

theorem Machine.resume_log (h : s.resume rq p = .ok s') :
    s'.log = s.log ∨ ∃ e, s'.log = e :: s.log := by
  rw [Machine.resume] at h
  split at h
  · cases h
  · cases h
    exact .inl rfl
  · cases h
    exact .inl rfl
  · cases h
    exact .inl rfl
  · have hl := Machine.wait_log h
    exact hl
  · cases h

theorem Machine.wait_minus_one (h : s.wait rq p = .ok s')
    (hl : s'.log = .waitRet w (-1) :: s.log) (hpid : ∀ q, 0 ≤ (s.proc q).pid) :
    (s.proc p).pid = w ∧ ((s.proc p).killed = false → ∀ q, (s.proc q).parent ≠ some p) := by
  rw [Machine.wait] at h
  split at h
  · rename_i q hq
    cases h
    injection hl with he
    injection he with _ hneg
    have := hpid q
    omega
  · split at h
    · rename_i hc
      cases h
      injection hl with he
      injection he with hw
      refine ⟨hw, fun hk ↦ hc.resolve_right (by simp [hk])⟩
    · rw [Machine.sleep_log h] at hl
      simp at hl

theorem Machine.resume_minus_one (h : s.resume rq p = .ok s')
    (hl : s'.log = .waitRet w (-1) :: s.log) (hpid : ∀ q, 0 ≤ (s.proc q).pid) :
    (s.proc p).pid = w ∧ ((s.proc p).killed = false → ∀ q, (s.proc q).parent ≠ some p) := by
  rw [Machine.resume] at h
  split at h
  · cases h
  · cases h
    simp at hl
  · cases h
    simp at hl
  · cases h
    simp at hl
  · have hsame : ∀ q, ((s.on (·.upd p (fun x ↦ { x with chan := .null }))).proc q).pid =
        (s.proc q).pid ∧ ((s.on (·.upd p (fun x ↦ { x with chan := .null }))).proc q).parent =
        (s.proc q).parent ∧ ((s.on (·.upd p (fun x ↦ { x with chan := .null }))).proc q).killed =
        (s.proc q).killed := by grind
    have hw := Machine.wait_minus_one h hl (fun q ↦ by rw [(hsame q).1]; exact hpid q)
    simpa only [hsame] using hw
  · cases h

theorem Machine.nicefork_begins {niceValue : ℤ} (h : s.nicefork niceValue p = .ok s') :
    s'.cpuProc = s.cpuProc ∧
    (s'.proc = s.proc ∧ s'.thread = s.thread ∧
        s'.log = .niceforkRet (s.proc p).pid (-1) :: s.log ∨
      ∃ np, s'.thread p = .nicefork np niceValue .kstack ∧ (s.proc np).state = .UNUSED ∧
        (∀ q, q ≠ np → s'.proc q = s.proc q) ∧ s'.log = .alloc np s.nextpid :: s.log) := by
  rw [Machine.nicefork] at h
  split at h
  · split at h
    · cases h
      exact ⟨rfl, .inl ⟨rfl, rfl, rfl⟩⟩
    · rename_i np hnp
      have hu := List.find?_some hnp
      cases h
      refine ⟨rfl, .inr ⟨np, by simp, by simpa using hu, fun q hq ↦ ?_, rfl⟩⟩
      simp [Machine.allocproc, hq]
  · cases h

theorem Machine.ready_proc (h : s.ready rq np = .ok s') :
    s'.proc = Function.update s.proc np { s.proc np with state := .RUNNABLE } ∧
      s'.log = .inserted np :: s.log := by
  obtain ⟨q, -, hq⟩ := bind_eq_ok.mp h
  cases hq
  exact ⟨rfl, rfl⟩

theorem Machine.niceforkStep_slot {mem : Bool} {niceValue : ℤ} {stage : Stage}
    (h : s.niceforkStep rq mem p np niceValue stage = .ok s') :
    (∀ q, q ≠ np → s'.proc q = s.proc q) ∧
    (s'.log = .niceforkRet w (-1) :: s.log → (s'.proc np).state = .UNUSED ∧
      (s'.proc np).parent = (s.proc np).parent ∧ (stage = .kstack ∨ stage = .copyuvm)) := by
  cases stage with
  | kstack | copyuvm =>
    cases mem with
    | true =>
      cases h
      exact ⟨fun q hq ↦ by simp [hq], fun hl ↦ by simp at hl⟩
    | false =>
      cases h
      exact ⟨fun q hq ↦ by simp [Machine.niceforkFail, hq], fun _ ↦ by simp [Machine.niceforkFail]⟩
  | parent | pid | nice =>
    cases h
    exact ⟨fun q hq ↦ by simp [hq], fun hl ↦ by simp at hl⟩
  | deadline =>
    cases h
    exact ⟨fun q hq ↦ by simp [Core.setDeadline, hq], fun hl ↦ by simp [Core.setDeadline] at hl⟩
  | insert pid =>
    obtain ⟨s₁, h₁, h⟩ := bind_eq_ok.mp h
    obtain ⟨hproc, hlog⟩ := Machine.ready_proc h₁
    cases h
    exact ⟨fun q hq ↦ by simp [hproc, hq], fun hl ↦ by simp [hlog] at hl⟩

theorem Machine.niceforkStep_call {mem : Bool} {niceValue : ℤ} {stage : Stage}
    (h : s.niceforkStep rq mem p np niceValue stage = .ok s') : s'.cpuProc = s.cpuProc ∧
      ((∃ st, s'.thread p = .nicefork np niceValue st ∧
        (s'.log = s.log ∨ ∃ t, s'.log = .deadline np t :: s.log)) ∨
      s'.thread p = .other ∧ (s'.log = .niceforkRet (s.proc p).pid (-1) :: s.log ∨
        ∃ w pid, stage.pid? = some pid ∧ s'.log = .niceforkRet w pid :: .inserted np :: s.log)) := by
  cases stage with
  | kstack | copyuvm =>
    cases mem with
    | true =>
      cases h
      exact ⟨rfl, .inl ⟨_, Function.update_self _ _ _, .inl rfl⟩⟩
    | false =>
      cases h
      exact ⟨rfl, .inr ⟨by simp [Machine.niceforkFail], .inl rfl⟩⟩
  | parent | pid | nice =>
    cases h
    exact ⟨rfl, .inl ⟨_, Function.update_self _ _ _, .inl rfl⟩⟩
  | deadline =>
    cases h
    exact ⟨rfl, .inl ⟨_, Function.update_self _ _ _, .inr ⟨_, rfl⟩⟩⟩
  | insert pid =>
    obtain ⟨s₁, h₁, h⟩ := bind_eq_ok.mp h
    have hlog := (Machine.ready_proc h₁).2
    have hcpu : s₁.cpuProc = s.cpuProc := by
      obtain ⟨q, -, hq⟩ := bind_eq_ok.mp h₁
      cases hq
      rfl
    cases h
    exact ⟨hcpu, .inr ⟨by simp, .inr ⟨(s₁.proc p).pid, pid, rfl, by simp [hlog]⟩⟩⟩

end Calls

variable {s s' : Kernel} {p np : ProcId} {w niceValue : ℤ} {stage : Stage} {mem : Bool} {env : Env}

theorem Core.of_current {c : Core} (h : c.current = .ok p) : c.cpuProc = some p := by
  rw [Core.current] at h
  split at h
  · cases h
  · split at h
    · cases h
      assumption
    · cases h

theorem Core.of_currentIn {c : Core} {places : Thread → Bool} {T : Type} {f : ProcId → Except Stop T}
    {t : T} (h : (c.currentIn places >>= f) = .ok t) :
    ∃ p, c.cpuProc = some p ∧ places (c.thread p) = true ∧ f p = .ok t := by
  obtain ⟨p, hp, hf⟩ := bind_eq_ok.mp h
  obtain ⟨q, hq, hplace⟩ := bind_eq_ok.mp hp
  split at hplace
  · cases hplace
    exact ⟨p, Core.of_current hq, by assumption, hf⟩
  · cases hplace

/-- A call of `wait` that returns -1, at once or when the process is dispatched again, to a
process that is not killed: the process has no child. -/
def Kernel.WaitFailsAlone (s : Kernel) : Prop := ∀ env s' w,
  (Kernel.step (.wait, env) s = .ok s' → s'.log = .waitRet w (-1) :: s.log →
    ∃ p, s.cpuProc = some p ∧ (s.proc p).pid = w ∧
      ((s.proc p).killed = false → ∀ q, (s.proc q).parent ≠ some p)) ∧
  ∀ p, Kernel.step (.scheduler, env) s = .ok s' →
    s'.log = .waitRet w (-1) :: .dispatched p :: s.log → (s.proc p).pid = w ∧
      ((s.proc p).killed = false → ∀ q, (s.proc q).parent ≠ some p)

theorem Reachable.waitFailsAlone (h : Reachable s) (hb : allocs s.log < 2 ^ 31) : s.WaitFailsAlone := by
  have hpid := fun q ↦ ((h.accounts hb).1.range q).1
  refine fun env s' w ↦ ⟨fun hs hl ↦ ?_, fun p hs hl ↦ ?_⟩
  · obtain ⟨p, hp, -, hw⟩ := Core.of_currentIn hs
    exact ⟨p, hp, Machine.wait_minus_one hw hl hpid⟩
  · simp only [Kernel.step, Machine.step] at hs
    split at hs
    · obtain ⟨r, -, hr⟩ := bind_eq_ok.mp hs
      cases r with
      | none =>
        cases hr
        simp at hl
      | some q =>
        have hsame : ∀ r, ((s.dispatch q).proc r).pid = (s.proc r).pid ∧
            ((s.dispatch q).proc r).parent = (s.proc r).parent ∧
            ((s.dispatch q).proc r).killed = (s.proc r).killed := by
          simp only [Machine.dispatch]
          grind
        have hq : q = p := by
          rcases Machine.resume_log hr with he | ⟨e, he⟩ <;> rw [he] at hl <;>
            simp [Machine.dispatch] at hl
          exact hl.2
        subst hq
        have hw := Machine.resume_minus_one hr hl (fun r ↦ by rw [(hsame r).1]; exact hpid r)
        simpa only [hsame] using hw
    · cases hs

theorem Reachable.copied (h : Reachable s) : PidCopied s.toCore := by
  obtain ⟨a, ⟨hcore, -⟩, -, ha⟩ := h.tracks Move.accounts boot_accounts
  rw [hcore]
  exact ha.copied

theorem Reachable.family (h : Reachable s) : FamilyInv .stable s.toCore := by
  obtain ⟨a, ⟨hcore, -⟩, hi⟩ := h.sim
  rw [hcore]
  exact hi.family

theorem Kernel.niceforkStep_eq (hp : s.cpuProc = some p)
    (hth : s.thread p = .nicefork np niceValue stage)
    (h : Kernel.step (.niceforkStep mem, env) s = .ok s') :
    s.niceforkStep (skipQueue env) mem p np niceValue stage = .ok s' := by
  obtain ⟨r, hr, h⟩ := bind_eq_ok.mp h
  cases hp.symm.trans (Core.of_current hr)
  simpa only [hth] using h

theorem Kernel.niceforkStep_disabled (hp : s.cpuProc = some p)
    (hth : ∀ np niceValue stage, s.thread p ≠ .nicefork np niceValue stage) :
    Kernel.step (.niceforkStep mem, env) s ≠ .ok s' := by
  intro h
  obtain ⟨r, hr, h⟩ := bind_eq_ok.mp h
  cases hp.symm.trans (Core.of_current hr)
  split at h
  · exact hth _ _ _ ‹_›
  · cases h

theorem Reachable.niceforkStep_slot (h : Reachable s) (hp : s.cpuProc = some p)
    (hth : s.thread p = .nicefork np niceValue stage)
    (hs : Kernel.step (.niceforkStep mem, env) s = .ok s') :
    (∀ q, q ≠ np → s'.proc q = s.proc q) ∧
    (s'.log = .niceforkRet w (-1) :: s.log →
      (s'.proc np).state = .UNUSED ∧ (s'.proc np).parent = none) := by
  obtain ⟨hother, hfail⟩ := Machine.niceforkStep_slot (w := w) (Kernel.niceforkStep_eq hp hth hs)
  refine ⟨hother, fun hl ↦ ?_⟩
  obtain ⟨hst, hpar, hstage⟩ := hfail hl
  refine ⟨hst, hpar.trans (h.family.early p np niceValue stage hth ?_)⟩
  rcases hstage with rfl | rfl <;> exact id

def Core.SameSlots (c d : Core) : Prop :=
  ∀ q, (c.proc q).state = (d.proc q).state ∧ (c.proc q).parent = (d.proc q).parent

theorem Reachable.niceforkSteps_minus_one {s₀ : Kernel} (h : Reachable s) (hp : s.cpuProc = some p)
    (hth : s.thread p = .nicefork np niceValue stage)
    (hnp : (s₀.proc np).state = .UNUSED ∧ (s₀.proc np).parent = none)
    (hother : ∀ q, q ≠ np → s.proc q = s₀.proc q) (hhead : s.log.head? ≠ some (.niceforkRet w (-1)))
    {l : List (Op × Env)} (hl : ∀ act ∈ l, ∃ mem, act.1 = .niceforkStep mem)
    (he : exec Kernel.step l s = .ok s') (hb : allocs s.log < 2 ^ 31)
    (hret : s'.log.head? = some (.niceforkRet w (-1))) : s'.SameSlots s₀.toCore := by
  induction l generalizing s stage with
  | nil =>
    cases he
    exact absurd hret hhead
  | cons act l ih =>
    obtain ⟨op, env⟩ := act
    obtain ⟨mem, rfl⟩ : ∃ mem, op = .niceforkStep mem := hl _ List.mem_cons_self
    obtain ⟨s₁, hs, he⟩ := bind_eq_ok.mp he
    have hreach := h.step hs
    obtain ⟨hslots, hfail⟩ := h.niceforkStep_slot (w := (s.proc p).pid) hp hth hs
    obtain ⟨hcpu, hcall⟩ := Machine.niceforkStep_call (Kernel.niceforkStep_eq hp hth hs)
    have hother₁ : ∀ q, q ≠ np → s₁.proc q = s₀.proc q := fun q hq ↦
      (hslots q hq).trans (hother q hq)
    rcases hcall with ⟨st, hth₁, hlog⟩ | ⟨hth₁, hlog⟩
    · refine ih hreach (hcpu.trans hp) hth₁ hother₁ ?_ (fun act ha ↦ hl act (List.mem_cons_of_mem _ ha))
        he ?_
      · rcases hlog with hlog | ⟨t, hlog⟩ <;> simp [hlog, hhead]
      · rcases hlog with hlog | ⟨t, hlog⟩ <;> rw [hlog] <;> exact hb
    · cases l with
      | nil =>
        cases he
        rcases hlog with hlog | ⟨w', pid, hpid, hlog⟩
        · intro q
          by_cases hq : q = np
          · subst hq
            rw [hnp.1, hnp.2]
            exact hfail hlog
          · rw [hother₁ q hq]
            exact ⟨rfl, rfl⟩
        · have hpid := h.copied p np niceValue stage pid hth hpid
          have hpos := ((h.accounts hb).1.range np).1
          rw [hlog] at hret
          simp at hret
          omega
      | cons act l =>
        obtain ⟨op, env⟩ := act
        obtain ⟨mem, rfl⟩ : ∃ mem, op = .niceforkStep mem := hl (op, env) (by simp)
        obtain ⟨s₂, hs, -⟩ := bind_eq_ok.mp he
        exact absurd hs (Kernel.niceforkStep_disabled (hcpu.trans hp) (by simp [hth₁]))

theorem Reachable.allocs_le {l : List (Op × Env)} (h : Reachable s)
    (he : exec Kernel.step l s = .ok s') : allocs s.log ≤ allocs s'.log := by
  obtain ⟨a, hag, hi⟩ := h.sim
  obtain ⟨b, hag', -, hb⟩ := Tracks.run (I := fun xa ↦ allocs s.log ≤ allocs xa.2.log)
    (fun hm _ hle ↦ hle.trans hm.allocs_le) ⟨a, hag, hi, by rw [hag.1]⟩
    ((meets_true _ l s).mono (fun act s _ ↦ Op.meets_free act s)) he
  rw [hag'.1]
  exact hb

theorem Reachable.nicefork_minus_one {l : List (Op × Env)}
    (h : Reachable s) (hl : ∀ act ∈ l, ∃ mem, act.1 = .niceforkStep mem)
    (he : exec Kernel.step ((.nicefork niceValue, env) :: l) s = .ok s')
    (hb : allocs s'.log < 2 ^ 31) (hret : s'.log.head? = some (.niceforkRet w (-1))) :
    s'.SameSlots s.toCore := by
  obtain ⟨s₁, hs, he⟩ := bind_eq_ok.mp he
  obtain ⟨p, hp, hth, hf⟩ := Core.of_currentIn hs
  obtain ⟨hcpu, hcase⟩ := Machine.nicefork_begins hf
  have hreach := h.step hs
  rcases hcase with ⟨hproc, hthr, -⟩ | ⟨np, hth₁, hu, hother, hlog⟩
  · cases l with
    | nil =>
      cases he
      intro q
      rw [hproc]
      exact ⟨rfl, rfl⟩
    | cons act l =>
      obtain ⟨op, env'⟩ := act
      obtain ⟨mem, rfl⟩ : ∃ mem, op = .niceforkStep mem := hl (op, env') (by simp)
      obtain ⟨s₂, hs₂, -⟩ := bind_eq_ok.mp he
      refine absurd hs₂ (Kernel.niceforkStep_disabled (hcpu.trans hp) ?_)
      rw [hthr, of_decide_eq_true hth]
      nofun
  · exact hreach.niceforkSteps_minus_one (hcpu.trans hp) hth₁ ⟨hu, h.family.unused np hu⟩ hother
      (by simp [hlog]) hl he ((hreach.allocs_le he).trans_lt hb) hret

/-- A call of `nicefork` that returns -1 adds no child. Each of its steps leaves the other
slots alone, the slot it takes is free and without a parent before the call and after it,
and if nothing comes in between, every slot is as before. -/
def Kernel.FailedForkHarmless (s : Kernel) : Prop := ∀ env s',
  (∀ niceValue, Kernel.step (.nicefork niceValue, env) s = .ok s' → ∃ p, s.cpuProc = some p ∧
    (s'.proc = s.proc ∧ s'.log = .niceforkRet (s.proc p).pid (-1) :: s.log ∨
      ∃ np, s'.thread p = .nicefork np niceValue .kstack ∧ (s.proc np).state = .UNUSED ∧
        (s.proc np).parent = none ∧ ∀ q, q ≠ np → s'.proc q = s.proc q)) ∧
  (∀ w mem p np niceValue stage, s.cpuProc = some p → s.thread p = .nicefork np niceValue stage →
    Kernel.step (.niceforkStep mem, env) s = .ok s' → (∀ q, q ≠ np → s'.proc q = s.proc q) ∧
      (s'.log = .niceforkRet w (-1) :: s.log →
        (s'.proc np).state = .UNUSED ∧ (s'.proc np).parent = none)) ∧
  ∀ niceValue l w, (∀ act ∈ l, ∃ mem, act.1 = .niceforkStep mem) →
    exec Kernel.step ((.nicefork niceValue, env) :: l) s = .ok s' → allocs s'.log < 2 ^ 31 →
    s'.log.head? = some (.niceforkRet w (-1)) → s'.SameSlots s.toCore

theorem Reachable.failedForkHarmless (h : Reachable s) : s.FailedForkHarmless := by
  refine fun env s' ↦ ⟨fun niceValue hs ↦ ?_, fun w mem p np n st ↦ h.niceforkStep_slot,
    fun n l w ↦ h.nicefork_minus_one⟩
  obtain ⟨p, hp, -, hf⟩ := Core.of_currentIn hs
  refine ⟨p, hp, (Machine.nicefork_begins hf).2.imp (fun hno ↦ ⟨hno.1, hno.2.2⟩) ?_⟩
  rintro ⟨np, hth, hu, hq, -⟩
  exact ⟨np, hth, hu, h.family.unused np hu, hq⟩

/-- The law of `fork` and `wait` for runs with fewer than `2 ^ 31` allocations. A pid that
`nicefork` has returned is not returned again, is in one slot until it is waited for, and
is returned by one call of `wait` at most, of the process that forked it or of init. -/
theorem fork_wait_accounting (h : Reachable s) (hb : allocs s.log < 2 ^ 31) :
    (forkedPids s.log).Nodup ∧
    (∀ r ∈ forkedPids s.log, r ∉ reapedPids s.log →
      ∃ p, (s.proc p).state ≠ .UNUSED ∧ ∀ q, (s.proc q).pid = r ↔ q = p) ∧
    (reapedPids s.log).Nodup ∧
    (∀ l₁ w r l₂, s.log = l₁ ++ .waitRet w r :: l₂ → r ≠ -1 →
      ∃ caller, .niceforkRet caller r ∈ l₂ ∧
        (w = caller ∨ .exited caller ∈ l₂ ∧ ∃ i, s.initproc = some i ∧ (s.proc i).pid = w)) ∧
    s.WaitFailsAlone ∧ s.FailedForkHarmless := by
  obtain ⟨hp, hf⟩ := h.accounts hb
  refine ⟨hf.forked_nodup, fun r hm hr ↦ ?_, hf.reaped_nodup, fun l₁ w r l₂ hs hr ↦ ?_,
    h.waitFailsAlone hb, h.failedForkHarmless⟩
  · obtain ⟨p, rfl, hst⟩ := (hf.held r hm).resolve_left hr
    have hu : (s.proc p).state ≠ .UNUSED := by grind
    exact ⟨p, hu, fun q ↦ ⟨fun hq ↦ (hp.inj p q hq.symm (hp.used p hu)).symm, fun hq ↦ hq ▸ rfl⟩⟩
  · obtain ⟨caller, hm, hw⟩ := hf.paid.split hs hr
    refine ⟨caller, hm, hw.imp_right (And.imp_right (fun hw ↦ ?_))⟩
    have hmem : .niceforkRet caller r ∈ s.log := by
      rw [hs]
      exact List.mem_append_right _ (List.mem_cons_of_mem _ hm)
    have hbound := hf.bound r (mem_forkedPids.mpr ⟨hr, caller, hmem⟩)
    cases hip : s.initproc with
    | some i => exact ⟨i, rfl, (hp.init i hip).trans hw.symm⟩
    | none =>
      exfalso
      have hfam := h.family
      cases hph : s.phase with
      | main =>
        have := hp.main hph
        omega
      | userinit p => exact absurd (hfam.userinit p hph) (by simp [hip])
      | running => exact hfam.started hph hip

/-- Init forks a child, waits for it and forks another one. -/
theorem fork_wait_accounting_twice : ∃ s, Reachable s ∧ allocs s.log < 2 ^ 31 ∧
    forkedPids s.log = [3, 2] ∧ reapedPids s.log = [2] ∧
    ∃ p, (s.proc p).state ≠ .UNUSED ∧ ∀ q, (s.proc q).pid = 3 ↔ q = p := by
  obtain ⟨s, hs, hb, hf, hr⟩ : ∃ s, Reachable s ∧ allocs s.log < 2 ^ 31 ∧
      forkedPids s.log = [3, 2] ∧ reapedPids s.log = [2] := exists_reachable
    (startOps ++ forkOps 0 ++ [.wait, .scheduler, .exit, .exitZombie, .exitSched, .scheduler] ++
      forkOps 0) (by decide +kernel)
  have hlaw := fork_wait_accounting hs hb
  exact ⟨s, hs, hb, hf, hr, hlaw.2.1 3 (by simp [hf]) (by simp [hr])⟩

end Xv6Bfs.Sched

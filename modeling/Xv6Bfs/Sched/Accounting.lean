import Xv6Bfs.Sched.Pids

namespace Xv6Bfs.Sched

open Lib.Execution

variable {short kind : Prop} {x y : Flux} {a b : EdfKernel} {c d : Core} {p q : ProcId}

def forkedPids : List Event → List ℤ
  | [] => []
  | .niceforkRet _ ret :: log => if ret = -1 then forkedPids log else ret :: forkedPids log
  | _ :: log => forkedPids log

def reapedPids : List Event → List ℤ
  | [] => []
  | .waitRet _ ret :: log => if ret = -1 then reapedPids log else ret :: reapedPids log
  | _ :: log => reapedPids log

/-- A pid is returned by a call of `wait` of the process that forked it or, if that one has
exited, of process 1. -/
def Paid : List Event → Prop
  | [] => True
  | .waitRet w ret :: log => (ret = -1 ∨ ∃ caller, .niceforkRet caller ret ∈ log ∧
      (w = caller ∨ .exited caller ∈ log ∧ w = 1)) ∧ Paid log
  | _ :: log => Paid log

def Event.Plain : Event → Prop
  | .niceforkRet _ ret => ret = -1
  | .waitRet _ ret => ret = -1
  | _ => True

theorem plain_append {es : List Event} (log : List Event) (h : ∀ e ∈ es, e.Plain) :
    forkedPids (es ++ log) = forkedPids log ∧ reapedPids (es ++ log) = reapedPids log ∧
      (Paid (es ++ log) ↔ Paid log) := by
  induction es with
  | nil => simp
  | cons e es ih =>
    have he := h e List.mem_cons_self
    obtain ⟨h1, h2, h3⟩ := ih (fun e he ↦ h e (List.mem_cons_of_mem _ he))
    cases e <;> simp_all [forkedPids, reapedPids, Paid, Event.Plain]

theorem mem_forkedPids {log : List Event} {r : ℤ} :
    r ∈ forkedPids log ↔ r ≠ -1 ∧ ∃ caller, .niceforkRet caller r ∈ log := by
  induction log with
  | nil => simp [forkedPids]
  | cons e log ih =>
    cases e with
    | niceforkRet caller ret =>
      rw [forkedPids]
      split
      · simp only [ih, List.mem_cons, Event.niceforkRet.injEq]
        grind
      · simp only [ih, List.mem_cons, Event.niceforkRet.injEq]
        grind
    | _ => simp [forkedPids, ih]

@[grind =]
def ProcState.Started (st : ProcState) : Prop := st.Alive ∨ st = .ZOMBIE

def Gone (x : Flux) (c : Core) (pid : ℤ) : Prop :=
  .exited pid ∈ c.log ∨ ∃ p, x.leaving = some p ∧ (c.proc p).pid = pid

def Forked (x : Flux) (c : Core) (p : ProcId) : Prop :=
  ∃ caller, .niceforkRet caller (c.proc p).pid ∈ c.log ∧
    ((∃ q, (c.proc p).parent = some q ∧ (c.proc q).pid = caller) ∨
      Gone x c caller ∧ (c.proc p).parent = c.initproc)

structure ForkInv (x : Flux) (c : Core) : Prop where
  bound : ∀ r ∈ forkedPids c.log, 1 ≤ r ∧ r ≤ allocs c.log
  fresh : ∀ p, ¬ (c.proc p).state.Started → (c.proc p).pid ∉ forkedPids c.log
  held : ∀ r ∈ forkedPids c.log, r ∈ reapedPids c.log ∨
    ∃ p, (c.proc p).pid = r ∧ (c.proc p).state.Started
  reaped : ∀ r ∈ reapedPids c.log, r ∈ forkedPids c.log ∧ ∀ p, (c.proc p).pid ≠ r
  forked_nodup : (forkedPids c.log).Nodup
  reaped_nodup : (reapedPids c.log).Nodup
  forked : ∀ p, (c.proc p).state.Started → c.initproc ≠ some p → Forked x c p
  paid : Paid c.log

theorem Gone.mono {pid : ℤ} (h : Gone x c pid) (hlog : ∀ e ∈ c.log, e ∈ d.log)
    (hx : ∀ p, x.leaving = some p → Gone y d (c.proc p).pid) : Gone y d pid := by
  rcases h with h | ⟨p, hp, rfl⟩
  · exact .inl (hlog _ h)
  · exact hx p hp

theorem Forked.mono (h : Forked x c p) (hlog : ∀ e ∈ c.log, e ∈ d.log)
    (hx : ∀ p, x.leaving = some p → Gone y d (c.proc p).pid) (hpid : (d.proc p).pid = (c.proc p).pid)
    (hpar : (d.proc p).parent = (c.proc p).parent)
    (hq : ∀ q, (c.proc p).parent = some q → (d.proc q).pid = (c.proc q).pid)
    (hi : d.initproc = c.initproc) : Forked y d p := by
  obtain ⟨caller, hm, hcase⟩ := h
  refine ⟨caller, hpid ▸ hlog _ hm, ?_⟩
  rcases hcase with ⟨q, hpq, rfl⟩ | ⟨hg, hpi⟩
  · exact .inl ⟨q, hpar.trans hpq, hq q hpq⟩
  · exact .inr ⟨hg.mono hlog hx, by rw [hpar, hpi, hi]⟩

theorem ForkInv.plain (h : ForkInv x c) (es : List Event) (hlog : d.log = es ++ c.log)
    (hes : ∀ e ∈ es, e.Plain) (hpid : ∀ p, (d.proc p).pid = (c.proc p).pid)
    (hst : ∀ p, (c.proc p).state.Started → (d.proc p).state.Started)
    (hal : allocs c.log ≤ allocs d.log)
    (hforked : ∀ p, (d.proc p).state.Started → d.initproc ≠ some p → Forked y d p) :
    ForkInv y d := by
  obtain ⟨hf, hr, hp⟩ := plain_append c.log hes
  rw [← hlog] at hf hr hp
  refine ⟨fun r hm ↦ ?_, fun p hp ↦ ?_, fun r hm ↦ ?_, ?_, hf ▸ h.forked_nodup,
    hr ▸ h.reaped_nodup, hforked, hp.mpr h.paid⟩
  · have := h.bound r (hf ▸ hm)
    omega
  · rw [hf, hpid]
    exact h.fresh p (fun hs ↦ hp (hst p hs))
  · rw [hr]
    refine (h.held r (hf ▸ hm)).imp_right (fun ⟨p, hp, hs⟩ ↦ ⟨p, (hpid p).trans hp, hst p hs⟩)
  · simpa only [hf, hr, hpid] using h.reaped

theorem ForkInv.frame (h : ForkInv x c) (es : List Event) (hlog : d.log = es ++ c.log)
    (hes : ∀ e ∈ es, e.Plain) (hx : ∀ p, x.leaving = some p → Gone y d (c.proc p).pid)
    (hpid : ∀ p, (d.proc p).pid = (c.proc p).pid)
    (hst : ∀ p, (c.proc p).state.Started → (d.proc p).state.Started ∧
      (d.proc p).parent = (c.proc p).parent)
    (hst' : ∀ p, (d.proc p).state.Started → (c.proc p).state.Started ∨ c.initproc = some p)
    (hi : d.initproc = c.initproc) (hal : allocs c.log ≤ allocs d.log) : ForkInv y d := by
  refine h.plain es hlog hes hpid (fun p hp ↦ (hst p hp).1) hal (fun p hp hip ↦ ?_)
  rw [hi] at hip
  have hs := (hst' p hp).resolve_right hip
  refine (h.forked p hs hip).mono (fun e he ↦ ?_) hx (hpid p) (hst p hs).2 (fun q _ ↦ hpid q) hi
  rw [hlog]
  exact List.mem_append_right _ he

theorem ForkInv.alloc {pid : ℤ} (h : ForkInv x c) (hp : ¬ (c.proc p).state.Started)
    (hlog : d.log = .alloc p pid :: c.log) (hnew : allocs c.log < pid)
    (hpid : ∀ q, (d.proc q).pid = if q = p then pid else (c.proc q).pid)
    (hst : ∀ q, (d.proc q).state.Started ↔ (c.proc q).state.Started)
    (hforked : ∀ q, (d.proc q).state.Started → d.initproc ≠ some q → Forked x d q) :
    ForkInv x d := by
  obtain ⟨hf, hr, hpaid⟩ := plain_append c.log
    (show ∀ e ∈ [Event.alloc p pid], e.Plain by simp [Event.Plain])
  rw [List.singleton_append, ← hlog] at hf hr hpaid
  have hal : allocs d.log = allocs c.log + 1 := by rw [hlog]; rfl
  have hbound := h.bound
  refine ⟨fun r hm ↦ ?_, fun q hq ↦ ?_, fun r hm ↦ ?_, fun r hm ↦ ?_, hf ▸ h.forked_nodup,
    hr ▸ h.reaped_nodup, hforked, hpaid.mpr h.paid⟩
  · have := hbound r (hf ▸ hm)
    omega
  · have := h.fresh q
    rw [hf, hpid]
    grind
  · rw [hf] at hm
    rw [hr]
    have := h.held r hm
    grind
  · rw [hr] at hm
    rw [hf]
    have := h.reaped r hm
    grind

theorem ForkInv.fork {np : ProcId} {caller pid : ℤ} (h : ForkInv x c) (hc : PidInv c)
    (hnp : (c.proc np).state = .EMBRYO) (hpid : (c.proc np).pid = pid)
    (hlog : d.log = .niceforkRet caller pid :: .inserted np :: c.log)
    (hpids : ∀ q, (d.proc q).pid = (c.proc q).pid)
    (hst : ∀ q, (d.proc q).state.Started ↔ (c.proc q).state.Started ∨ q = np)
    (hforked : ∀ q, (d.proc q).state.Started → d.initproc ≠ some q → Forked x d q) :
    ForkInv x d := by
  have hrange := hc.range np
  have hused := hc.used np (by simp [hnp])
  have hinj := hc.inj np
  have hnew := h.fresh np (by simp [hnp, ProcState.Started, ProcState.Alive])
  have hlist : forkedPids d.log = pid :: forkedPids c.log := by
    rw [hlog]
    exact if_neg (by omega)
  have hreap : reapedPids d.log = reapedPids c.log := by rw [hlog]; rfl
  have hal : allocs d.log = allocs c.log := by rw [hlog]; rfl
  have hpaid : Paid d.log ↔ Paid c.log := by rw [hlog]; rfl
  refine ⟨?_, fun q hq ↦ ?_, ?_, fun r hr ↦ ?_, ?_, hreap ▸ h.reaped_nodup, hforked,
    hpaid.mpr h.paid⟩
  · have := h.bound
    grind
  · have := h.fresh q
    grind
  · have := h.held
    grind
  · have := h.reaped r
    grind
  · have := h.forked_nodup
    grind

theorem ForkInv.reap {w : ℤ} (h : ForkInv x c) (hc : PidInv c)
    (hm : (c.proc q).pid ∈ forkedPids c.log)
    (hlog : d.log = .waitRet w (c.proc q).pid :: c.log)
    (hpids : ∀ p, (d.proc p).pid = if p = q then 0 else (c.proc p).pid)
    (hst : ∀ p, (d.proc p).state.Started ↔ (c.proc p).state.Started ∧ p ≠ q)
    (hforked : ∀ p, (d.proc p).state.Started → d.initproc ≠ some p → Forked x d p)
    (hpaid : Paid d.log) : ForkInv x d := by
  have hbound := h.bound
  have hinj := hc.inj q
  have hpos := hbound _ hm
  have hlist : reapedPids d.log = (c.proc q).pid :: reapedPids c.log := by
    rw [hlog]
    exact if_neg (by omega)
  have hfork : forkedPids d.log = forkedPids c.log := by rw [hlog]; rfl
  have hal : allocs d.log = allocs c.log := by rw [hlog]; rfl
  refine ⟨by grind, fun p hp ↦ ?_, fun r hr ↦ ?_, fun r hr ↦ ?_, hfork ▸ h.forked_nodup, ?_,
    hforked, hpaid⟩
  · have := h.fresh p
    grind
  · have := h.held r
    grind
  · have := h.reaped r
    grind
  · have := h.reaped
    have := h.reaped_nodup
    grind

theorem SchedMove.forkInv (h : SchedMove short kind (x, a) (y, b)) (hq : QueueInv x a)
    (hf : ForkInv x a.toCore) : ForkInv y b.toCore := by
  have hx : ∀ p, x.leaving = some p → (b.proc p).pid = (a.proc p).pid → y = x →
      Gone y b.toCore (a.proc p).pid := fun p hp hpid hyx ↦ .inr ⟨p, hyx ▸ hp, hpid⟩
  cases h with
  | dispatch p hc hp =>
    have hqueued := ((hq.mem p).mp (List.mem_of_mem_head? hp)).1
    exact hf.frame [_] rfl (by simp [Event.Plain]) (by grind) (by grind) (by grind) (by grind) rfl
      (by grind)
  | tick | touch | block | fault =>
    exact hf.frame [] rfl (by simp) (by grind) (by grind) (by grind) (by grind) rfl (by grind)
  | wake | idle | kill | killNone =>
    exact hf.frame [_] rfl (by simp [Event.Plain]) (by grind) (by grind) (by grind) (by grind) rfl
      (by grind)
  | yield =>
    exact hf.frame [_, _] rfl (by simp [Event.Plain]) (by grind) (by grind) (by grind) (by grind)
      rfl (by grind)

theorem ForkMove.forkInv (h : ForkMove kind (x, a) (y, b)) (hi : Inv x a) (hcp : PidCopied a.toCore)
    (hb : allocs b.log < 2 ^ 31) (hp : PidInv a.toCore) (hf : ForkInv x a.toCore) :
    ForkInv y b.toCore := by
  have hfork := hi.thread.fork
  have hx : ∀ p, Flux.stable.leaving = some p → Gone .stable b.toCore (a.proc p).pid := nofun
  cases h with
  | userinit p hph hst =>
    have hmain := hi.thread.main hph
    have hnew : (allocs a.log : ℤ) < a.nextpid := by
      rw [hp.next, hp.main hph]
      decide
    exact hf.alloc (by grind) rfl hnew (by grind) (by grind) (by grind)
  | userinitRun p hph =>
    have hip := hi.family.userinit p hph
    have hst := hi.thread.userinit p hph
    exact hf.frame [_, _] rfl (by simp [Event.Plain]) hx (by grind) (by grind) (by grind) rfl
      (by grind)
  | nicefork c np n hn hc ht hst =>
    have hnew : (allocs a.log : ℤ) < a.nextpid := by
      rw [hp.next, int32_of_lt (by omega) (by grind)]
      omega
    refine hf.alloc (by grind) rfl hnew (by grind) (by grind) (fun q hq hiq ↦ ?_)
    have hq : (a.proc q).state.Started := by grind
    obtain ⟨r, hr, halive⟩ := hi.family.live q hq hiq
    exact (hf.forked q hq hiq).mono (fun e he ↦ List.mem_cons_of_mem _ he) hx (by grind) (by grind)
      (by grind) rfl
  | fork c np hc ht =>
    have hpar := hi.family.late c np _ _ ht trivial
    have hemb := (hfork c np _ _ ht).2.1
    refine hf.fork hp hemb (hcp c np _ _ _ ht rfl) rfl (by grind) (by grind) (fun q hq hiq ↦ ?_)
    by_cases hqn : q = np
    · subst hqn
      refine ⟨(a.proc c).pid, ?_, .inl ⟨c, by grind, by grind⟩⟩
      simp [hcp c q _ _ _ ht rfl]
    · have hq : (a.proc q).state.Started := by grind
      refine (hf.forked q hq hiq).mono (fun e he ↦ ?_) hx (by grind) (by grind) (by grind) rfl
      exact List.mem_cons_of_mem _ (List.mem_cons_of_mem _ he)
  | noSlot | giveUp | deadline =>
    exact hf.frame [_] rfl (by simp [Event.Plain]) hx (by grind) (by grind) (by grind) rfl
      (by grind)
  | kstack | copyuvm | parent | pid | nice =>
    exact hf.frame [] rfl (by simp) hx (by grind) (by grind) (by grind) rfl (by grind)

theorem ExitMove.forkInv (h : ExitMove (x, a) (y, b)) (hi : Inv x a) (hp : PidInv a.toCore)
    (hf : ForkInv x a.toCore) : ForkInv y b.toCore := by
  cases h with
  | exit | leave | gone =>
    exact hf.frame [] rfl (by simp) nofun (by grind) (by grind) (by grind) rfl (by grind)
  | adopt p child hc =>
    refine hf.plain [] rfl (by simp) (by grind) (by grind) (by grind) (fun q hq hiq ↦ ?_)
    have hforked := hf.forked q (by grind) hiq
    by_cases hqc : q = child
    · subst hqc
      obtain ⟨caller, hm, hcase⟩ := hforked
      refine ⟨caller, by simpa using hm, .inr ⟨?_, by simp⟩⟩
      rcases hcase with ⟨r, hr, rfl⟩ | ⟨hg, -⟩
      · cases hc.symm.trans hr
        exact .inr ⟨p, rfl, by grind⟩
      · exact hg.mono (fun _ he ↦ he) (fun r hr ↦ .inr ⟨r, hr, by grind⟩)
    · exact hforked.mono (fun _ he ↦ he) (fun r hr ↦ .inr ⟨r, hr, by grind⟩) (by grind) (by grind)
        (by grind) rfl
  | adopted p child hc =>
    exact hf.frame [] rfl (by simp) (fun q hq ↦ .inr ⟨q, hq, rfl⟩) (by grind) (by grind) (by grind)
      rfl (by grind)
  | zombie p hc hpar =>
    have hrun := hi.thread.leaving p rfl
    refine hf.frame [_] rfl (by simp [Event.Plain]) (fun q hq ↦ .inl ?_) (by grind) (by grind)
      (by grind) rfl (by grind)
    cases hq
    exact List.mem_cons_self
  | reap p q hst hq hz =>
    have hinit := hi.family.init q
    have hrun := hi.thread.running (p := p) (by grind)
    have hpos := hp.range q
    have hforked := hf.forked q (by grind) (by grind)
    have hmem : (a.proc q).pid ∈ forkedPids a.log :=
      mem_forkedPids.mpr ⟨by omega, hforked.imp (fun _ h ↦ h.1)⟩
    refine hf.reap hp hmem rfl (by grind) (by grind) (fun r hr hir ↦ ?_) ⟨.inr ?_, hf.paid⟩
    · have hr' : (a.proc r).state.Started := by grind
      obtain ⟨u, hu, halive⟩ := hi.family.live r hr' hir
      exact (hf.forked r hr' hir).mono (fun e he ↦ List.mem_cons_of_mem _ he) nofun (by grind)
        (by grind) (by grind) rfl
    · obtain ⟨caller, hm, hcase⟩ := hforked
      refine ⟨caller, hm, ?_⟩
      rcases hcase with ⟨r, hr, rfl⟩ | ⟨hg, hpi⟩
      · cases hq.symm.trans hr
        exact .inl rfl
      · rcases hg with hg | ⟨r, hr, -⟩
        · exact .inr ⟨hg, hp.init p (hpi.symm.trans hq)⟩
        · cases hr
  | noChild =>
    exact hf.frame [_] rfl (by simp [Event.Plain]) nofun (by grind) (by grind) (by grind) rfl
      (by grind)

/-- What holds of the pids as long as there have been fewer than `2 ^ 31` allocations. -/
structure Accounts (xa : Flux × EdfKernel) : Prop where
  copied : PidCopied xa.2.toCore
  pids : allocs xa.2.log < 2 ^ 31 → PidInv xa.2.toCore
  forks : allocs xa.2.log < 2 ^ 31 → ForkInv xa.1 xa.2.toCore

theorem Move.accounts (h : Move short kind (x, a) (y, b)) (hi : Inv x a) (ha : Accounts (x, a)) :
    Accounts (y, b) where
  copied := h.pidCopied hi ha.copied
  pids hb := h.pidInv hi hb (ha.pids (h.allocs_le.trans_lt hb))
  forks hb := by
    have hlt := h.allocs_le.trans_lt hb
    have hp := ha.pids hlt
    have hf := ha.forks hlt
    cases h with
    | sched h => exact h.forkInv hi.queue hf
    | fork h => exact h.forkInv hi ha.copied hb hp hf
    | exit h => exact h.forkInv hi hp hf

theorem boot_accounts : Accounts (.stable, EdfKernel.boot) where
  copied := by simp [PidCopied, EdfKernel.boot, Core.bss]
  pids _ := by
    constructor <;> simp [EdfKernel.boot, Core.bss, allocs, int32]
  forks _ := by
    constructor <;> simp [EdfKernel.boot, Core.bss, forkedPids, reapedPids, Paid,
      ProcState.Started, ProcState.Alive]

theorem Reachable.accounts {s : Kernel} (h : Reachable s) (hb : allocs s.log < 2 ^ 31) :
    PidInv s.toCore ∧ ForkInv .stable s.toCore := by
  obtain ⟨a, ⟨hcore, -⟩, -, ha⟩ := h.tracks Move.accounts boot_accounts
  rw [hcore] at hb ⊢
  exact ⟨ha.pids hb, ha.forks hb⟩

theorem Paid.split {log l₁ l₂ : List Event} {w r : ℤ} (h : Paid log)
    (hs : log = l₁ ++ .waitRet w r :: l₂) (hr : r ≠ -1) :
    ∃ caller, .niceforkRet caller r ∈ l₂ ∧ (w = caller ∨ .exited caller ∈ l₂ ∧ w = 1) := by
  subst hs
  induction l₁ with
  | nil => exact h.1.resolve_left hr
  | cons e l₁ ih =>
    refine ih ?_
    cases e with
    | waitRet => exact h.2
    | _ => exact h

end Xv6Bfs.Sched

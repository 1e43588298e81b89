import Xv6Bfs.Sched.Calm
import Xv6Bfs.Sched.Safety

namespace Xv6Bfs.Sched

open Lib.Execution

/-- What a run says of every process since it was last dispatched: the timer interrupts it
has taken in state RUNNING, and whether one of them has sent it from `trap` into `exit`. -/
structure Quantum where
  taken : ProcId → ℕ
  tail : ProcId → Bool

namespace Quantum

def init : Quantum := ⟨fun _ ↦ 0, fun _ ↦ false⟩

def dispatched (n : Quantum) (p : ProcId) : Quantum :=
  ⟨Function.update n.taken p 0, Function.update n.tail p false⟩

def interrupted (n : Quantum) (p : ProcId) (exits : Bool) : Quantum :=
  ⟨Function.update n.taken p (n.taken p + 1), Function.update n.tail p (n.tail p || exits)⟩

def next (n : Quantum) (op : Op) (s : Kernel) : Quantum :=
  match op with
  | .scheduler =>
    match s.queue.first with
    | .ok (some p) => n.dispatched p
    | _ => n
  | .timer user =>
    match s.cpuProc with
    | some p =>
      if (s.proc p).state = .RUNNING then n.interrupted p ((s.proc p).killed && user) else n
    | none => n
  | _ => n

end Quantum

def Kernel.countStep (act : Op × Env) (x : Kernel × Quantum) : Except Stop (Kernel × Quantum) := do
  let s ← Kernel.step act x.1
  .ok (s, x.2.next act.1 x.1)

def Keeps {Q : Type} (s s' : Machine Q) : Prop :=
  ∀ p, (s'.proc p).ticksLeft = (s.proc p).ticksLeft ∧
    ((s'.proc p).state = .RUNNING → (s.proc p).state = .RUNNING)

theorem keeps_allows {Q : Type} (rq : RunQueue Q) : Machine.Allows rq Keeps where
  refl _ _ := ⟨rfl, id⟩
  trans _ _ _ h h' p := ⟨(h' p).1.trans (h p).1, (h p).2 ∘ (h' p).2⟩
  on _ _ hf p := ⟨hf.ticksLeft p, hf.running p⟩
  insert s p := by
    unfold Machine.insert
    cases rq.insert s.deadline p s.queue with
    | error e => trivial
    | ok q => exact fun _ ↦ ⟨rfl, id⟩
  delete s p := by
    unfold Machine.delete
    cases rq.delete s.deadline p s.queue with
    | error e => trivial
    | ok q => exact fun _ ↦ ⟨rfl, id⟩

structure Wakes {Q : Type} (s s' : Machine Q) : Prop where
  proc : ∀ q, s'.proc q = s.proc q ∨
    (s.proc q).state = .SLEEPING ∧ s'.proc q = { s.proc q with state := .RUNNABLE }
  cpuProc : s'.cpuProc = s.cpuProc
  ticks : s'.ticks = s.ticks

theorem Machine.wakeup1_wakes {Q : Type} (rq : RunQueue Q) (s : Machine Q) (chan : Chan) :
    Ensures (Wakes s) (fun _ ↦ True) (s.wakeup1 rq chan) := by
  refine (Ensures.exec (Wakes s) (fun _ _ ↦ True) (fun q s' h ↦ ?_) _
    ⟨fun _ ↦ .inl rfl, rfl, rfl⟩).mono (fun _ h ↦ h.1)
  unfold Machine.wakeOne
  split
  · rename_i hq
    unfold Machine.ready Machine.insert
    cases rq.insert _ q _ with
    | error e => trivial
    | ok l =>
      refine ⟨⟨fun r ↦ ?_, h.cpuProc, h.ticks⟩, trivial, fun _ _ ↦ trivial⟩
      have hr := h.proc r
      by_cases hrq : r = q
      · subst hrq
        grind
      · grind
  · exact ⟨h, trivial, fun _ _ ↦ trivial⟩

def Core.countDown (p : ProcId) (c : Core) : Core :=
  c.upd p (fun x ↦ { x with ticksLeft := x.ticksLeft - 1 })

section Timer

variable {Q : Type} {rq : RunQueue Q} {s s₁ s' : Machine Q} {p : ProcId} {user : Bool}

/-- The end of `trap` after a timer interrupt, in the state that `wakeup` has left. -/
inductive TrapTail (rq : RunQueue Q) (user : Bool) (s : Machine Q) : Machine Q → Prop
  | idle (hc : s.cpuProc = none) : TrapTail rq user s s
  | exit {s' : Machine Q} (p : ProcId) (hc : s.cpuProc = some p)
    (hk : (s.proc p).killed = true ∧ user = true) (he : s.exit p = .ok s') : TrapTail rq user s s'
  | away (p : ProcId) (hc : s.cpuProc = some p) (hr : (s.proc p).state ≠ .RUNNING) :
    TrapTail rq user s s
  | expired {s' : Machine Q} (p : ProcId) (hc : s.cpuProc = some p)
    (hk : ¬ ((s.proc p).killed = true ∧ user = true)) (hr : (s.proc p).state = .RUNNING)
    (ht : (s.proc p).ticksLeft = 1) (he : (s.on (Core.countDown p)).yield rq p = .ok s') :
    TrapTail rq user s s'
  | counted (p : ProcId) (hc : s.cpuProc = some p)
    (hk : ¬ ((s.proc p).killed = true ∧ user = true)) (hr : (s.proc p).state = .RUNNING)
    (ht : (s.proc p).ticksLeft ≠ 1) : TrapTail rq user s (s.on (Core.countDown p))

theorem Machine.timer_tail (h : s.timer rq user = .ok s') :
    ∃ s₁, Wakes (s.on Core.tick) s₁ ∧ Keeps s s₁ ∧ TrapTail rq user s₁ s' := by
  obtain ⟨s₁, hw, h⟩ := bind_eq_ok.mp h
  refine ⟨s₁, (Machine.wakeup1_wakes rq _ _).of_ok hw, ?_, ?_⟩
  · exact ((keeps_allows rq).first (Calm.refl _).tick ((keeps_allows rq).wakeup1 _ _)).of_ok hw
  · split at h
    · cases h
      exact .idle ‹_›
    · rename_i p hc
      have hcount : ((s₁.on (Core.countDown p)).proc p).ticksLeft = (s₁.proc p).ticksLeft - 1 := by
        simp [Core.countDown]
      split at h
      · exact .exit p hc ‹_› h
      · split at h
        · dsimp only at h
          split at h
          · rename_i hk hr ht
            exact .expired p hc hk hr (by have := hcount.symm.trans ht; omega) h
          · rename_i hk hr ht
            cases h
            exact .counted p hc hk hr (fun h1 ↦ ht (hcount.trans (by omega)))
        · cases h
          exact .away p hc ‹_›

theorem Machine.yield_proc (h : s.yield rq p = .ok s') :
    s'.proc = Function.update s.proc p { s.proc p with
      state := .RUNNABLE, virtDeadline := computevd (s.proc p).nice s.ticks, context := .yield } ∧
    s'.cpuProc = none ∧ s'.ticks = s.ticks := by
  obtain ⟨s₁, h₁, h⟩ := bind_eq_ok.mp h
  obtain ⟨q₁, -, h₁⟩ := bind_eq_ok.mp h₁
  cases h₁
  obtain ⟨s₂, h₂, h⟩ := bind_eq_ok.mp h
  obtain ⟨q₂, -, h₂⟩ := bind_eq_ok.mp h₂
  cases h₂
  rw [Machine.sched] at h
  split at h
  · cases h
  · cases h
    refine ⟨?_, rfl, rfl⟩
    simp only [Machine.on, Core.setDeadline, Core.upd, Core.emit, Core.setCpu, Function.update_idem,
      Function.update_self]

end Timer

structure Accounted (s : Kernel) (n : Quantum) : Prop where
  nonneg : ∀ p, 0 ≤ (s.proc p).ticksLeft
  running : ∀ p, (s.proc p).state = .RUNNING →
    1 ≤ (s.proc p).ticksLeft ∧ (s.proc p).ticksLeft ≤ BFS_DEFAULT_QUANTUM ∧
    (n.tail p = false → (s.proc p).ticksLeft = BFS_DEFAULT_QUANTUM - n.taken p)

namespace Accounted

variable {s s₁ s' : Kernel} {n : Quantum} {p : ProcId}

theorem keeps (h : Accounted s n) (hk : Keeps s s') : Accounted s' n where
  nonneg p := by
    rw [(hk p).1]
    exact h.nonneg p
  running p hp := by
    rw [(hk p).1]
    exact h.running p ((hk p).2 hp)

theorem dispatch (h : Accounted s n) (p : ProcId) : Accounted (s.dispatch p) (n.dispatched p) := by
  have hother (q : ProcId) (hq : q ≠ p) : (s.dispatch p).proc q = s.proc q := by
    simp [Machine.dispatch, hq]
  have hself : ((s.dispatch p).proc p).ticksLeft = BFS_DEFAULT_QUANTUM := by simp [Machine.dispatch]
  constructor
  · intro q
    by_cases hq : q = p
    · rw [hq, hself]
      decide
    · rw [hother q hq]
      exact h.nonneg q
  · intro q hr
    by_cases hq : q = p
    · subst hq
      rw [hself]
      exact ⟨by decide, le_rfl, fun _ ↦ by simp [Quantum.dispatched]⟩
    · rw [hother q hq] at hr ⊢
      simpa [Quantum.dispatched, hq] using h.running q hr

theorem interrupt {exits : Bool} (h : Accounted s n)
    (hother : ∀ q, q ≠ p → (s'.proc q).ticksLeft = (s.proc q).ticksLeft ∧
      ((s'.proc q).state = .RUNNING → (s.proc q).state = .RUNNING))
    (h0 : 0 ≤ (s'.proc p).ticksLeft)
    (hp : (s'.proc p).state = .RUNNING → 1 ≤ (s'.proc p).ticksLeft ∧
      (s'.proc p).ticksLeft ≤ BFS_DEFAULT_QUANTUM ∧ (n.tail p = false → exits = false →
        (s'.proc p).ticksLeft = BFS_DEFAULT_QUANTUM - (n.taken p + 1 : ℕ))) :
    Accounted s' (n.interrupted p exits) := by
  constructor
  · intro q
    by_cases hq : q = p
    · exact hq ▸ h0
    · rw [(hother q hq).1]
      exact h.nonneg q
  · intro q hr
    by_cases hq : q = p
    · subst hq
      simpa [Quantum.interrupted] using hp hr
    · rw [(hother q hq).1]
      simpa [Quantum.interrupted, hq] using h.running q ((hother q hq).2 hr)

theorem next_timer {user : Bool} (hc : s.cpuProc = some p) (hr : (s.proc p).state = .RUNNING) :
    n.next (.timer user) s = n.interrupted p ((s.proc p).killed && user) := by
  simp only [Quantum.next, hc, if_pos hr]

theorem timer {env : Env} {user : Bool} (h : Accounted s n)
    (he : s.timer (skipQueue env) user = .ok s') : Accounted s' (n.next (.timer user) s) := by
  obtain ⟨s₁, hw, hk, ht⟩ := Machine.timer_tail he
  have h₁ := h.keeps hk
  have hcpu : s₁.cpuProc = s.cpuProc := hw.cpuProc
  cases ht with
  | idle hc =>
    rw [hcpu] at hc
    simpa only [Quantum.next, hc] using h₁
  | away p hc hr =>
    rw [hcpu] at hc
    by_cases hs : (s.proc p).state = .RUNNING
    · rw [next_timer hc hs]
      exact h₁.interrupt (fun _ _ ↦ ⟨rfl, id⟩) (h₁.nonneg p) (fun hr' ↦ absurd hr' hr)
    · simpa only [Quantum.next, hc, if_neg hs] using h₁
  | exit p hc hkill hexit =>
    rw [hcpu] at hc
    have hk' := ((keeps_allows (skipQueue env)).exit s₁ p).of_ok hexit
    have h' := h₁.keeps hk'
    by_cases hs : (s.proc p).state = .RUNNING
    · have hsame : s₁.proc p = s.proc p := (hw.proc p).resolve_right (by simp [hs])
      rw [next_timer hc hs, ← hsame, hkill.1, hkill.2]
      refine h'.interrupt (fun _ _ ↦ ⟨rfl, id⟩) (h'.nonneg p) (fun hr ↦ ?_)
      exact ⟨(h'.running p hr).1, (h'.running p hr).2.1, fun _ hf ↦ by cases hf⟩
    · simpa only [Quantum.next, hc, if_neg hs] using h'
  | expired p hc hkill hr hleft hyield =>
    rw [hcpu] at hc
    have hs := (hk p).2 hr
    rw [next_timer hc hs]
    obtain ⟨hproc, -, -⟩ := Machine.yield_proc hyield
    refine h₁.interrupt (fun q hq ↦ ?_) ?_ (fun hr' ↦ ?_)
    · simp [hproc, Core.countDown, hq]
    · simp [hproc, Core.countDown, hleft]
    · simp [hproc] at hr'
  | counted p hc hkill hr hleft =>
    rw [hcpu] at hc
    have hs := (hk p).2 hr
    have hcount : ((s₁.on (Core.countDown p)).proc p).ticksLeft = (s₁.proc p).ticksLeft - 1 := by
      simp [Core.countDown]
    obtain ⟨hlow, hhigh, heq⟩ := h₁.running p hr
    rw [next_timer hc hs]
    refine h₁.interrupt (fun q hq ↦ by simp [Core.countDown, hq]) ?_ (fun _ ↦ ?_)
    · rw [hcount]
      omega
    · rw [hcount]
      refine ⟨by omega, by omega, fun htail _ ↦ ?_⟩
      have := heq htail
      omega

theorem step {act : Op × Env} (h : Accounted s n) (he : Kernel.step act s = .ok s') :
    Accounted s' (n.next act.1 s) := by
  obtain ⟨op, env⟩ := act
  have hstep := (keeps_allows (skipQueue env)).step s op
  cases op with
  | scheduler =>
    rw [Kernel.step, Machine.step] at he
    split at he
    · rcases ((keeps_allows (skipQueue env)).scheduler s).of_ok he with ⟨hfirst, hk⟩ | ⟨p, hfirst, hk⟩
      · have hfirst' : s.queue.first = .ok none := hfirst
        simpa only [Quantum.next, hfirst'] using h.keeps hk
      · have hfirst' : s.queue.first = .ok (some p) := hfirst
        simpa only [Quantum.next, hfirst'] using (h.dispatch p).keeps hk
    · cases he
  | timer user =>
    cases user with
    | false =>
      rw [Kernel.step, Machine.step] at he
      split at he
      · exact h.timer he
      · cases he
    | true =>
      obtain ⟨p, -, he⟩ := bind_eq_ok.mp he
      exact h.timer he
  | _ => exact h.keeps ((hstep (by simp) (by simp)).of_ok he)

end Accounted

theorem boot_accounted (seed : BitVec 32) : Accounted (boot seed) .init :=
  ⟨fun _ ↦ le_rfl, fun _ hp ↦ by cases hp⟩

variable {seed : BitVec 32} {l : List (Op × Env)} {s s' : Kernel} {n : Quantum} {p : ProcId}

theorem count_run {m : Quantum} (h : exec Kernel.countStep l (s, m) = .ok (s', n)) :
    exec Kernel.step l s = .ok s' := by
  induction l generalizing s m with
  | nil =>
    cases h
    rfl
  | cons act l ih =>
    obtain ⟨⟨s₁, m₁⟩, h₁, h⟩ := bind_eq_ok.mp h
    obtain ⟨s₂, hstep, h₁⟩ := bind_eq_ok.mp h₁
    cases h₁
    rw [exec_cons, hstep]
    exact ih h

theorem accounted_run (h : exec Kernel.countStep l (boot seed, .init) = .ok (s, n)) :
    Accounted s n :=
  exec_invariant (I := fun x ↦ Accounted x.1 x.2)
    (fun _ _ _ hx he ↦ by
      obtain ⟨s₁, hstep, he⟩ := bind_eq_ok.mp he
      cases he
      exact hx.step hstep) (boot_accounted seed) h

theorem timer_running {env : Env} {user : Bool} (hc : s.cpuProc = some p)
    (hr : (s.proc p).state = .RUNNING) (hkill : ¬ ((s.proc p).killed = true ∧ user = true))
    (he : s.timer (skipQueue env) user = .ok s') :
    ((s.proc p).ticksLeft = 1 → s'.cpuProc = none ∧ s'.proc p = { s.proc p with
      state := .RUNNABLE, virtDeadline := computevd (s.proc p).nice s'.ticks,
      context := .yield, ticksLeft := 0 }) ∧
    ((s.proc p).ticksLeft ≠ 1 → s'.proc p = { s.proc p with
      ticksLeft := (s.proc p).ticksLeft - 1 }) := by
  obtain ⟨s₁, hw, -, ht⟩ := Machine.timer_tail he
  have hsame : s₁.proc p = s.proc p := (hw.proc p).resolve_right (by simp [hr])
  have hcpu : s₁.cpuProc = some p := hw.cpuProc.trans hc
  cases ht with
  | idle hc' => rw [hcpu] at hc'; cases hc'
  | away q hc' hr' =>
    cases hcpu.symm.trans hc'
    exact absurd (hsame ▸ hr) hr'
  | exit q hc' hk =>
    cases hcpu.symm.trans hc'
    exact absurd (hsame ▸ hk) hkill
  | expired q hc' _ _ hleft hyield =>
    cases hcpu.symm.trans hc'
    obtain ⟨hproc, hnone, hticks⟩ := Machine.yield_proc hyield
    rw [hsame] at hleft
    refine ⟨fun _ ↦ ⟨hnone, ?_⟩, fun hne ↦ absurd hleft hne⟩
    rw [hproc, hticks]
    simp [Core.countDown, hsame, hleft]
  | counted q hc' _ _ hleft =>
    cases hcpu.symm.trans hc'
    rw [hsame] at hleft
    refine ⟨fun h1 ↦ absurd h1 hleft, fun _ ↦ ?_⟩
    simp [Core.countDown, hsame]

/-- In every run, `ticks_left` of a running process is the quantum less the timer interrupts
it has taken since its dispatch, except in the call of `exit` that such an interrupt makes.
So the interrupt that completes the quantum ends in `yield`, and no counter passes 0. -/
theorem quantum_accounting (h : exec Kernel.countStep l (boot seed, .init) = .ok (s, n)) :
    (∀ p, 0 ≤ (s.proc p).ticksLeft) ∧ ∀ p, (s.proc p).state = .RUNNING →
      1 ≤ (s.proc p).ticksLeft ∧ (s.proc p).ticksLeft ≤ BFS_DEFAULT_QUANTUM ∧
      (n.tail p = false → (s.proc p).ticksLeft = BFS_DEFAULT_QUANTUM - n.taken p ∧
        ∀ user env s', ¬ ((s.proc p).killed = true ∧ user = true) →
          Kernel.step (.timer user, env) s = .ok s' →
          (n.taken p + 1 = BFS_DEFAULT_QUANTUM → s'.cpuProc = none ∧ s'.proc p = { s.proc p with
            state := .RUNNABLE, virtDeadline := computevd (s.proc p).nice s'.ticks,
            context := .yield, ticksLeft := 0 }) ∧
          (n.taken p + 1 ≠ BFS_DEFAULT_QUANTUM → s'.proc p = { s.proc p with
            ticksLeft := BFS_DEFAULT_QUANTUM - (n.taken p + 1) })) := by
  have hacc := accounted_run h
  refine ⟨hacc.nonneg, fun p hr ↦ ?_⟩
  obtain ⟨hlow, hhigh, heq⟩ := hacc.running p hr
  refine ⟨hlow, hhigh, fun htail ↦ ⟨heq htail, fun user env s' hkill he ↦ ?_⟩⟩
  have hleft := heq htail
  have hreach : Reachable s := ⟨seed, l, count_run h⟩
  have hcpu : s.cpuProc = some p := by
    obtain ⟨a, hag, hi⟩ := hreach.sim
    rw [hag.1] at hr ⊢
    exact (hi.thread.cpu p).mpr (.inl hr)
  have htimer : s.timer (skipQueue env) user = .ok s' := by
    cases user with
    | false =>
      rw [Kernel.step, Machine.step] at he
      split at he
      · exact he
      · cases he
    | true =>
      obtain ⟨q, -, he⟩ := bind_eq_ok.mp he
      exact he
  obtain ⟨hlast, hmore⟩ := timer_running hcpu hr hkill htimer
  refine ⟨fun hn ↦ hlast (by omega), fun hn ↦ ?_⟩
  rw [hmore (by omega), hleft, Int.sub_sub]

theorem quantum_accounting_last : ∃ (s : Kernel) (n : Quantum),
    exec Kernel.countStep (withRandom (startOps ++ List.replicate 49 (.timer true)))
      (boot SEED, .init) = .ok (s, n) ∧
    (s.proc 0).state = .RUNNING ∧ n.taken 0 = 49 ∧ (s.proc 0).ticksLeft = 1 := by
  have hrun : Ensures (fun x : Kernel × Quantum ↦ (x.1.proc 0).state = .RUNNING ∧ x.2.taken 0 = 49 ∧
      x.2.tail 0 = false) (fun _ ↦ False)
      (exec Kernel.countStep (withRandom (startOps ++ List.replicate 49 (.timer true)))
        (boot SEED, .init)) := by decide +kernel
  obtain ⟨⟨s, n⟩, he, hr, ht, htail⟩ := hrun.exists_ok
  have hleft := (((quantum_accounting he).2 0 hr).2.2 htail).1
  refine ⟨s, n, he, hr, ht, hleft.trans ?_⟩
  rw [show n.taken 0 = 49 from ht]
  decide

end Xv6Bfs.Sched

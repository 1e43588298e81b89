import Xv6Bfs.Sched.Kernel

namespace Xv6Bfs.Sched

open Lib.Execution

/-- A change of the process table that takes no tick off a quantum, puts no process on the
CPU and records no insertion. -/
structure Calm (c d : Core) : Prop where
  ticksLeft : ∀ p, (d.proc p).ticksLeft = (c.proc p).ticksLeft
  running : ∀ p, (d.proc p).state = .RUNNING → (c.proc p).state = .RUNNING
  inserted : ∀ p, .inserted p ∈ d.log ↔ .inserted p ∈ c.log

namespace Calm

variable {c d : Core} {p : ProcId}

theorem refl (c : Core) : Calm c c := ⟨fun _ ↦ rfl, fun _ ↦ id, fun _ ↦ Iff.rfl⟩

theorem congr {e : Core} (h : Calm c d) (hp : e.proc = d.proc) (hl : e.log = d.log) : Calm c e := by
  constructor <;> intro q <;> simp only [hp, hl]
  · exact h.ticksLeft q
  · exact h.running q
  · exact h.inserted q

theorem upd {f : Proc → Proc} (h : Calm c d) (ht : (f (d.proc p)).ticksLeft = (d.proc p).ticksLeft)
    (hr : (f (d.proc p)).state = .RUNNING → (d.proc p).state = .RUNNING) : Calm c (d.upd p f) := by
  refine ⟨fun q ↦ ?_, fun q ↦ ?_, h.inserted⟩
  · by_cases hq : q = p
    · subst hq
      rw [Core.upd_proc, Function.update_self, ht]
      exact h.ticksLeft q
    · rw [Core.upd_proc, Function.update_of_ne hq]
      exact h.ticksLeft q
  · by_cases hq : q = p
    · subst hq
      rw [Core.upd_proc, Function.update_self]
      exact fun hs ↦ h.running q (hr hs)
    · rw [Core.upd_proc, Function.update_of_ne hq]
      exact h.running q

theorem emit {e : Event} (h : Calm c d) (he : ∀ p, e ≠ .inserted p) : Calm c (d.emit e) where
  ticksLeft := h.ticksLeft
  running := h.running
  inserted p := by
    rw [Core.emit_log, List.mem_cons, or_iff_right (he p).symm]
    exact h.inserted p

theorem setThread {th : Thread} (h : Calm c d) : Calm c (d.setThread p th) := h.congr rfl rfl

theorem setCpu {q : Option ProcId} (h : Calm c d) : Calm c (d.setCpu q) := h.congr rfl rfl

theorem setInitproc (h : Calm c d) : Calm c (d.setInitproc p) := h.congr rfl rfl

theorem setPhase {ph : Phase} (h : Calm c d) : Calm c (d.setPhase ph) := h.congr rfl rfl

theorem nextPid (h : Calm c d) : Calm c d.nextPid := h.congr rfl rfl

theorem tick (h : Calm c d) : Calm c d.tick := h.congr rfl rfl

theorem setDeadline (h : Calm c d) (nice : ℤ) : Calm c (d.setDeadline p nice) :=
  (h.upd rfl id).emit (by simp)

end Calm

namespace Machine

variable {Q : Type} {rq : RunQueue Q} {s s' : Machine Q} {p : ProcId}

/-- A relation between the states before and after a piece of the kernel: it allows calm
changes of the process table and calls of the run queue. -/
structure Allows (rq : RunQueue Q) (R : Machine Q → Machine Q → Prop) : Prop where
  refl : ∀ s, R s s
  trans : ∀ s₁ s₂ s₃, R s₁ s₂ → R s₂ s₃ → R s₁ s₃
  on : ∀ (s : Machine Q) f, Calm s.toCore (f s.toCore) → R s (s.on f)
  insert : ∀ (s : Machine Q) p, Ensures (R s) (fun _ ↦ True) (s.insert rq p)
  delete : ∀ (s : Machine Q) p, Ensures (R s) (fun _ ↦ True) (s.delete rq p)

namespace Allows

variable {R : Machine Q → Machine Q → Prop} (h : Allows rq R)
include h

theorem seq {x : Except Stop (Machine Q)} {f : Machine Q → Except Stop (Machine Q)}
    (hx : Ensures (R s) (fun _ ↦ True) x) (hf : ∀ s, Ensures (R s) (fun _ ↦ True) (f s)) :
    Ensures (R s) (fun _ ↦ True) (x >>= f) :=
  hx.bind (fun s₁ h₁ ↦ (hf s₁).mono (fun _ h₂ ↦ h.trans _ _ _ h₁ h₂))

theorem first {f : Core → Core} {x : Except Stop (Machine Q)} (hf : Calm s.toCore (f s.toCore))
    (hx : Ensures (R (s.on f)) (fun _ ↦ True) x) : Ensures (R s) (fun _ ↦ True) x :=
  hx.mono (fun _ h₂ ↦ h.trans _ _ _ (h.on s f hf) h₂)

theorem exec {A : Type} {step : A → Machine Q → Except Stop (Machine Q)}
    (hstep : ∀ a s, Ensures (R s) (fun _ ↦ True) (step a s)) (l : List A) (s : Machine Q) :
    Ensures (R s) (fun _ ↦ True) (Lib.Execution.exec step l s) := by
  induction l generalizing s with
  | nil => exact h.refl s
  | cons a l ih => exact h.seq (hstep a s) ih

theorem sched (s : Machine Q) (ctx : Context) (p : ProcId) :
    Ensures (R s) (fun _ ↦ True) (s.sched ctx p) := by
  unfold Machine.sched
  split
  · trivial
  · exact h.on s _ ((Calm.refl _).upd rfl id).setCpu

theorem ready (s : Machine Q) (p : ProcId) : Ensures (R s) (fun _ ↦ True) (s.ready rq p) :=
  h.first ((Calm.refl _).upd rfl (by simp)) (h.insert _ p)

theorem dequeue (s : Machine Q) (p : ProcId) : Ensures (R s) (fun _ ↦ True) (s.dequeue rq p) := by
  unfold Machine.dequeue
  split
  · exact h.delete s p
  · exact h.refl s

theorem wakeup1 (s : Machine Q) (chan : Chan) :
    Ensures (R s) (fun _ ↦ True) (s.wakeup1 rq chan) := by
  refine h.exec (fun p s ↦ ?_) _ s
  unfold wakeOne
  split
  · exact h.ready s p
  · exact h.refl s

theorem yield (s : Machine Q) (p : ProcId) : Ensures (R s) (fun _ ↦ True) (s.yield rq p) := by
  refine h.first ((Calm.refl _).upd rfl (by simp)) (h.seq (h.delete _ p) (fun s ↦ ?_))
  exact h.first ((Calm.refl _).setDeadline _) (h.seq (h.insert _ p) (fun s ↦ h.sched s _ p))

theorem sleep (s : Machine Q) (ctx : Context) (chan : Chan) (p : ProcId) :
    Ensures (R s) (fun _ ↦ True) (s.sleep rq ctx chan p) := by
  refine h.first ((Calm.refl _).upd rfl id) (h.seq (h.dequeue _ p) (fun s ↦ ?_))
  exact h.first ((Calm.refl _).upd rfl (by simp)) (h.sched _ ctx p)

theorem wait (s : Machine Q) (p : ProcId) : Ensures (R s) (fun _ ↦ True) (s.wait rq p) := by
  unfold Machine.wait
  split
  · exact h.on s _ (((Calm.refl _).upd rfl (by simp)).emit (by simp))
  · split
    · exact h.on s _ ((Calm.refl _).emit (by simp))
    · exact h.sleep s _ _ p

theorem resume (s : Machine Q) (p : ProcId) : Ensures (R s) (fun _ ↦ True) (s.resume rq p) := by
  unfold Machine.resume
  split
  · trivial
  · exact h.refl s
  · exact h.refl s
  · exact h.on s _ ((Calm.refl _).upd rfl id)
  · exact h.first ((Calm.refl _).upd rfl id) (h.wait _ p)
  · trivial

theorem exit (s : Machine Q) (p : ProcId) : Ensures (R s) (fun _ ↦ True) (s.exit p) := by
  unfold Machine.exit
  split
  · trivial
  · exact h.on s _ (Calm.refl _).setThread

theorem exitZombie (s : Machine Q) (p : ProcId) :
    Ensures (R s) (fun _ ↦ True) (s.exitZombie rq p) := by
  refine h.seq (h.dequeue s p) (fun s ↦ h.seq (h.wakeup1 s _) (fun s ↦ h.seq (h.exec ?_ _ s) ?_))
  · intro q s
    unfold reparentOne
    split
    · refine h.first (f := fun c ↦ c.upd q (fun x ↦ { x with parent := c.initproc }))
        ((Calm.refl _).upd rfl id) ?_
      dsimp only
      split
      · exact h.wakeup1 _ _
      · exact h.refl _
    · exact h.refl s
  · exact fun s ↦ h.on s _ (((Calm.refl _).upd rfl (by simp)).setThread.emit (by simp))

theorem exitSched (s : Machine Q) (p : ProcId) :
    Ensures (R s) (fun _ ↦ True) (s.exitSched p) :=
  h.seq (h.sched s _ p) (fun s ↦ h.on s _ (Calm.refl _).setThread)

omit h in
theorem calm_allocproc (s : Machine Q) (p : ProcId) : Calm s.toCore (s.allocproc p).toCore :=
  (((Calm.refl _).upd rfl (by simp)).nextPid).emit (by simp)

theorem userinit (s : Machine Q) (kalloc : Bool) :
    Ensures (R s) (fun _ ↦ True) (s.userinit kalloc) := by
  unfold Machine.userinit
  split
  · trivial
  · split
    · exact h.on s (fun _ ↦ _) ((calm_allocproc s _).upd rfl id).setInitproc.setPhase
    · trivial

theorem userinitRun (s : Machine Q) (setupkvm : Bool) (p : ProcId) :
    Ensures (R s) (fun _ ↦ True) (s.userinitRun rq setupkvm p) := by
  unfold Machine.userinitRun
  split
  · refine h.first (f := fun c ↦ (c.upd p (fun x ↦ { x with nice := 0 })).setDeadline p 0)
      (((Calm.refl _).upd rfl id).setDeadline 0) ?_
    exact h.first (Calm.refl _).setPhase (h.ready _ p)
  · trivial

theorem nicefork (s : Machine Q) (niceValue : ℤ) (p : ProcId) :
    Ensures (R s) (fun _ ↦ True) (s.nicefork niceValue p) := by
  unfold Machine.nicefork
  split
  · split
    · exact h.on s _ ((Calm.refl _).emit (by simp))
    · exact h.on s (fun _ ↦ _) (calm_allocproc s _).setThread
  · trivial

theorem niceforkFail (s : Machine Q) (p np : ProcId) : R s (s.niceforkFail p np) :=
  h.on s _ (((Calm.refl _).upd rfl (by simp)).setThread.emit (by simp))

theorem niceforkStep (s : Machine Q) (mem : Bool) (p np : ProcId) (niceValue : ℤ) (stage : Stage) :
    Ensures (R s) (fun _ ↦ True) (s.niceforkStep rq mem p np niceValue stage) := by
  cases stage with
  | kstack =>
    cases mem with
    | true => exact h.on s _ ((Calm.refl _).upd rfl id).setThread
    | false => exact h.niceforkFail s p np
  | copyuvm =>
    cases mem with
    | true => exact h.on s _ (Calm.refl _).setThread
    | false => exact h.niceforkFail s p np
  | parent => exact h.on s _ ((Calm.refl _).upd rfl id).setThread
  | pid => exact h.on s _ (Calm.refl _).setThread
  | nice pid => exact h.on s _ ((Calm.refl _).upd rfl id).setThread
  | deadline pid => exact h.on s _ ((Calm.refl _).setDeadline niceValue).setThread
  | insert pid =>
    exact h.seq (h.ready s np) (fun s ↦ h.on s _ ((Calm.refl _).setThread.emit (by simp)))

theorem kill (s : Machine Q) (pid : ℤ) : Ensures (R s) (fun _ ↦ True) (s.kill rq pid) := by
  unfold Machine.kill
  split
  · exact h.on s _ ((Calm.refl _).emit (by simp))
  · rename_i p _
    refine h.first (f := fun c ↦ (c.upd p (fun x ↦ { x with killed := true })).emit (.killRet pid 0))
      (((Calm.refl _).upd rfl id).emit (by simp)) ?_
    dsimp only
    split
    · exact h.ready _ p
    · exact h.refl _

theorem scheduler (s : Machine Q) : Ensures
    (fun s' ↦ rq.first s.queue = .ok none ∧ R s s' ∨
      ∃ p, rq.first s.queue = .ok (some p) ∧ R (s.dispatch p) s') (fun _ ↦ True)
    (s.scheduler rq) := by
  rw [Machine.scheduler]
  cases hq : rq.first s.queue with
  | error e => trivial
  | ok next =>
    cases next with
    | none => exact .inl ⟨rfl, h.on s _ ((Calm.refl _).emit (by simp))⟩
    | some p => exact (h.resume (s.dispatch p) p).mono (fun _ hr ↦ .inr ⟨p, rfl, hr⟩)

omit h in
theorem bind_any {x : Except Stop ProcId} {f : ProcId → Except Stop (Machine Q)}
    (hf : ∀ p, Ensures (R s) (fun _ ↦ True) (f p)) : Ensures (R s) (fun _ ↦ True) (x >>= f) := by
  cases x with
  | error e => trivial
  | ok p => exact hf p

theorem step (s : Machine Q) (op : Op) (hop : op ≠ .scheduler) (hop' : ∀ user, op ≠ .timer user) :
    Ensures (R s) (fun _ ↦ True) (s.step rq op) := by
  cases op with
  | userinit kalloc =>
    rw [Machine.step]
    split
    · exact h.userinit s kalloc
    · trivial
  | userinitRun setupkvm =>
    rw [Machine.step]
    split
    · exact h.userinitRun s setupkvm _
    · trivial
  | scheduler => exact absurd rfl hop
  | timer user => exact absurd rfl (hop' user)
  | fault => exact bind_any (fun p ↦ h.first ((Calm.refl _).upd rfl id) (h.exit _ p))
  | nicefork niceValue => exact bind_any (fun p ↦ h.nicefork s niceValue p)
  | niceforkStep mem =>
    refine bind_any (fun p ↦ ?_)
    split
    · exact h.niceforkStep s mem p _ _ _
    · trivial
  | yield => exact bind_any (fun p ↦ h.yield s p)
  | sleep chan =>
    refine bind_any (fun p ↦ ?_)
    split
    · exact h.sleep s _ chan p
    · trivial
  | wakeup chan =>
    rw [Machine.step]
    split
    · exact h.wakeup1 s chan
    · trivial
  | kill pid => exact bind_any (fun _ ↦ h.kill s pid)
  | exit => exact bind_any (fun p ↦ h.exit s p)
  | exitZombie => exact bind_any (fun p ↦ h.exitZombie s p)
  | exitSched =>
    rw [Machine.step]
    split
    · trivial
    · split
      · exact h.exitSched s _
      · trivial
  | wait => exact bind_any (fun p ↦ h.wait s p)

end Allows

end Machine

end Xv6Bfs.Sched

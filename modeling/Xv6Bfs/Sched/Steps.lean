import Xv6Bfs.Sched.Family

namespace Xv6Bfs.Sched

open Lib.Execution Lib.KeyedQueue

variable {short kind : Prop} {x y : Flux} {a b : EdfKernel} {p : ProcId} {err : Stop → Prop}

structure Inv (x : Flux) (a : EdfKernel) : Prop where
  queue : QueueInv x a
  thread : ThreadInv x a.toCore
  family : FamilyInv x a.toCore

theorem Move.inv (h : Move short kind (x, a) (y, b)) (hi : Inv x a) : Inv y b := by
  cases h with
  | sched h => exact ⟨h.queueInv hi.thread hi.queue, h.threadInv hi.queue hi.thread,
      h.familyInv hi.queue hi.family⟩
  | fork h | exit h =>
    exact ⟨h.queueInv hi.thread hi.queue, h.threadInv hi.thread,
      h.familyInv hi.thread hi.family⟩

theorem Moves.inv (h : Moves short kind (x, a) (y, b)) (hi : Inv x a) : Inv y b :=
  h.preserves (I := fun s ↦ Inv s.1 s.2) (fun _ _ hm hs ↦ hm.inv hs) hi

theorem boot_inv : Inv .stable EdfKernel.boot := by
  refine ⟨⟨List.nodup_nil, List.Pairwise.nil, ?_⟩, ?_, ?_⟩
  · simp [EdfKernel.boot, Core.bss, ProcState.Queued]
  · constructor <;> simp [EdfKernel.boot, Core.bss, ProcState.Alive, Flux.leaving]
  · constructor <;> simp [EdfKernel.boot, Core.bss, ProcState.Alive]

theorem Machine.deadline_on_upd {f : Proc → Proc}
    (hf : (f (a.proc p)).virtDeadline = a.deadline p) :
    (a.on (·.upd p f)).deadline = a.deadline := Core.deadline_upd_same hf

theorem insert_eq (hp : p ∉ a.queue)
    (hs : a.queue.Pairwise (fun x y ↦ a.deadline x ≤ a.deadline y)) :
    a.insert edf p = .ok { a with
      log := .inserted p :: a.log, queue := enqueue a.deadline p a.queue } := by
  simp only [Machine.insert, edf, if_pos (And.intro hp hs), ok_bind]
  rfl

theorem delete_eq (hp : p ∈ a.queue)
    (hs : a.queue.Pairwise (fun x y ↦ a.deadline x ≤ a.deadline y)) :
    a.delete edf p = .ok { a with queue := a.queue.erase p } := by
  simp only [Machine.delete, edf, if_pos (And.intro hp hs), ok_bind]

theorem ready_eq (h : QueueInv x a) (hp : ¬ (a.proc p).state.Queued) :
    a.ready edf p = .ok { a with
      proc := Function.update a.proc p { a.proc p with state := .RUNNABLE }
      log := .inserted p :: a.log
      queue := enqueue a.deadline p a.queue } := by
  have hd : (a.on (·.upd p (fun x ↦ { x with state := .RUNNABLE }))).deadline = a.deadline :=
    Machine.deadline_on_upd (by rfl)
  rw [Machine.ready, insert_eq (p := p), hd]
  · rfl
  · exact h.not_mem hp
  · exact hd ▸ h.sorted

structure Woke (chan : Chan) (a b : EdfKernel) : Prop where
  proc : ∀ q, b.proc q = a.proc q ∨ (a.proc q).state = .SLEEPING ∧ (a.proc q).chan = chan ∧
    b.proc q = { a.proc q with state := .RUNNABLE }
  cpuProc : b.cpuProc = a.cpuProc
  initproc : b.initproc = a.initproc
  thread : b.thread = a.thread
  phase : b.phase = a.phase

theorem wakeup1_ensures (short kind : Prop) (hi : Inv x a) (chan : Chan) :
    Ensures (fun b ↦ Moves short kind (x, a) (x, b) ∧ Woke chan a b ∧
      ∀ q, ¬ ((b.proc q).state = .SLEEPING ∧ (b.proc q).chan = chan)) err
      (a.wakeup1 edf chan) := by
  refine (Ensures.exec (fun b ↦ Moves short kind (x, a) (x, b) ∧ Woke chan a b)
    (fun q b ↦ ¬ ((b.proc q).state = .SLEEPING ∧ (b.proc q).chan = chan)) ?_ (List.finRange NPROC)
    ⟨.refl, ?_⟩).mono (fun b hb ↦ ⟨hb.1.1, hb.1.2, fun q ↦ hb.2.1 q (List.mem_finRange q)⟩)
  · rintro q b ⟨hm, hw⟩
    by_cases hc : (b.proc q).state = .SLEEPING ∧ (b.proc q).chan = chan
    · rw [Machine.wakeOne, if_pos hc, ready_eq (hm.inv hi).queue (by grind)]
      refine ⟨⟨hm.tail (.sched (.wake q hc.1)), ?_⟩, by grind, by grind⟩
      have := hw.proc q
      exact ⟨fun r ↦ by have := hw.proc r; grind, hw.cpuProc, hw.initproc, hw.thread, hw.phase⟩
    · rw [Machine.wakeOne, if_neg hc]
      exact ⟨⟨hm, hw⟩, hc, fun _ h ↦ h⟩
  · exact ⟨fun q ↦ .inl rfl, rfl, rfl, rfl, rfl⟩

theorem yield_ensures (hi : Inv .stable a) (hp : (a.proc p).state = .RUNNING) :
    Ensures (fun b ↦ Moves short kind (.stable, a) (.stable, b)) err (a.yield edf p) := by
  have hq := hi.queue
  have hd : (a.on (·.upd p (fun x ↦ { x with state := .RUNNABLE }))).deadline = a.deadline :=
    Machine.deadline_on_upd (by rfl)
  have hin : p ∈ a.queue := (hq.mem p).mpr (by grind)
  have hdel := delete_eq (a := a.on (·.upd p (fun x ↦ { x with state := .RUNNABLE }))) hin
    (hd ▸ hq.sorted)
  have hout : p ∉ a.queue.erase p := hq.nodup.not_mem_erase
  simp only [Machine.yield, hdel, ok_bind]
  rw [insert_eq (p := p)]
  · simp only [ok_bind, Machine.sched]
    rw [if_neg (by simp [Core.setDeadline])]
    refine .single (.sched ?_)
    convert SchedMove.yield p hp using 2
    simp only [Machine.on, Core.upd, Core.setDeadline, Core.emit, Core.setCpu, Function.update_idem,
      Function.update_self, Machine.mk.injEq]
    exact ⟨trivial, enqueue_congr (fun q _ ↦ by grind) (by grind)⟩
  · exact hout
  · have hs := hq.sorted.sublist (List.erase_sublist (a := p))
    refine hs.imp_of_mem (fun {q r} hq hr hqr ↦ ?_)
    have hqp : q ≠ p := ne_of_mem_of_not_mem hq hout
    have hrp : r ≠ p := ne_of_mem_of_not_mem hr hout
    simpa [Core.setDeadline, Core.deadline, hqp, hrp] using hqr

theorem sleep_ensures {ctx : Context} {chan : Chan} (hi : Inv .stable a)
    (hp : (a.proc p).state = .RUNNING) (ht : a.thread p = .other ∨ a.thread p = .closing)
    (hctx : ctx = .sleep ∨ ctx = .wait)
    (hchan : ∀ q, chan = .proc q → q = p ∧
      ∀ c, (a.proc c).parent = some p → (a.proc c).state ≠ .ZOMBIE) :
    Ensures (fun b ↦ Moves short kind (.stable, a) (.stable, b)) err
      (a.sleep edf ctx chan p) := by
  have hq := hi.queue
  have hd : (a.on (·.upd p (fun x ↦ { x with chan := chan }))).deadline = a.deadline :=
    Machine.deadline_on_upd (by rfl)
  have hin : p ∈ a.queue := (hq.mem p).mpr (by grind)
  have hdel := delete_eq (a := a.on (·.upd p (fun x ↦ { x with chan := chan }))) hin
    (hd ▸ hq.sorted)
  rw [Machine.sleep, Machine.dequeue, if_pos (by simp [hp]), hdel, ok_bind, Machine.sched,
    if_neg (by simp)]
  refine .single (.sched ?_)
  convert SchedMove.block p ctx chan hp ht hctx hchan using 2
  simp only [Machine.on, Core.upd, Core.setCpu, Function.update_idem, Function.update_self]

theorem wait_ensures (hi : Inv .stable a) (hp : (a.proc p).state = .RUNNING)
    (ht : a.thread p = .other ∨ a.thread p = .closing) :
    Ensures (fun b ↦ Moves short kind (.stable, a) (.stable, b)) err (a.wait edf p) := by
  rw [Machine.wait]
  cases hz : a.zombieChild p with
  | some q =>
    have hz := List.find?_some hz
    simp only [decide_eq_true_eq] at hz
    exact .single (.exit (.reap p q hp hz.1 hz.2))
  | none =>
    have hz := List.find?_eq_none.mp hz
    by_cases hc : (∀ q, (a.proc q).parent ≠ some p) ∨ (a.proc p).killed
    · simp only [if_pos hc]
      exact .single (.exit (.noChild p hp))
    · simp only [if_neg hc]
      refine sleep_ensures hi hp ht (.inr rfl) (fun q hq ↦ ?_)
      injection hq with hq
      refine ⟨hq.symm, fun c hc hcz ↦ ?_⟩
      exact hz c (List.mem_finRange c) (by simp [hc, hcz])

theorem scheduler_ensures (hi : Inv .stable a) (hc : a.cpuProc = none) :
    Ensures (fun b ↦ Moves short kind (.stable, a) (.stable, b)) err (a.scheduler edf) := by
  simp only [Machine.scheduler, edf, ok_bind]
  cases hh : a.queue.head? with
  | none => exact .single (.sched (.idle (List.head?_eq_none_iff.mp hh)))
  | some p =>
    have hqueued := ((hi.queue.mem p).mp (List.mem_of_mem_head? hh)).1
    have hrun : (a.proc p).state = .RUNNABLE := by
      have := hi.thread.cpu p
      grind
    have hmove : Move short kind (.stable, a) (.stable, a.dispatch p) :=
      .sched (.dispatch p hc hh)
    have hdisp := hmove.inv hi
    have hst : ((a.dispatch p).proc p).state = .RUNNING := by simp [Machine.dispatch]
    have hctx : ((a.dispatch p).proc p).context = (a.proc p).context := by simp [Machine.dispatch]
    have hready := hi.thread.context p (by grind)
    have htouch : Move short kind (.stable, a.dispatch p)
        (.stable, (a.dispatch p).on (·.upd p (fun x ↦ { x with chan := .null }))) :=
      .sched (.touch p .null ((a.dispatch p).proc p).ticksLeft hst)
    simp only [Machine.resume, hctx]
    cases hcx : (a.proc p).context with
    | null => exact absurd hcx hready.1
    | forkret => exact .single hmove
    | yield => exact .single hmove
    | sleep => exact (Relation.ReflTransGen.single hmove).tail htouch
    | wait =>
      have hth : a.thread p = .other ∨ a.thread p = .closing := by
        have := hi.thread.preempted p
        have := hi.thread.zombie p
        cases hth : a.thread p <;> grind
      exact (wait_ensures (htouch.inv hdisp) (by simp [hst]) hth).mono
        (fun b hb ↦ ((Relation.ReflTransGen.single hmove).tail htouch).trans hb)
    | exit => exact absurd hcx hready.2

theorem exit_ensures (hi : (a.proc p).state = .RUNNING) (ht : a.thread p = .other)
    (herr : err (.panic .initExiting)) :
    Ensures (fun b ↦ Moves short kind (.stable, a) (.stable, b)) err (a.exit p) := by
  rw [Machine.exit]
  by_cases hc : a.initproc = some p
  · rw [if_pos hc]
    exact herr
  · rw [if_neg hc]
    exact .single (.exit (.exit p hi ht hc))

theorem Woke.running {chan : Chan} (h : Woke chan a b) (hp : (a.proc p).state = .RUNNING) :
    b.proc p = a.proc p := by
  rcases h.proc p with he | ⟨hs, -⟩
  · exact he
  · rw [hp] at hs
    cases hs

theorem timer_ensures (hi : Inv .stable a) (hs : short → a.ticks + 1 < TICK_LIMIT) (user : Bool)
    (huser : user = true → ∃ p, a.cpuProc = some p ∧ (a.proc p).state = .RUNNING ∧
      a.thread p = .other) (herr : user = true → err (.panic .initExiting)) :
    Ensures (fun b ↦ Moves short kind (.stable, a) (.stable, b)) err (a.timer edf user) := by
  have hmove : Move short kind (.stable, a) (.stable, a.on (·.tick)) := .sched (.tick hs)
  refine (wakeup1_ensures short kind (hmove.inv hi) .ticks).bind (fun b hb ↦ ?_)
  obtain ⟨hm, hw, -⟩ := hb
  have hm : Moves short kind (.stable, a) (.stable, b) := .head hmove hm
  cases hc : b.cpuProc with
  | none => exact hm
  | some p =>
    by_cases hk : (b.proc p).killed ∧ user
    · simp only [if_pos hk]
      obtain ⟨q, hq, hrun, hth⟩ := huser hk.2
      have hqp : q = p := by
        rw [hw.cpuProc] at hc
        exact Option.some.inj (hq.symm.trans hc)
      subst hqp
      refine (exit_ensures ?_ ?_ (herr hk.2)).mono (fun b' hb' ↦ hm.trans hb')
      · rw [hw.running hrun]
        exact hrun
      · rw [hw.thread]
        exact hth
    · simp only [if_neg hk]
      by_cases hrun : (b.proc p).state = .RUNNING
      · simp only [if_pos hrun]
        have htouch : Move short kind (.stable, b)
            (.stable, b.on (·.upd p (fun x ↦ { x with ticksLeft := x.ticksLeft - 1 }))) :=
          .sched (.touch p (b.proc p).chan ((b.proc p).ticksLeft - 1) hrun)
        split
        · exact (yield_ensures (htouch.inv (hm.inv hi)) (by simp [hrun])).mono
            (fun b' hb' ↦ (hm.tail htouch).trans hb')
        · exact hm.tail htouch
      · simp only [if_neg hrun]
        exact hm

/-- What holds while the children of `p` are passed on: the parent of `p` is the same, and
nobody sleeps on it. -/
structure Reparenting (short kind : Prop) (a : EdfKernel) (p : ProcId) (b : EdfKernel) : Prop where
  moves : Moves short kind (.stable, a) (.exiting p, b)
  parent : (b.proc p).parent = (a.proc p).parent
  awake : ∀ q, ¬ ((b.proc q).state = .SLEEPING ∧ (b.proc q).chan = .ofProc (a.proc p).parent)

theorem Woke.parent {chan : Chan} (h : Woke chan a b) (q : ProcId) :
    (b.proc q).parent = (a.proc q).parent := by
  have := h.proc q
  grind

theorem Woke.awake {chan chan' : Chan} (h : Woke chan a b)
    (ha : ∀ q, ¬ ((a.proc q).state = .SLEEPING ∧ (a.proc q).chan = chan')) (q : ProcId) :
    ¬ ((b.proc q).state = .SLEEPING ∧ (b.proc q).chan = chan') := by
  have := h.proc q
  have := ha q
  grind

theorem Reparenting.adopt {q : ProcId} (hi : Inv .stable a) (h : Reparenting short kind a p b)
    {b' : EdfKernel} (hm : Moves short kind (.adopting p q, b.on (fun c ↦
      c.upd q (fun x ↦ { x with parent := c.initproc }))) (.exiting p, b'))
    (hc : (b.proc q).parent = some p)
    (hpar : ∀ c, (b'.proc c).parent = if c = q then b.initproc else (b.proc c).parent)
    (hawake : ∀ c, ¬ ((b'.proc c).state = .SLEEPING ∧
      (b'.proc c).chan = .ofProc (a.proc p).parent)) :
    Reparenting short kind a p b' ∧ (b'.proc q).parent ≠ some p ∧
      ∀ c, (b.proc c).parent ≠ some p → (b'.proc c).parent ≠ some p := by
  have hb := h.moves.inv hi
  have hne : p ≠ q := by
    rintro rfl
    exact hb.family.self p hc
  have hinit : b.initproc ≠ some p := fun hip ↦
    (hb.family.init p hip).2.1 (hb.thread.leaving p rfl).2
  refine ⟨⟨(h.moves.tail (.exit (.adopt p q hc))).trans hm, ?_, hawake⟩, ?_, fun c hcp ↦ ?_⟩
  · rw [hpar, if_neg hne]
    exact h.parent
  · rw [hpar, if_pos rfl]
    exact hinit
  · rw [hpar]
    split
    · exact hinit
    · exact hcp

theorem reparentOne_ensures (hi : Inv .stable a) (q : ProcId)
    (h : Reparenting short kind a p b) :
    Ensures (fun b' ↦ Reparenting short kind a p b' ∧ (b'.proc q).parent ≠ some p ∧
      ∀ c, (b.proc c).parent ≠ some p → (b'.proc c).parent ≠ some p) err
      (b.reparentOne edf p q) := by
  rw [Machine.reparentOne]
  by_cases hc : (b.proc q).parent = some p
  · rw [if_pos hc]
    set b₁ := b.on (fun c ↦ c.upd q (fun x ↦ { x with parent := c.initproc })) with hb₁
    have hst : ∀ c, (b₁.proc c).state = (b.proc c).state := by grind
    have hpar : ∀ c, (b₁.proc c).parent = if c = q then b.initproc else (b.proc c).parent := by
      grind
    have hawake : ∀ c, ¬ ((b₁.proc c).state = .SLEEPING ∧
        (b₁.proc c).chan = .ofProc (a.proc p).parent) := by
      intro c
      have := h.awake c
      grind
    have hm : Moves short kind (.stable, a) (.adopting p q, b₁) :=
      h.moves.tail (.exit (.adopt p q hc))
    by_cases hz : (b.proc q).state = .ZOMBIE
    · simp only [hst, hz, if_true]
      refine (wakeup1_ensures short kind (hm.inv hi) (.ofProc b₁.initproc)).mono (fun b' hb' ↦ ?_)
      obtain ⟨hm', hw, hnone⟩ := hb'
      refine h.adopt hi (hm'.tail (.exit (.adopted p q (fun _ i hi hs ↦ ?_)))) hc
        (fun c ↦ by rw [hw.parent, hpar]) (hw.awake hawake)
      refine hnone i ⟨hs.1, ?_⟩
      rw [← hw.initproc, hi]
      exact hs.2
    · simp only [hst, hz, if_false]
      refine h.adopt hi (.single (.exit (.adopted p q (fun hqz ↦ ?_)))) hc hpar hawake
      exact absurd (hst q ▸ hqz) hz
  · rw [if_neg hc]
    exact ⟨h, hc, fun _ hcp ↦ hcp⟩

theorem exitZombie_ensures (hi : Inv .stable a) (hp : (a.proc p).state = .RUNNING)
    (ht : a.thread p = .closing) :
    Ensures (fun b ↦ Moves short kind (.stable, a) (.stable, b)) err (a.exitZombie edf p) := by
  have hin : p ∈ a.queue := (hi.queue.mem p).mpr (by grind)
  have hmove : Move short kind (.stable, a) (.exiting p, { a with queue := a.queue.erase p }) :=
    .exit (.leave p hp ht)
  rw [Machine.exitZombie, Machine.dequeue, if_pos (.inr hp), delete_eq hin hi.queue.sorted, ok_bind]
  refine (wakeup1_ensures short kind (hmove.inv hi) _).bind (fun b hb ↦ ?_)
  obtain ⟨hm, hw, hnone⟩ := hb
  have hstart : Reparenting short kind a p b := ⟨.head hmove hm, hw.parent p, hnone⟩
  refine (Ensures.exec (Reparenting short kind a p) (fun q b ↦ (b.proc q).parent ≠ some p)
    (fun q b hb ↦ reparentOne_ensures hi q hb) (List.finRange NPROC) hstart).bind (fun c hc ↦ ?_)
  obtain ⟨hr, hnochild, -⟩ := hc
  refine hr.moves.tail (.exit (.zombie p (fun q ↦ hnochild q (List.mem_finRange q)) ?_))
  intro q hq hs
  refine hr.awake q ⟨hs.1, ?_⟩
  rw [← hr.parent, hq]
  exact hs.2

theorem exitSched_ensures (hi : Inv .stable a) (ht : a.thread p = .zombie) :
    Ensures (fun b ↦ Moves short kind (.stable, a) (.stable, b)) err (a.exitSched p) := by
  have hz := hi.thread.zombie p ht
  rw [Machine.exitSched, Machine.sched, if_neg (by simp [hz]), ok_bind]
  exact .single (.exit (.gone p ht))

theorem nicefork_ensures {niceValue : ℤ} (hp : (a.proc p).state = .RUNNING)
    (ht : a.thread p = .other) (herr : ¬ ValidNice niceValue → err (.panic .invalidNice)) :
    Ensures (fun b ↦ Moves short kind (.stable, a) (.stable, b)) err (a.nicefork niceValue p) := by
  rw [Machine.nicefork]
  by_cases hn : ValidNice niceValue
  · rw [if_pos hn]
    cases hs : a.unusedSlot with
    | none => exact .single (.fork (.noSlot p hp))
    | some np =>
      have hu := List.find?_some hs
      simp only [decide_eq_true_eq] at hu
      exact .single (.fork (.nicefork p np niceValue hn hp ht hu))
  · rw [if_neg hn]
    exact herr hn

def Thread.early : Thread → Option ProcId
  | .nicefork np _ .kstack | .nicefork np _ .copyuvm => some np
  | _ => none

theorem niceforkStep_ensures {np : ProcId} {niceValue : ℤ} {stage : Stage} (hi : Inv .stable a)
    (hp : (a.proc p).state = .RUNNING) (ht : a.thread p = .nicefork np niceValue stage) (mem : Bool)
    (hk : kind → mem = false → ∀ q, (a.thread p).early = some q → (a.proc q).killed = false) :
    Ensures (fun b ↦ Moves short kind (.stable, a) (.stable, b)) err
      (a.niceforkStep edf mem p np niceValue stage) := by
  cases stage with
  | kstack =>
    cases mem with
    | true => exact .single (.fork (.kstack p np hp ht))
    | false =>
      exact .single (.fork (.giveUp p np hp ht (.inl rfl) (fun h ↦ hk h rfl np (by rw [ht]; rfl))))
  | copyuvm =>
    cases mem with
    | true => exact .single (.fork (.copyuvm p np hp ht))
    | false =>
      exact .single (.fork (.giveUp p np hp ht (.inr rfl) (fun h ↦ hk h rfl np (by rw [ht]; rfl))))
  | parent => exact .single (.fork (.parent p np hp ht))
  | pid => exact .single (.fork (.pid p np hp ht))
  | nice pid => exact .single (.fork (.nice p np hp ht))
  | deadline pid => exact .single (.fork (.deadline p np hp ht))
  | insert pid =>
    have hemb := (hi.thread.fork p np _ _ ht).2.1
    have hne : p ≠ np := by
      rintro rfl
      rw [hp] at hemb
      cases hemb
    rw [Machine.niceforkStep, ready_eq hi.queue (by grind), ok_bind]
    refine .single (.fork ?_)
    convert ForkMove.fork p np hp ht using 2
    simp [Machine.on, Core.setThread, Core.emit, hne]

theorem kill_ensures (hi : Inv .stable a) (pid : ℤ)
    (hk : kind → ∀ p, a.slotOf pid = some p → (a.proc p).state ≠ .UNUSED) :
    Ensures (fun b ↦ Moves short kind (.stable, a) (.stable, b)) err (a.kill edf pid) := by
  rw [Machine.kill]
  cases hs : a.slotOf pid with
  | none => exact .single (.sched (.killNone pid))
  | some p =>
    have hpid : (a.proc p).pid = pid := by simpa using List.find?_some hs
    have hmove : Move short kind (.stable, a) (.stable, a.on (fun c ↦
        (c.upd p (fun x ↦ { x with killed := true })).emit (.killRet pid 0))) := by
      subst hpid
      exact .sched (.kill p (fun h ↦ hk h p hs))
    by_cases hst : (a.proc p).state = .SLEEPING
    · simp only [Machine.on_toCore, Core.emit_proc, Core.upd_proc, Function.update_self, hst, if_true]
      rw [ready_eq (hmove.inv hi).queue (by grind)]
      exact (Relation.ReflTransGen.single hmove).tail (.sched (.wake p (by simp [hst])))
    · simp only [Machine.on_toCore, Core.emit_proc, Core.upd_proc, Function.update_self, hst,
        if_false]
      exact .single hmove

theorem userinit_ensures (hi : Inv .stable a) (hph : a.phase = .main) (kalloc : Bool)
    (herr : kalloc = false → err .nullProc) :
    Ensures (fun b ↦ Moves short kind (.stable, a) (.stable, b)) err (a.userinit kalloc) := by
  have hall := hi.thread.main hph
  rw [Machine.userinit]
  cases hs : a.unusedSlot with
  | none =>
    have hn := List.find?_eq_none.mp hs 0 (List.mem_finRange 0)
    exact absurd (hall 0) (by simpa using hn)
  | some p =>
    cases kalloc with
    | false => exact herr rfl
    | true =>
      refine .single (.fork ?_)
      convert ForkMove.userinit p hph (hall p) using 2
      simp [Machine.allocproc, Machine.on, Core.upd, Core.emit, Core.nextPid, Core.setInitproc,
        Core.setPhase]

theorem userinitRun_ensures (hi : Inv .stable a) (hph : a.phase = .userinit p) (setupkvm : Bool)
    (herr : setupkvm = false → err (.panic .userinitMemory)) :
    Ensures (fun b ↦ Moves short kind (.stable, a) (.stable, b)) err
      (a.userinitRun edf setupkvm p) := by
  cases setupkvm with
  | false => exact herr rfl
  | true =>
    have hempty : a.queue = [] := by
      refine List.eq_nil_iff_forall_not_mem.mpr (fun q hq ↦ ?_)
      have hst := ((hi.thread.boot (by simp [hph])).2 q).2
      have hqueued := ((hi.queue.mem q).mp hq).1
      grind
    simp only [Machine.userinitRun, if_true, Machine.ready]
    rw [insert_eq (by simp [hempty]) (by simp [hempty])]
    refine .single (.fork ?_)
    convert ForkMove.userinitRun p hph using 2
    simp only [Machine.on, Core.upd, Core.setDeadline, Core.emit, Core.setPhase, hempty,
      Function.update_idem, Function.update_self, Machine.mk.injEq]
    exact ⟨trivial, enqueue_congr (by simp) (by simp [Core.deadline])⟩

theorem Core.current_ensures {c : Core} (herr : err .disabled) :
    Ensures (fun p ↦ c.cpuProc = some p ∧ (c.proc p).state = .RUNNING) err c.current := by
  rw [Core.current]
  cases hc : c.cpuProc with
  | none => exact herr
  | some p =>
    by_cases hp : (c.proc p).state = .RUNNING
    · simp only [if_pos hp]
      exact ⟨rfl, hp⟩
    · simp only [if_neg hp]
      exact herr

theorem Core.currentIn_ensures {c : Core} (places : Thread → Bool) (herr : err .disabled) :
    Ensures (fun p ↦ c.cpuProc = some p ∧ (c.proc p).state = .RUNNING ∧
      places (c.thread p) = true) err (c.currentIn places) := by
  refine (Core.current_ensures herr).bind (fun p hp ↦ ?_)
  split
  · exact ⟨hp.1, hp.2, ‹_›⟩
  · exact herr

/-- The ways in which a step can stop: the state does not allow it, memory runs out while
the system starts, the nice value is out of range, or init exits. -/
def Op.Expected : Op → Stop → Prop
  | _, .disabled => True
  | .userinit kalloc, .nullProc => kalloc = false
  | .userinitRun setupkvm, .panic .userinitMemory => setupkvm = false
  | .nicefork niceValue, .panic .invalidNice => ¬ ValidNice niceValue
  | .timer user, .panic .initExiting => user = true
  | .fault, .panic .initExiting => True
  | .exit, .panic .initExiting => True
  | _, _ => False

def Op.Short : Op → Core → Prop
  | .timer _, c => c.ticks + 1 < TICK_LIMIT
  | _, _ => True

instance (op : Op) (c : Core) : Decidable (op.Short c) := by
  unfold Op.Short
  split <;> infer_instance

/-- `kill` is called only as `kill` allows, and `nicefork` does not give up a slot whose killed flag is
set. -/
def Op.Spares (kill : ℤ → Core → Prop) : Op → Core → Prop
  | .kill pid, c => kill pid c
  | .niceforkStep mem, c => mem = false → ∀ p, c.cpuProc = some p →
    ∀ q, (c.thread p).early = some q → (c.proc q).killed = false
  | _, _ => True

instance (kill : ℤ → Core → Prop) [∀ pid c, Decidable (kill pid c)] (op : Op) (c : Core) :
    Decidable (op.Spares kill c) := by
  unfold Op.Spares
  split <;> infer_instance

/-- `kill` does not find a free slot. -/
abbrev Op.Kind : Op → Core → Prop :=
  Op.Spares fun pid c ↦ ∀ p, c.slotOf pid = some p → (c.proc p).state ≠ .UNUSED

theorem EdfKernel.step_ensures (hi : Inv .stable a) (op : Op) (hs : short → op.Short a.toCore)
    (hk : kind → op.Kind a.toCore) :
    Ensures (fun b ↦ Moves short kind (.stable, a) (.stable, b)) op.Expected
      (EdfKernel.step op a) := by
  rw [EdfKernel.step]
  cases op
  case timer user =>
    cases user <;> rw [Machine.step]
    · split
      · exact timer_ensures hi hs false (by simp) (by simp)
      · trivial
    · refine (Core.currentIn_ensures _ trivial).bind (fun p hp ↦ ?_)
      exact timer_ensures hi hs true (fun _ ↦ ⟨p, hp.1, hp.2.1, by simpa using hp.2.2⟩) id
  all_goals rw [Machine.step]
  case userinit kalloc =>
    split
    · exact userinit_ensures hi ‹_› kalloc id
    · trivial
  case userinitRun setupkvm =>
    split
    · exact userinitRun_ensures hi ‹_› setupkvm id
    · trivial
  case scheduler =>
    split
    · exact scheduler_ensures hi (‹_ ∧ _›).2
    · trivial
  case fault =>
    refine (Core.currentIn_ensures _ trivial).bind (fun p hp ↦ ?_)
    have hmove : Move short kind (.stable, a)
        (.stable, a.on (·.upd p (fun x ↦ { x with killed := true }))) := .sched (.fault p hp.2.1)
    exact (exit_ensures (by simp [hp.2.1]) (by simpa using hp.2.2) trivial).mono
      (fun b hb ↦ .head hmove hb)
  case nicefork niceValue =>
    refine (Core.currentIn_ensures _ trivial).bind (fun p hp ↦ ?_)
    exact nicefork_ensures hp.2.1 (by simpa using hp.2.2) id
  case niceforkStep mem =>
    refine (Core.current_ensures trivial).bind (fun p hp ↦ ?_)
    split
    · rename_i np n st hth
      exact niceforkStep_ensures hi hp.2 hth mem (fun h hm ↦ hk h hm p hp.1)
    · trivial
  case yield =>
    exact (Core.currentIn_ensures _ trivial).bind (fun p hp ↦ yield_ensures hi hp.2.1)
  case sleep chan =>
    refine (Core.currentIn_ensures _ trivial).bind (fun p hp ↦ ?_)
    split
    · rename_i hshared
      exact sleep_ensures hi hp.2.1 (by simpa using hp.2.2) (.inl rfl)
        (fun q hq ↦ absurd hq (hshared.2 q))
    · trivial
  case wakeup chan =>
    split
    · exact (wakeup1_ensures short kind hi chan).mono (fun b hb ↦ hb.1)
    · trivial
  case kill pid =>
    exact (Core.currentIn_ensures _ trivial).bind (fun p hp ↦ kill_ensures hi pid hk)
  case exit =>
    refine (Core.currentIn_ensures _ trivial).bind (fun p hp ↦ ?_)
    exact exit_ensures hp.2.1 (by simpa using hp.2.2) trivial
  case exitZombie =>
    refine (Core.currentIn_ensures _ trivial).bind (fun p hp ↦ ?_)
    exact exitZombie_ensures hi hp.2.1 (by simpa using hp.2.2)
  case exitSched =>
    split
    · trivial
    · split
      · exact exitSched_ensures hi ‹_›
      · trivial
  case wait =>
    refine (Core.currentIn_ensures _ trivial).bind (fun p hp ↦ ?_)
    exact wait_ensures hi hp.2.1 (.inl (by simpa using hp.2.2))

end Xv6Bfs.Sched

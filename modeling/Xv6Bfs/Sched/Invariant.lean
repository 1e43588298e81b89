import Xv6Bfs.Sched.Lifecycle

namespace Xv6Bfs.Sched

open Lib.Execution Lib.KeyedQueue

variable {short kind : Prop} {x y : Flux} {a b : EdfKernel} {p : ProcId}
  {f : ProcId → ℤ} {l : List ProcId}

def rank (log : List Event) (p : ProcId) : ℕ := log.idxOf (.inserted p)

@[grind =] theorem rank_cons (e : Event) (log : List Event) (p : ProcId) :
    rank (e :: log) p = if e = .inserted p then 0 else rank log p + 1 := by
  simp only [rank, List.idxOf_cons, cond_eq_ite, beq_iff_eq]

theorem rank_append {es : List Event} {p : ProcId} (log : List Event) (h : .inserted p ∉ es) :
    rank (es ++ log) p = es.length + rank log p := List.idxOf_append_of_notMem h

@[grind =]
def ProcState.Queued (st : ProcState) : Prop := st = .RUNNABLE ∨ st = .RUNNING

@[grind =]
def ProcState.Alive (st : ProcState) : Prop := st = .SLEEPING ∨ st = .RUNNABLE ∨ st = .RUNNING

def Proc.SameQueue (x y : Proc) : Prop :=
  (x.state.Queued ↔ y.state.Queued) ∧ (y.state.Queued → x.virtDeadline = y.virtDeadline)

instance : Std.Refl Proc.SameQueue := ⟨fun _ ↦ ⟨Iff.rfl, fun _ ↦ rfl⟩⟩

def Proc.SameRun (x y : Proc) : Prop := x.state = y.state ∧ x.context = y.context

instance : Std.Refl Proc.SameRun := ⟨fun _ ↦ ⟨rfl, rfl⟩⟩

/-- The queue holds the processes that can run, by deadline and, for equal deadlines,
the one inserted last first. -/
structure QueueInv (x : Flux) (a : EdfKernel) : Prop where
  nodup : a.queue.Nodup
  ranked : Ranked a.deadline (rank a.log) a.queue
  mem : ∀ p, p ∈ a.queue ↔ (a.proc p).state.Queued ∧ x.leaving ≠ some p

namespace QueueInv

theorem sorted (h : QueueInv x a) : a.queue.Pairwise (fun p q ↦ a.deadline p ≤ a.deadline q) :=
  h.ranked.sorted

theorem frame (h : QueueInv x a) (es : List Event) (hl : b.log = es ++ a.log)
    (hes : ∀ p, .inserted p ∉ es) (hq : b.queue = a.queue)
    (hs : ∀ p, (b.proc p).state.Queued ∧ y.leaving ≠ some p ↔
      (a.proc p).state.Queued ∧ x.leaving ≠ some p)
    (hd : ∀ p ∈ a.queue, b.deadline p = a.deadline p) : QueueInv y b where
  nodup := hq ▸ h.nodup
  ranked := by
    rw [hq, hl]
    refine h.ranked.congr hd (fun p _ q _ hlt ↦ ?_)
    rw [rank_append _ (hes p), rank_append _ (hes q)]
    omega
  mem p := by rw [hq, h.mem, hs]

theorem quiet (h : QueueInv x a) (es : List Event) (hl : b.log = es ++ a.log)
    (hes : ∀ p, .inserted p ∉ es) (hq : b.queue = a.queue) (hx : y.leaving = x.leaving)
    (hs : ∀ p, (b.proc p).SameQueue (a.proc p)) : QueueInv y b :=
  h.frame es hl hes hq (fun p ↦ by rw [(hs p).1, hx])
    (fun p hp ↦ (hs p).2 ((h.mem p).mp hp).1)

theorem pull (h : QueueInv x a) (hq : b.queue = a.queue.erase p)
    (hs : ∀ q, (b.proc q).state.Queued ∧ y.leaving ≠ some q ↔
      ((a.proc q).state.Queued ∧ x.leaving ≠ some q) ∧ q ≠ p)
    (hd : ∀ q ∈ a.queue, b.deadline q = a.deadline q) (hl : b.log = a.log) : QueueInv y b where
  nodup := hq ▸ h.nodup.erase p
  ranked := by
    rw [hq, hl]
    have hsub := List.erase_sublist (a := p) (l := a.queue)
    exact (h.ranked.sublist hsub).congr (fun q hm ↦ hd q (hsub.subset hm)) (fun _ _ _ _ hlt ↦ hlt)
  mem q := by rw [hq, h.nodup.mem_erase_iff, h.mem, hs, and_comm]

theorem push (h : QueueInv x a) (pre post : List Event)
    (hl : b.log = pre ++ .inserted p :: (post ++ a.log)) (hes : ∀ q, .inserted q ∉ pre ++ post)
    (hq : b.queue = enqueue f p l) (he : a.queue.erase p = l) (hd : b.deadline = f)
    (hw : ∀ q, q ≠ p → b.proc q = a.proc q) (hp : (b.proc p).state.Queued)
    (hx : x.leaving ≠ some p) : QueueInv x b := by
  subst hd he
  have hout : p ∉ a.queue.erase p := h.nodup.not_mem_erase
  have hne : ∀ q ∈ a.queue.erase p, q ≠ p := by
    rintro q hm rfl
    exact hout hm
  have hsub := List.erase_sublist (a := p) (l := a.queue)
  have hk : Ranked b.deadline (rank a.log) (a.queue.erase p) :=
    (h.ranked.sublist hsub).congr (fun q hm ↦ congrArg Proc.virtDeadline (hw q (hne q hm)))
      (fun _ _ _ _ hlt ↦ hlt)
  have hrp : rank b.log p = pre.length := by
    have := hes p
    simp_all [rank_append, rank_cons]
  have hr : ∀ q, q ≠ p → rank b.log q = pre.length + 1 + post.length + rank a.log q := by
    intro q hqp
    have := hes q
    simp_all [rank_append, rank_cons, hqp.symm]
    omega
  refine ⟨?_, ?_, fun q ↦ ?_⟩
  · rw [hq]
    exact nodup_enqueue _ hout (h.nodup.erase p)
  · rw [hq]
    refine hk.enqueue (fun q hm ↦ ?_) (fun q hm r hm' hlt ↦ ?_)
    · rw [hrp, hr q (hne q hm)]
      omega
    · rw [hr q (hne q hm), hr r (hne r hm')]
      omega
  · rw [hq, mem_enqueue, h.nodup.mem_erase_iff, h.mem]
    by_cases hqp : q = p
    · subst hqp
      simp [hp, hx]
    · simp [hqp, hw q hqp]

theorem not_mem (h : QueueInv x a) (hp : ¬ (a.proc p).state.Queued) : p ∉ a.queue :=
  fun hm ↦ hp ((h.mem p).mp hm).1

end QueueInv

structure ThreadInv (x : Flux) (c : Core) : Prop where
  cpu : ∀ p, c.cpuProc = some p ↔ (c.proc p).state = .RUNNING ∨ c.thread p = .zombie
  zombie : ∀ p, c.thread p = .zombie → (c.proc p).state = .ZOMBIE
  context : ∀ p, (c.proc p).state.Alive → (c.proc p).context ≠ .null ∧ (c.proc p).context ≠ .exit
  fork : ∀ p np n st, c.thread p = .nicefork np n st → (c.proc p).state.Queued ∧
    (c.proc np).state = .EMBRYO ∧ ValidNice n ∧ (st ≠ .kstack → (c.proc np).context = .forkret)
  preempted : ∀ p np n st, c.thread p = .nicefork np n st → (c.proc p).state = .RUNNABLE →
    (c.proc p).context = .yield
  owner : ∀ p q np n m st st', c.thread p = .nicefork np n st → c.thread q = .nicefork np m st' →
    p = q
  closing : ∀ p, c.thread p = .closing → (c.proc p).state.Alive
  leaving : ∀ p, x.leaving = some p → (c.proc p).state = .RUNNING ∧ c.thread p = .closing
  main : c.phase = .main → ∀ p, (c.proc p).state = .UNUSED
  userinit : ∀ p, c.phase = .userinit p → (c.proc p).state = .EMBRYO ∧
    (c.proc p).context = .forkret
  boot : c.phase ≠ .running → c.cpuProc = none ∧ ∀ p, c.thread p = .other ∧
    ((c.proc p).state = .UNUSED ∨ (c.proc p).state = .EMBRYO)

@[grind cases eager]
structure ThreadAt (x : Flux) (c : Core) (p : ProcId) : Prop where
  cpu : c.cpuProc = some p ↔ (c.proc p).state = .RUNNING ∨ c.thread p = .zombie
  zombie : c.thread p = .zombie → (c.proc p).state = .ZOMBIE
  context : (c.proc p).state.Alive → (c.proc p).context ≠ .null ∧ (c.proc p).context ≠ .exit
  fork : ∀ np n st, c.thread p = .nicefork np n st → (c.proc p).state.Queued ∧
    (c.proc np).state = .EMBRYO ∧ ValidNice n ∧ (st ≠ .kstack → (c.proc np).context = .forkret)
  preempted : ∀ np n st, c.thread p = .nicefork np n st → (c.proc p).state = .RUNNABLE →
    (c.proc p).context = .yield
  closing : c.thread p = .closing → (c.proc p).state.Alive
  leaving : x.leaving = some p → (c.proc p).state = .RUNNING ∧ c.thread p = .closing

section

variable {c d : Core} {np : ProcId} {n : ℤ} {st : Stage}

theorem ThreadInv.at (h : ThreadInv x c) (p : ProcId) : ThreadAt x c p :=
  ⟨h.cpu p, h.zombie p, h.context p, h.fork p, h.preempted p, h.closing p, h.leaving p⟩

theorem ThreadInv.running (h : ThreadInv x c) (hp : (c.proc p).state.Alive) :
    c.phase = .running := by
  by_contra hph
  have := ((h.boot hph).2 p).2
  grind

theorem ThreadInv.busy (h : ThreadInv x c) (hp : c.thread p ≠ .other) : c.phase = .running := by
  by_contra hph
  exact hp ((h.boot hph).2 p).1

theorem ThreadInv.only (h : ThreadInv x c)
    (hp : c.thread p = .nicefork np n st) (q : ProcId) (m : ℤ) (st' : Stage)
    (hq : c.thread q = .nicefork np m st') : q = p := h.owner q p np m n st' st hq hp

theorem ThreadInv.embryo (h : ThreadInv x c) (hp : c.thread p = .nicefork np n st) :
    (c.proc np).state = .EMBRYO := (h.fork p np n st hp).2.1

theorem ThreadInv.frame (h : ThreadInv x c) (hx : y.leaving = x.leaving)
    (hs : ∀ p, (d.proc p).SameRun (c.proc p)) (ht : d.thread = c.thread)
    (hc : d.cpuProc = c.cpuProc) (hp : d.phase = c.phase) : ThreadInv y d := by
  have hst := fun p ↦ (hs p).1
  have hctx := fun p ↦ (hs p).2
  exact
    { cpu := by simpa only [hst, ht, hc] using h.cpu
      zombie := by simpa only [hst, ht] using h.zombie
      context := by simpa only [hst, hctx] using h.context
      fork := by simpa only [hst, hctx, ht] using h.fork
      preempted := by simpa only [hst, hctx, ht] using h.preempted
      owner := by simpa only [ht] using h.owner
      closing := by simpa only [hst, ht] using h.closing
      leaving := by simpa only [hst, ht, hx] using h.leaving
      main := by simpa only [hst, hp] using h.main
      userinit := by simpa only [hst, hctx, hp] using h.userinit
      boot := by simpa only [hst, ht, hc, hp] using h.boot }

theorem ThreadInv.change (h : ThreadInv x c) (T : List ProcId) (hrun : c.phase = .running)
    (hph : d.phase = c.phase)
    (hw : ∀ q ∉ T, d.proc q = c.proc q ∧ d.thread q = c.thread q ∧
      (d.cpuProc = some q ↔ c.cpuProc = some q) ∧ (y.leaving = some q → x.leaving = some q))
    (hT : ∀ q ∉ T, ∀ np ∈ T, ∀ n st, c.thread q ≠ .nicefork np n st)
    (hown : ∀ p q np n m st st', d.thread p = .nicefork np n st →
      d.thread q = .nicefork np m st' → p = q)
    (hat : ∀ q ∈ T, ThreadAt y d q) : ThreadInv y d := by
  have hd : ∀ q, ThreadAt y d q := by
    intro q
    by_cases hq : q ∈ T
    · exact hat q hq
    · obtain ⟨hproc, hth, hcpu, hx⟩ := hw q hq
      obtain ⟨cpu, zombie, context, fork, preempted, closing, leaving⟩ := h.at q
      refine ⟨?_, ?_, ?_, fun np n st hst ↦ ?_, ?_, ?_, fun hy ↦ ?_⟩
      · rwa [hcpu, hproc, hth]
      · rwa [hproc, hth]
      · rwa [hproc]
      · rw [hth] at hst
        have hnp : d.proc np = c.proc np := (hw np (fun hm ↦ hT q hq np hm n st hst)).1
        rw [hproc, hnp]
        exact fork np n st hst
      · rwa [hproc, hth]
      · rwa [hproc, hth]
      · rw [hproc, hth]
        exact leaving (hx hy)
  have hbusy : d.phase = .running := hph.trans hrun
  exact
    { cpu := fun p ↦ (hd p).cpu
      zombie := fun p ↦ (hd p).zombie
      context := fun p ↦ (hd p).context
      fork := fun p ↦ (hd p).fork
      preempted := fun p ↦ (hd p).preempted
      owner := hown
      closing := fun p ↦ (hd p).closing
      leaving := fun p ↦ (hd p).leaving
      main := by simp [hbusy]
      userinit := by simp [hbusy]
      boot := by simp [hbusy] }

end

theorem ThreadInv.changeOne {c d : Core} (h : ThreadInv x c) (hp : (c.proc p).state ≠ .EMBRYO)
    (hrun : c.phase = .running) (hph : d.phase = c.phase)
    (hw : ∀ q, q ≠ p → d.proc q = c.proc q ∧ d.thread q = c.thread q ∧
      (d.cpuProc = some q ↔ c.cpuProc = some q) ∧ (y.leaving = some q → x.leaving = some q))
    (hth : ∀ np n st, d.thread p = .nicefork np n st → c.thread p = .nicefork np n st)
    (hat : ThreadAt y d p) : ThreadInv y d := by
  have hold : ∀ q np n st, d.thread q = .nicefork np n st → c.thread q = .nicefork np n st := by
    intro q np n st hq
    by_cases hqp : q = p
    · subst hqp
      exact hth np n st hq
    · exact (hw q hqp).2.1 ▸ hq
  refine h.change [p] hrun hph (fun q hq ↦ hw q (by simpa using hq)) ?_ ?_ (by simpa using hat)
  · intro q _ np hnp n st hq
    exact hp (List.mem_singleton.mp hnp ▸ h.embryo hq)
  · intro q r np n m st st' hq hr
    exact h.owner q r np n m st st' (hold _ _ _ _ hq) (hold _ _ _ _ hr)

theorem SchedMove.threadInv (h : SchedMove short kind (x, a) (y, b)) (hq : QueueInv x a)
    (ht : ThreadInv x a.toCore) : ThreadInv y b.toCore := by
  cases h with
  | wake p hp =>
    refine ht.changeOne (p := p) (by simp [hp]) (ht.running (.inl hp)) rfl (by simp +contextual)
      (fun _ _ _ ↦ id) ?_
    have hat := ht.at p
    clear ht hq
    constructor <;> grind
  | dispatch p hc hp =>
    have hst := ((hq.mem p).mp (List.mem_of_mem_head? hp)).1
    refine ht.changeOne (p := p) (by grind) (ht.running (.inr hst)) rfl ?_ (fun _ _ _ ↦ id) ?_
    · intro q hne
      simp [hne, hne.symm, hc]
    · have hat := ht.at p
      clear ht hq
      constructor <;> grind
  | yield p hp | block p _ _ hp =>
    have hcpu := (ht.cpu p).mpr (.inl hp)
    refine ht.changeOne (p := p) (by simp [hp]) (ht.running (.inr (.inr hp))) rfl ?_
      (fun _ _ _ ↦ id) ?_
    · intro q hne
      simp [hne, hne.symm, hcpu]
    · have hat := ht.at p
      clear ht hq
      constructor <;> grind
  | tick | idle | killNone => exact ht.frame rfl (fun _ ↦ ⟨rfl, rfl⟩) rfl rfl rfl
  | touch | fault | kill => exact ht.frame rfl (written ⟨rfl, rfl⟩) rfl rfl rfl

theorem ThreadInv.changeTwo {c d : Core} {np : ProcId} (h : ThreadInv x c) (hne : p ≠ np)
    (hrun : c.phase = .running) (hph : d.phase = c.phase) (hp : (c.proc p).state ≠ .EMBRYO)
    (hmade : ∀ q, q ≠ p → ∀ n st, c.thread q ≠ .nicefork np n st)
    (hw : ∀ q, q ≠ np → d.proc q = c.proc q) (ht : ∀ q, q ≠ p → d.thread q = c.thread q)
    (hc : d.cpuProc = c.cpuProc) (hnew : ∀ r n st, d.thread p = .nicefork r n st → r = np)
    (hatp : ThreadAt x d p) (hatnp : ThreadAt x d np) : ThreadInv x d := by
  refine h.change [p, np] hrun hph ?_ ?_ ?_ (by simp [hatp, hatnp])
  · intro q hq
    obtain ⟨hqp, hqn⟩ : q ≠ p ∧ q ≠ np := by simpa using hq
    simp [hw q hqn, ht q hqp, hc]
  · intro q hq r hr n st hth
    obtain ⟨hqp, hqn⟩ : q ≠ p ∧ q ≠ np := by simpa using hq
    obtain rfl | rfl : r = p ∨ r = np := by simpa using hr
    · exact hp (h.embryo hth)
    · exact hmade q hqp n st hth
  · -- the only call for `np` is the one of `p`
    have hnp : ∀ q r n st, q ≠ p → d.thread q = .nicefork r n st → r ≠ np := by
      rintro q r n st hqp hth rfl
      exact hmade q hqp n st (ht q hqp ▸ hth)
    intro q r u n m st st' hq hr
    by_cases hqp : q = p <;> by_cases hrp : r = p
    · exact hqp.trans hrp.symm
    · exact absurd (hnew u n st (hqp ▸ hq)) (hnp r u m st' hrp hr)
    · exact absurd (hnew u m st' (hrp ▸ hr)) (hnp q u n st hqp hq)
    · exact h.owner q r u n m st st' (ht q hqp ▸ hq) (ht r hrp ▸ hr)

theorem ThreadInv.stage {c d : Core} {np : ProcId} {n : ℤ} {st st' : Stage} (h : ThreadInv x c)
    (hth : c.thread p = .nicefork np n st) (hw : ∀ q, q ≠ np → d.proc q = c.proc q)
    (hst : (d.proc np).state = (c.proc np).state) (hctx : (d.proc np).context = .forkret)
    (ht : d.thread = Function.update c.thread p (.nicefork np n st')) (hc : d.cpuProc = c.cpuProc)
    (hph : d.phase = c.phase) : ThreadInv x d := by
  obtain ⟨hrun, hemb, hn, -⟩ := h.fork p np n st hth
  have hne : p ≠ np := by grind
  have hthp : d.thread p = .nicefork np n st' := by simp [ht]
  have hthn : d.thread np = c.thread np := by simp [ht, hne.symm]
  have hproc := hw p hne
  refine h.changeTwo hne (h.busy (p := p) (by simp [hth])) hph (by grind)
    (fun q hq m s hs ↦ hq (h.only hth q m s hs)) hw (fun q hq ↦ by simp [ht, hq]) hc
    (by simp [hthp]) ?_ ?_
  · have hat := h.at p
    clear h hw ht
    constructor <;> grind
  · have hat := h.at np
    clear h hw ht
    constructor <;> grind

theorem ForkMove.threadInv (h : ForkMove kind (x, a) (y, b)) (ht : ThreadInv x a.toCore) :
    ThreadInv y b.toCore := by
  have hctx := fun c np n st hth ↦ (ht.fork c np n st hth).2.2.2
  cases h with
  | userinit p hph hp =>
    have hmain := ht.main hph
    obtain ⟨hcpu, hboot⟩ := ht.boot (by simp [hph])
    clear ht hctx
    constructor <;> grind
  | userinitRun p hph =>
    have hinit := ht.userinit p hph
    obtain ⟨hcpu, hboot⟩ := ht.boot (by simp [hph])
    clear ht hctx
    constructor <;> grind
  | nicefork c np n hn hc hth hp =>
    have hne : c ≠ np := by grind
    refine ht.changeTwo hne (ht.running (.inr (.inr hc))) rfl (by simp [hc])
      (fun q _ m st hq ↦ ?_) (fun _ hq ↦ Function.update_of_ne hq ..)
      (fun _ hq ↦ Function.update_of_ne hq ..) rfl (by simp) ?_ ?_
    · have := ht.embryo hq
      grind
    · have hat := ht.at c
      clear ht hctx
      constructor <;> grind
    · have hat := ht.at np
      clear ht hctx
      constructor <;> grind
  | giveUp c np hc hth | fork c np hc hth =>
    have hemb := ht.embryo hth
    have hne : c ≠ np := by grind
    have hst := hctx c np _ _ hth
    refine ht.changeTwo hne (ht.running (.inr (.inr hc))) rfl (by simp [hc])
      (fun q hq m st hs ↦ hq (ht.only hth q m st hs)) (fun _ hq ↦ Function.update_of_ne hq ..)
      (fun _ hq ↦ Function.update_of_ne hq ..) rfl (by simp) ?_ ?_
    · have hat := ht.at c
      clear ht hctx
      constructor <;> grind
    · have hat := ht.at np
      clear ht hctx
      constructor <;> grind
  | noSlot => exact ht.frame rfl (fun _ ↦ ⟨rfl, rfl⟩) rfl rfl rfl
  | kstack c np hc hth =>
    exact ht.stage hth (fun _ hne ↦ Function.update_of_ne hne ..) (by simp) (by simp) rfl rfl rfl
  | copyuvm c np hc hth | pid c np hc hth =>
    exact ht.stage hth (fun _ _ ↦ rfl) rfl (hctx _ _ _ _ hth nofun) rfl rfl rfl
  | parent c np hc hth | nice c np hc hth | deadline c np hc hth =>
    exact ht.stage hth (fun _ hne ↦ Function.update_of_ne hne ..) (by simp)
      (by simpa using hctx _ _ _ _ hth nofun) rfl rfl rfl

theorem ExitMove.threadInv (h : ExitMove (x, a) (y, b)) (ht : ThreadInv x a.toCore) :
    ThreadInv y b.toCore := by
  cases h with
  | adopt => exact ht.frame rfl (written ⟨rfl, rfl⟩) rfl rfl rfl
  | adopted | noChild => exact ht.frame rfl (fun _ ↦ ⟨rfl, rfl⟩) rfl rfl rfl
  | exit p hp hth hi =>
    refine ht.changeOne (p := p) (by simp [hp]) (ht.running (.inr (.inr hp))) rfl ?_ (by simp) ?_
    · intro q hne
      simp [hne]
    · have hat := ht.at p
      clear ht
      constructor <;> grind
  | leave p hp hth =>
    refine ht.changeOne (p := p) (by simp [hp]) (ht.running (.inr (.inr hp))) rfl ?_
      (fun _ _ _ ↦ id) ?_
    · intro q hne
      simp [Flux.leaving, hne.symm]
    · have hat := ht.at p
      clear ht
      constructor <;> grind
  | zombie p hc hp =>
    obtain ⟨hrun, hth⟩ := ht.leaving p rfl
    refine ht.changeOne (p := p) (by simp [hrun]) (ht.busy (p := p) (by simp [hth])) rfl ?_
      (by simp) ?_
    · intro q hne
      simp [hne, Flux.leaving]
    · have hat := ht.at p
      clear ht hc hp
      constructor <;> grind
  | gone p hth =>
    have hz := ht.zombie p hth
    have hcpu := (ht.cpu p).mpr (.inr hth)
    refine ht.changeOne (p := p) (by simp [hz]) (ht.busy (p := p) (by simp [hth])) rfl ?_
      (by simp) ?_
    · intro q hne
      simp [hne, hne.symm, hcpu]
    · have hat := ht.at p
      clear ht
      constructor <;> grind
  | reap p q hp hqp hz =>
    have hcpu := (ht.cpu p).mpr (.inl hp)
    refine ht.changeOne (p := q) (by simp [hz]) (ht.running (.inr (.inr hp))) rfl ?_
      (fun _ _ _ ↦ id) ?_
    · intro r hne
      simp [hne]
    · have hat := ht.at q
      clear ht
      constructor <;> grind

theorem SchedMove.queueInv (h : SchedMove short kind (x, a) (y, b)) (ht : ThreadInv x a.toCore)
    (hq : QueueInv x a) : QueueInv y b := by
  cases h with
  | wake p hp =>
    have hout := hq.not_mem (p := p) (by grind)
    have hleave := ht.leaving p
    exact hq.push [] [] rfl nofun rfl (List.erase_of_not_mem hout) (funext fun q ↦ by grind)
      (fun _ hne ↦ Function.update_of_ne hne ..) (by grind) (by grind)
  | dispatch p hc hp =>
    have hqueued := (hq.mem p).mp (List.mem_of_mem_head? hp)
    exact hq.quiet [_] rfl (by simp) rfl rfl (written ⟨by grind, fun _ ↦ rfl⟩)
  | yield p hp =>
    exact hq.push [] [_] rfl (by simp) rfl rfl (funext fun q ↦ by grind)
      (fun _ hne ↦ Function.update_of_ne hne ..) (by grind) nofun
  | block p ctx chan hp hth hctx hchan =>
    exact hq.pull (p := p) rfl (by grind) (by grind) rfl
  | tick => exact hq.quiet [] rfl nofun rfl rfl (fun _ ↦ ⟨Iff.rfl, fun _ ↦ rfl⟩)
  | idle | killNone => exact hq.quiet [_] rfl (by simp) rfl rfl (fun _ ↦ ⟨Iff.rfl, fun _ ↦ rfl⟩)
  | touch | fault => exact hq.quiet [] rfl nofun rfl rfl (written ⟨Iff.rfl, fun _ ↦ rfl⟩)
  | kill => exact hq.quiet [_] rfl (by simp) rfl rfl (written ⟨Iff.rfl, fun _ ↦ rfl⟩)

theorem ForkMove.queueInv (h : ForkMove kind (x, a) (y, b)) (ht : ThreadInv x a.toCore)
    (hq : QueueInv x a) : QueueInv y b := by
  have hemb := fun c np n st hth ↦ (ht.fork c np n st hth).2.1
  cases h with
  | userinit p hph hp | nicefork _ p _ _ _ _ hp =>
    exact hq.quiet [_] rfl (by simp) rfl rfl (written ⟨by grind, by grind⟩)
  | userinitRun p hph =>
    have hst := (ht.userinit p hph).1
    have hout := hq.not_mem (p := p) (by grind)
    exact hq.push [] [_] rfl (by simp) rfl (List.erase_of_not_mem hout)
      (funext fun q ↦ by grind) (fun _ hne ↦ Function.update_of_ne hne ..) (by grind) nofun
  | noSlot => exact hq.quiet [_] rfl (by simp) rfl rfl (fun _ ↦ ⟨Iff.rfl, fun _ ↦ rfl⟩)
  | giveUp c np hc hth | deadline c np hc hth =>
    have hst := hemb c np _ _ hth
    exact hq.quiet [_] rfl (by simp) rfl rfl (written ⟨by grind, by grind⟩)
  | kstack | parent | nice => exact hq.quiet [] rfl nofun rfl rfl (written ⟨Iff.rfl, fun _ ↦ rfl⟩)
  | copyuvm | pid => exact hq.quiet [] rfl nofun rfl rfl (fun _ ↦ ⟨Iff.rfl, fun _ ↦ rfl⟩)
  | fork c np hc hth =>
    have hst := hemb c np _ _ hth
    have hout := hq.not_mem (p := np) (by grind)
    exact hq.push [_] [] rfl (by simp) rfl (List.erase_of_not_mem hout)
      (funext fun q ↦ by grind) (fun _ hne ↦ Function.update_of_ne hne ..) (by grind) nofun

theorem ExitMove.queueInv (h : ExitMove (x, a) (y, b)) (ht : ThreadInv x a.toCore)
    (hq : QueueInv x a) : QueueInv y b := by
  cases h with
  | exit | adopted => exact hq.quiet [] rfl nofun rfl rfl (fun _ ↦ ⟨Iff.rfl, fun _ ↦ rfl⟩)
  | leave p hp hth => exact hq.pull (p := p) rfl (by grind) (by grind) rfl
  | adopt | gone => exact hq.quiet [] rfl nofun rfl rfl (written ⟨Iff.rfl, fun _ ↦ rfl⟩)
  | zombie p hc hp =>
    have hleave := ht.leaving p rfl
    exact hq.frame [_] rfl (by simp) rfl (by grind) (by grind)
  | reap p q hp hqp hz =>
    exact hq.quiet [_] rfl (by simp) rfl rfl (written ⟨by grind, by grind⟩)
  | noChild => exact hq.quiet [_] rfl (by simp) rfl rfl (fun _ ↦ ⟨Iff.rfl, fun _ ↦ rfl⟩)

end Xv6Bfs.Sched

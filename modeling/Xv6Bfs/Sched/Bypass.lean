import Xv6Bfs.Sched.Dispatch

namespace Xv6Bfs.Sched

open Lib.Execution

variable {kind : Prop} {x y : Flux} {a b : EdfKernel} {p q : ProcId}

@[grind]
def Core.Stamped (c : Core) (p : ProcId) (n : ℤ) : Prop :=
  ∃ t, lastStamp p c.log = some t ∧ (c.proc p).virtDeadline = computevd n t ∧ t ≤ c.ticks

/-- The deadline of every process that has been started was computed from its nice value,
and `nicefork` is about to start one of which this holds too. -/
structure StampInv (c : Core) : Prop where
  limit : c.ticks < TICK_LIMIT
  alive : ∀ p, (c.proc p).state.Alive → ValidNice (c.proc p).nice ∧ c.Stamped p (c.proc p).nice
  nice : ∀ p np n pid, c.thread p = .nicefork np n (.deadline pid) → (c.proc np).nice = n
  insert : ∀ p np n pid, c.thread p = .nicefork np n (.insert pid) →
    (c.proc np).nice = n ∧ c.Stamped np n

theorem StampInv.frame {c d : Core} (h : StampInv c) (ht : c.ticks ≤ d.ticks)
    (hlim : d.ticks < TICK_LIMIT)
    (hal : ∀ p, (d.proc p).state.Alive → (c.proc p).state.Alive)
    (hth : ∀ p np n pid, (d.thread p = .nicefork np n (.deadline pid) →
        c.thread p = .nicefork np n (.deadline pid)) ∧
      (d.thread p = .nicefork np n (.insert pid) → c.thread p = .nicefork np n (.insert pid)))
    (hk : ∀ p, (d.proc p).nice = (c.proc p).nice ∧
      (d.proc p).virtDeadline = (c.proc p).virtDeadline ∧ lastStamp p d.log = lastStamp p c.log) :
    StampInv d := by
  have hst : ∀ p n, c.Stamped p n → d.Stamped p n := by
    rintro p n ⟨t, hl, hv, hle⟩
    exact ⟨t, (hk p).2.2.trans hl, (hk p).2.1.trans hv, hle.trans ht⟩
  refine ⟨hlim, fun p hp ↦ ?_, fun p np n pid hp ↦ ?_, fun p np n pid hp ↦ ?_⟩
  · rw [(hk p).1]
    exact (h.alive p (hal p hp)).imp_right (hst p _)
  · rw [(hk np).1]
    exact h.nice p np n pid ((hth p np n pid).1 hp)
  · rw [(hk np).1]
    exact (h.insert p np n pid ((hth p np n pid).2 hp)).imp_right (hst np n)

theorem SchedMove.stampInv (h : SchedMove True kind (x, a) (y, b)) (hq : QueueInv x a)
    (ht : ThreadInv x a.toCore) (hs : StampInv a.toCore) : StampInv b.toCore := by
  have hlim := hs.limit
  cases h with
  | tick hshort =>
    have hlt := hshort trivial
    have hmod : (a.ticks + 1) % 2 ^ 32 = a.ticks + 1 := by
      have hlimit : TICK_LIMIT = 2 ^ 31 - 2000 := rfl
      omega
    exact hs.frame (by grind) (by grind) (fun _ hp ↦ hp) (fun _ _ _ _ ↦ ⟨id, id⟩)
      (fun _ ↦ ⟨rfl, rfl, rfl⟩)
  | wake | idle | touch | block | fault | kill | killNone =>
    exact hs.frame le_rfl hlim (by grind) (fun _ _ _ _ ↦ ⟨id, id⟩) (by grind)
  | dispatch p hc hp =>
    have hqueued := ((hq.mem p).mp (List.mem_of_mem_head? hp)).1
    exact hs.frame le_rfl hlim (by grind) (fun _ _ _ _ ↦ ⟨id, id⟩) (by grind)
  | yield p hp =>
    have hal := hs.alive
    have hni := hs.nice
    have hin := hs.insert
    have hfork := ht.fork
    constructor <;> grind

theorem ForkMove.stampInv (h : ForkMove kind (x, a) (y, b)) (ht : ThreadInv x a.toCore)
    (hs : StampInv a.toCore) : StampInv b.toCore := by
  have hlim := hs.limit
  have hal := hs.alive
  have hni := hs.nice
  have hin := hs.insert
  have hfork := ht.fork
  cases h with
  | userinit p hph hp => constructor <;> grind
  | userinitRun p hph =>
    have hboot := (ht.boot (by simp [hph])).2
    have hzero : ValidNice 0 := by decide
    constructor <;> grind
  | noSlot c hc => exact hs.frame le_rfl hlim (by grind) (fun _ _ _ _ ↦ ⟨id, id⟩) (by grind)
  | nicefork c np n hn hc hth hp => constructor <;> grind
  | giveUp | kstack | copyuvm | parent | pid =>
    exact hs.frame le_rfl hlim (by grind) (by grind) (by grind)
  | nice c np hc hth =>
    have hone := ht.only hth
    constructor <;> grind
  | deadline c np hc hth =>
    have hone := ht.only hth
    constructor <;> grind
  | fork c np hc hth => constructor <;> grind

theorem ExitMove.stampInv (h : ExitMove (x, a) (y, b)) (hs : StampInv a.toCore) :
    StampInv b.toCore := by
  have hlim := hs.limit
  cases h with
  | exit | leave | adopt | zombie | gone | reap | noChild =>
    exact hs.frame le_rfl hlim (by grind) (by grind) (by grind)
  | adopted p child hc => exact hs

theorem Move.stampInv (h : Move True kind (x, a) (y, b)) (hi : Inv x a) (hs : StampInv a.toCore) :
    StampInv b.toCore := by
  cases h with
  | sched h => exact h.stampInv hi.queue hi.thread hs
  | fork h => exact h.stampInv hi.thread hs
  | exit h => exact h.stampInv hs

theorem boot_stampInv : StampInv EdfKernel.boot.toCore := by
  constructor <;> simp [EdfKernel.boot, Core.bss, ProcState.Alive, TICK_LIMIT]

def Since (log : List Event) (tick : ℕ) (c : Core) : Prop :=
  tick ≤ c.ticks ∧ ∃ new, c.log = new ++ log ∧ ∀ p t, .deadline p t ∈ new → tick ≤ t

theorem Since.append {log : List Event} {tick : ℕ} {c d : Core} (h : Since log tick c)
    (ht : c.ticks ≤ d.ticks) (es : List Event) (hl : d.log = es ++ c.log)
    (hes : ∀ p t, .deadline p t ∈ es → t = c.ticks) : Since log tick d := by
  obtain ⟨hle, new, hnew, hd⟩ := h
  refine ⟨hle.trans ht, es ++ new, by rw [hl, hnew, List.append_assoc], fun p t hm ↦ ?_⟩
  rcases List.mem_append.mp hm with hm | hm
  · rw [hes p t hm]
    exact hle
  · exact hd p t hm

theorem Move.since {log : List Event} {tick : ℕ} (h : Move True kind (x, a) (y, b))
    (hs : Since log tick a.toCore) (hlim : a.ticks < TICK_LIMIT) : Since log tick b.toCore := by
  cases h with
  | sched h =>
    cases h with
    | tick ht =>
      refine hs.append ?_ [] rfl (by simp)
      have hmod : (a.ticks + 1) % 2 ^ 32 = a.ticks + 1 := by
        have hlimit : TICK_LIMIT = 2 ^ 31 - 2000 := rfl
        omega
      simp only [hmod]
      omega
    | touch | block | fault => exact hs.append le_rfl [] rfl (by simp)
    | wake | idle | dispatch | kill | killNone => exact hs.append le_rfl [_] rfl (by simp)
    | yield => exact hs.append le_rfl [_, _] rfl (by simp)
  | fork h =>
    cases h with
    | kstack | copyuvm | parent | pid | nice => exact hs.append le_rfl [] rfl (by simp)
    | userinit | noSlot | nicefork | giveUp | deadline => exact hs.append le_rfl [_] rfl (by simp)
    | userinitRun | fork => exact hs.append le_rfl [_, _] rfl (by simp)
  | exit h =>
    cases h with
    | exit | leave | adopt | adopted | gone => exact hs.append le_rfl [] rfl (by simp)
    | zombie | reap | noChild => exact hs.append le_rfl [_] rfl (by simp)
theorem lastStamp_append {new old : List Event} {t : ℕ}
    (h : lastStamp p (new ++ old) = some t) : .deadline p t ∈ new ∨
      (∀ t', .deadline p t' ∉ new) ∧ ∀ pid, .alloc p pid ∉ new := by
  induction new with
  | nil => simp
  | cons e new ih =>
    rw [List.cons_append, lastStamp_cons] at h
    cases e with
    | deadline q t' =>
      by_cases hq : q = p
      · simp_all
      · have := ih (by simpa [hq] using h)
        simp_all [eq_comm]
    | alloc q pid =>
      by_cases hq : q = p
      · simp [hq] at h
      · have := ih (by simpa [hq] using h)
        simp_all [eq_comm]
    | _ => simpa using ih h

def ShortRun (l : List (Op × Env)) (s : Kernel) : Prop :=
  Meets Kernel.step (fun act s ↦ act.1.Short s.toCore) l s

theorem ShortRun.meets {l : List (Op × Env)} {s : Kernel} (h : ShortRun l s) :
    Meets Kernel.step (Op.Meets True False) l s :=
  Meets.mono h (fun _ _ hs ↦ ⟨fun _ ↦ hs, False.elim⟩)

theorem StampInv.selected {c : Core} (h : StampInv c) (hp : c.Earliest p)
    (hq : (c.proc q).state = .RUNNABLE) (hne : q ≠ p) :
    ∃ t, lastStamp p c.log = some t ∧ c.deadline p = computevd (c.proc p).nice t ∧
      t + BFS_DEFAULT_QUANTUM ≤ c.deadline q := by
  obtain ⟨hn, t, hl, hv, ht⟩ := h.alive p (.inr (.inl hp.1))
  have hle : c.deadline p ≤ c.deadline q := by
    rcases hp.2 q hq hne with hlt | heq
    · exact hlt.le
    · exact heq.1.le
  have hvd := computevd_of_lt hn (ht.trans_lt h.limit)
  have hoff := (offset_bounds hn).1
  refine ⟨t, hl, hv, ?_⟩
  rw [Core.deadline, hv, hvd] at hle
  omega

/-- A process is dispatched before one that waits only if its deadline was computed a
quantum before that of the other one, so that nobody who yields or is created after that
comes first. -/
theorem bounded_bypass {seed : BitVec 32} {l₀ l : List (Op × Env)} {s₀ s : Kernel}
    (h₀ : exec Kernel.step l₀ (boot seed) = .ok s₀) (h : exec Kernel.step l s₀ = .ok s)
    (hshort : ShortRun (l₀ ++ l) (boot seed)) (hp : s.Selects p)
    (hq : (s.proc q).state = .RUNNABLE) (hne : q ≠ p) :
    (∃ t, lastStamp p s.log = some t ∧ s.deadline p = computevd (s.proc p).nice t ∧
      t + BFS_DEFAULT_QUANTUM ≤ s.deadline q) ∧
    (s.deadline q - BFS_DEFAULT_QUANTUM < s₀.ticks → ∃ new, s.log = new ++ s₀.log ∧
      (∀ t, .deadline p t ∉ new) ∧ ∀ pid, .alloc p pid ∉ new) := by
  obtain ⟨hs₀, hs⟩ := Meets.append hshort.meets h₀
  have hsince : Tracks (fun xa ↦ StampInv xa.2.toCore ∧ Since s₀.log s₀.ticks xa.2.toCore) s := by
    obtain ⟨a, hag, hi, hst⟩ := Tracks.run (I := fun xa ↦ StampInv xa.2.toCore) Move.stampInv
      (boot_tracks boot_stampInv seed) hs₀ h₀
    refine Tracks.run (fun hm hi hI ↦ ⟨hm.stampInv hi hI.1, hm.since hI.2 hI.1.limit⟩)
      ⟨a, hag, hi, hst, ?_⟩ hs h
    rw [hag.1]
    exact ⟨le_rfl, [], rfl, by simp⟩
  obtain ⟨a, ⟨hcore, -⟩, -, hst, hsince⟩ := hsince
  have hreach : Reachable s := ⟨seed, l₀ ++ l, by rw [exec_append, h₀, ok_bind, h]⟩
  rw [← hcore] at hst hsince
  obtain ⟨t, hl, hv, hle⟩ := hst.selected (hreach.earliest hp) hq hne
  refine ⟨⟨t, hl, hv, hle⟩, fun hd ↦ ?_⟩
  obtain ⟨-, new, hnew, hstamps⟩ := hsince
  refine ⟨new, hnew, ?_⟩
  rw [hnew] at hl
  refine (lastStamp_append hl).resolve_left (fun hm ↦ ?_)
  have := hstamps p t hm
  omega

/-- Two children are created at tick 0. At tick 1 the one created first waits, and init
yields. -/
theorem bounded_bypass_twins : ∃ s₀ s : Kernel, s.deadline 1 - BFS_DEFAULT_QUANTUM < s₀.ticks ∧
    s.Selects 2 ∧ (s.proc 1).state = .RUNNABLE ∧
    (∃ t, lastStamp 2 s.log = some t ∧ s.deadline 2 = computevd (s.proc 2).nice t ∧
      t + BFS_DEFAULT_QUANTUM ≤ s.deadline 1) ∧
    ∃ new, s.log = new ++ s₀.log ∧ (∀ t, .deadline 2 t ∉ new) ∧ ∀ pid, .alloc 2 pid ∉ new := by
  let l₀ := withRandom (startOps ++ forkOps (-20) ++ forkOps (-20) ++ [.timer false])
  have hrun : Ensures (fun s₀ ↦ s₀.ticks = 1 ∧ Ensures (fun s ↦ s.phase = .running ∧
      s.cpuProc = none ∧ s.queue.first = .ok (some 2) ∧ (s.proc 1).state = .RUNNABLE ∧
      s.deadline 1 = 50) (fun _ ↦ False) (exec Kernel.step (withRandom [.yield]) s₀))
      (fun _ ↦ False) (exec Kernel.step l₀ (boot SEED)) := by decide +kernel
  have hshort : ShortRun (l₀ ++ withRandom [.yield]) (boot SEED) := by
    unfold ShortRun
    decide +kernel
  obtain ⟨s₀, h₀, ht, hrun⟩ := hrun.exists_ok
  obtain ⟨s, h, hph, hc, hf, h1, hd⟩ := hrun.exists_ok
  have hp : s.Selects 2 := ⟨hph, hc, hf⟩
  have hlt : s.deadline 1 - BFS_DEFAULT_QUANTUM < s₀.ticks := by
    rw [hd, ht]
    decide
  have hb := bounded_bypass h₀ h hshort hp h1 (by decide)
  exact ⟨s₀, s, hlt, hp, h1, hb.1, hb.2 hlt⟩

end Xv6Bfs.Sched

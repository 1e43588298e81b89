import Xv6Bfs.Locks.Spinlock

namespace Xv6Bfs.Locks.Spinlock

open Lib.Execution Function

namespace Cpu

variable {c : Cpu} {eflags : Bool}

theorem pushcliFrom_eq : c.pushcliFrom eflags =
    ⟨c.ncli + 1, if c.ncli = 0 then eflags else c.intena, false⟩ := by
  rw [pushcliFrom]
  dsimp only
  split <;> rfl

theorem popcli_eq (hfl : c.fl = false) (hncli : 0 < c.ncli) :
    c.popcli = .ok ⟨c.ncli - 1, c.intena, decide (c.ncli = 1) && c.intena⟩ := by
  rw [popcli, hfl, if_neg Bool.false_ne_true]
  dsimp only
  rw [if_neg (by omega)]
  by_cases hone : c.ncli = 1
  · cases c.intena <;> simp [hone]
  · have hne : ¬ (c.ncli - 1 = 0 ∧ c.intena = true) := fun h ↦ hone (by omega)
    rw [if_neg hne, decide_eq_false hone, Bool.false_and]

theorem popcli_pushcli (hncli : 0 ≤ c.ncli) (hfl : 0 < c.ncli → c.fl = false) :
    c.pushcli.popcli = .ok ⟨c.ncli, if c.ncli = 0 then c.fl else c.intena, c.fl⟩ := by
  rw [pushcli, pushcliFrom_eq, popcli_eq rfl (show 0 < c.ncli + 1 by omega)]
  dsimp only
  rw [Int.add_sub_cancel]
  by_cases hzero : c.ncli = 0
  · simp [hzero]
  · have hone : ¬ c.ncli + 1 = 1 := by omega
    rw [if_neg hzero, decide_eq_false hone, Bool.false_and, hfl (by omega)]

end Cpu

variable {T L : Type}

/-- What holds between any two steps. The depth is the number of locks, and the flag to be restored is
in the processor for the thread that runs, and in the variable of `sched` for the others. -/
structure Inv (s : State T L) : Prop where
  ncli : s.cpu.ncli = s.locks.card
  off : s.locks.Nonempty → s.cpu.fl = false
  reads : ∀ c eflags, s.me.pending = some (c, eflags) → eflags = s.cpu.fl
  frames : ∀ x, ∀ pending ∈ (s.thread x).frames, ∀ c eflags, pending = some (c, eflags) → eflags = true
  others : ∀ x, x ≠ s.running → (s.thread x).pending = none
  entry : ∀ fl, s.running ≠ none → s.me.entry = some fl → s.locks.Nonempty ∧ s.cpu.intena = fl
  saved : ∀ t fl, s.running ≠ some t → (s.thread (some t)).entry = some fl →
    (s.thread (some t)).saved = some fl

/-- The panics of `acquire` and `release` for a lock that is held or not, of `sched` without
`ptable.lock` and for a process that still runs. -/
def Misuse (e : Panic) : Prop :=
  e = .acquire ∨ e = .release ∨ e = .schedPtable ∨ e = .schedRunning

namespace Inv

section

variable {s : State T L}

theorem ncli_nonneg (h : Inv s) : 0 ≤ s.cpu.ncli := by
  rw [h.ncli]
  exact Int.natCast_nonneg _

theorem ncli_pos (h : Inv s) : 0 < s.cpu.ncli ↔ s.locks.Nonempty := by
  rw [h.ncli, Int.natCast_pos, Finset.card_pos]

theorem ncli_eq_zero (h : Inv s) : s.cpu.ncli = 0 ↔ s.locks = ∅ := by
  rw [h.ncli, Int.natCast_eq_zero, Finset.card_eq_zero]

theorem holding (h : Inv s) : s.cpu.pushcli.popcli =
    .ok ⟨s.cpu.ncli, if s.cpu.ncli = 0 then s.cpu.fl else s.cpu.intena, s.cpu.fl⟩ :=
  Cpu.popcli_pushcli h.ncli_nonneg fun hpos ↦ h.off (h.ncli_pos.mp hpos)

theorem holding_held (h : Inv s) (hlocks : s.locks.Nonempty) : s.cpu.pushcli.popcli = .ok s.cpu := by
  have hpos := h.ncli_pos.mpr hlocks
  rw [h.holding, if_neg (by omega)]

theorem me_frames (h : Inv s) : ∀ pending ∈ s.me.frames, ∀ c eflags,
    pending = some (c, eflags) → eflags = true := h.frames s.running

end

variable [DecidableEq T] {s : State T L} {cpu : Cpu} {locks : Finset L} {th : Thread L}

theorem put (h : Inv s) (hncli : cpu.ncli = locks.card) (hoff : locks.Nonempty → cpu.fl = false)
    (hreads : ∀ c eflags, th.pending = some (c, eflags) → eflags = cpu.fl)
    (hframes : ∀ pending ∈ th.frames, ∀ c eflags, pending = some (c, eflags) → eflags = true)
    (hentry : ∀ fl, s.running ≠ none → th.entry = some fl → locks.Nonempty ∧ cpu.intena = fl) :
    Inv (s.put cpu locks th) := by
  have hme : (s.put cpu locks th).me = th := update_self _ _ _
  have hother {x : Option T} (hx : x ≠ s.running) : (s.put cpu locks th).thread x = s.thread x :=
    update_of_ne hx _ _
  refine ⟨hncli, hoff, fun c e he ↦ ?_, fun x ↦ ?_, fun x hx ↦ ?_, fun fl hrun he ↦ ?_,
    fun t fl ht he ↦ ?_⟩
  · rw [hme] at he
    exact hreads c e he
  · by_cases hx : x = s.running
    · rw [hx, show (s.put cpu locks th).thread s.running = th from hme]
      exact hframes
    · rw [hother hx]
      exact h.frames x
  · rw [hother hx]
    exact h.others x hx
  · rw [hme] at he
    exact hentry fl hrun he
  · rw [hother (fun hx ↦ ht hx.symm)] at he ⊢
    exact h.saved t fl ht he

theorem put_locks (h : Inv s) (hncli : cpu.ncli = s.cpu.ncli) (hoff : s.locks.Nonempty → cpu.fl = false)
    (hintena : s.locks.Nonempty → cpu.intena = s.cpu.intena)
    (hreads : ∀ c eflags, th.pending = some (c, eflags) → eflags = cpu.fl)
    (hframes : ∀ pending ∈ th.frames, ∀ c eflags, pending = some (c, eflags) → eflags = true)
    (hentry : th.entry = s.me.entry) : Inv (s.put cpu s.locks th) := by
  refine h.put (hncli.trans h.ncli) hoff hreads hframes fun fl hrun he ↦ ?_
  obtain ⟨hlocks, hfl⟩ := h.entry fl hrun (hentry ▸ he)
  exact ⟨hlocks, (hintena hlocks).trans hfl⟩

theorem myproc (h : Inv s) (eflags : Bool) :
    ∃ s', s.myproc eflags = .ok s' ∧ Inv s' := by
  have hncli := h.ncli_nonneg
  rw [State.myproc, Cpu.pushcliFrom_eq, Cpu.popcli_eq rfl (show 0 < s.cpu.ncli + 1 by omega), ok_bind]
  have hone (hlocks : s.locks.Nonempty) : 0 < s.cpu.ncli := h.ncli_pos.mpr hlocks
  refine ⟨_, rfl, h.put_locks (Int.add_sub_cancel _ _) (fun hlocks ↦ ?_) (fun hlocks ↦ ?_) nofun
    h.me_frames rfl⟩
  · have hpos := hone hlocks
    dsimp only
    rw [decide_eq_false (by omega), Bool.false_and]
  · have hpos := hone hlocks
    exact if_neg (by omega)

theorem leave (h : Inv s) (hpending : s.me.pending = none) (hrun : s.running ≠ none)
    (hp : th.pending = s.me.pending) (hf : th.frames = s.me.frames) (he : th.entry = s.me.entry)
    (hs : th.saved = some s.cpu.intena) :
    Inv (⟨s.cpu, s.locks, none, update s.thread s.running th⟩ : State T L) := by
  have hother {x : Option T} (hx : x ≠ s.running) : update s.thread s.running th x = s.thread x :=
    update_of_ne hx _ _
  refine ⟨h.ncli, h.off, fun c e hread ↦ ?_, fun x ↦ ?_, fun x hx ↦ ?_, fun fl hno ↦ absurd rfl hno,
    fun t fl _ hentry ↦ ?_⟩
  · dsimp only [State.me] at hread
    rw [hother hrun.symm, h.others none hrun.symm] at hread
    cases hread
  · dsimp only
    by_cases hx : x = s.running
    · rw [hx, update_self, hf]
      exact h.me_frames
    · rw [hother hx]
      exact h.frames x
  · dsimp only
    by_cases hx : x = s.running
    · rw [hx, update_self, hp, hpending]
    · rw [hother hx]
      exact h.others x hx
  · dsimp only at hentry ⊢
    by_cases ht : some t = s.running
    · rw [ht, update_self] at hentry ⊢
      rw [hs, (h.entry fl hrun (he ▸ hentry)).2]
    · rw [hother ht] at hentry ⊢
      exact h.saved t fl (Ne.symm ht) hentry

theorem enter {t : T} (h : Inv s) (hpending : s.me.pending = none) (hrun : s.running = none)
    (hlocks : s.locks.Nonempty) (hp : th.pending = (s.thread (some t)).pending)
    (hf : th.frames = (s.thread (some t)).frames) (he : th.entry = (s.thread (some t)).entry)
    (hncli : cpu.ncli = s.cpu.ncli) (hfl : cpu.fl = s.cpu.fl)
    (hintena : ∀ fl, (s.thread (some t)).saved = some fl → cpu.intena = fl) :
    Inv ⟨cpu, s.locks, some t, update s.thread (some t) th⟩ := by
  have hout (x : T) : s.running ≠ some x := by rw [hrun]; exact (Option.some_ne_none x).symm
  have hother {x : Option T} (hx : x ≠ some t) : update s.thread (some t) th x = s.thread x :=
    update_of_ne hx _ _
  refine ⟨hncli.trans h.ncli, fun hl ↦ hfl.trans (h.off hl), fun c e hread ↦ ?_, fun x ↦ ?_,
    fun x hx ↦ ?_, fun fl _ hentry ↦ ⟨hlocks, ?_⟩, fun t' fl ht hentry ↦ ?_⟩
  · dsimp only [State.me] at hread
    rw [update_self, hp, h.others (some t) (hout t).symm] at hread
    cases hread
  · dsimp only
    by_cases hx : x = some t
    · rw [hx, update_self, hf]
      exact h.frames (some t)
    · rw [hother hx]
      exact h.frames x
  · dsimp only at hx ⊢
    rw [hother hx]
    by_cases hx' : x = s.running
    · rw [hx']
      exact hpending
    · exact h.others x hx'
  · dsimp only [State.me] at hentry
    rw [update_self, he] at hentry
    exact hintena fl (h.saved t fl (hout t) hentry)
  · dsimp only at hentry ⊢
    rw [hother (Ne.symm ht)] at hentry ⊢
    exact h.saved t' fl (hout t') hentry

theorem swtch {t : T} {ptable : L} (h : Inv s) (ha : Allowed ptable (.swtch t) s) : Inv (s.swtch t) := by
  obtain ⟨hpending, hrun, hlocks⟩ := ha
  refine h.enter hpending hrun ?_ rfl rfl rfl rfl rfl fun fl hsaved ↦ ?_
  · rw [hlocks]
    exact Finset.singleton_nonempty ptable
  · dsimp only
    rw [hsaved]
    rfl

variable [DecidableEq L] {l ptable : L}

theorem acquire (h : Inv s) (eflags : Bool) : Ensures Inv Misuse (s.acquire l eflags) := by
  have hncli := h.ncli_nonneg
  rw [State.acquire]
  dsimp only
  rw [Cpu.pushcliFrom_eq, Cpu.popcli_pushcli (show 0 ≤ s.cpu.ncli + 1 by omega) (fun _ ↦ rfl), ok_bind]
  split
  · exact .inl rfl
  · rename_i hl
    dsimp only
    rw [if_neg (show ¬ s.cpu.ncli + 1 = 0 by omega)]
    refine h.put ?_ (fun _ ↦ rfl) nofun h.me_frames fun fl hrun hentry ↦ ⟨Finset.insert_nonempty _ _, ?_⟩
    · rw [Finset.card_insert_of_notMem hl, Int.natCast_succ, ← h.ncli]
    · dsimp only at hentry ⊢
      by_cases hempty : s.locks = ∅
      · rw [if_pos hempty] at hentry
        rw [if_pos (h.ncli_eq_zero.mpr hempty)]
        exact Option.some.inj hentry
      · rw [if_neg hempty] at hentry
        rw [if_neg (mt h.ncli_eq_zero.mp hempty)]
        exact (h.entry fl hrun hentry).2

theorem release_eq (h : Inv s) (hl : l ∈ s.locks) : s.release l =
    .ok (s.put ⟨s.cpu.ncli - 1, s.cpu.intena, decide (s.cpu.ncli = 1) && s.cpu.intena⟩ (s.locks.erase l)
      { s.me with entry := if s.locks.erase l = ∅ then none else s.me.entry }) := by
  have hpos := h.ncli_pos.mpr ⟨l, hl⟩
  rw [State.release, h.holding, ok_bind, if_neg (not_not.mpr hl), if_neg (by omega),
    Cpu.popcli_eq (h.off ⟨l, hl⟩) hpos, ok_bind]

theorem release (h : Inv s) (hpending : s.me.pending = none) : Ensures Inv Misuse (s.release l) := by
  by_cases hl : l ∈ s.locks
  · have hcard := Finset.card_erase_add_one hl
    have hncli := h.ncli
    rw [h.release_eq hl]
    refine h.put ?_ (fun hlocks ↦ ?_) (fun c e he ↦ ?_) h.me_frames (fun fl hrun hentry ↦ ?_)
    · dsimp only
      omega
    · have hlen := hlocks.card_pos
      dsimp only
      rw [decide_eq_false (by omega), Bool.false_and]
    · rw [hpending] at he
      cases he
    · dsimp only at hentry ⊢
      split at hentry
      · cases hentry
      · rename_i hne
        exact ⟨Finset.nonempty_iff_ne_empty.mpr hne, (h.entry fl hrun hentry).2⟩
  · rw [State.release, h.holding, ok_bind, if_pos hl]
    exact .inr (.inl rfl)

theorem sched (h : Inv s) {isRunning : Bool} (ha : Allowed ptable (.sched isRunning) s) :
    Ensures Inv Misuse (s.sched ptable isRunning) := by
  obtain ⟨hpending, hrun, hcard⟩ := ha
  have hlocks : s.locks.Nonempty := Finset.card_pos.mp (by omega)
  have hncli : s.cpu.ncli = 1 := by rw [h.ncli, hcard]; rfl
  rw [State.sched, h.holding_held hlocks, ok_bind, h.holding_held hlocks, ok_bind]
  split
  · exact .inr (.inr (.inl rfl))
  rw [h.off hlocks, if_neg Bool.false_ne_true, if_neg (not_not.mpr hncli)]
  split
  · exact .inr (.inr (.inr rfl))
  rw [if_neg Bool.false_ne_true]
  exact h.leave hpending hrun rfl rfl rfl rfl

theorem step (h : Inv s) {a : Action T L} (ha : Allowed ptable a s) :
    Ensures Inv Misuse (step ptable a s) := by
  cases a with
  | readeflags c =>
    refine h.put_locks rfl h.off (fun _ ↦ rfl) (fun c' e he ↦ ?_) h.me_frames rfl
    cases he
    rfl
  | proceed =>
    rw [Spinlock.step]
    split
    · exact h
    · exact h.acquire _
    · obtain ⟨s', hs, hinv⟩ := h.myproc _
      rw [hs]
      exact hinv
  | release l => exact h.release ha
  | sched isRunning => exact h.sched ha
  | swtch t => exact h.swtch ha
  | setfl fl =>
    obtain ⟨hpending, hlocks⟩ := ha
    have hno (hl : s.locks.Nonempty) : False := Finset.not_nonempty_empty (hlocks ▸ hl)
    refine ⟨h.ncli, fun hl ↦ (hno hl).elim, fun c e he ↦ ?_, h.frames, h.others, h.entry, h.saved⟩
    cases hpending.symm.trans he
  | interrupt =>
    rw [Spinlock.step]
    split
    · rename_i hfl
      refine h.put_locks rfl (fun _ ↦ rfl) (fun _ ↦ rfl) nofun (fun pending hp c e he ↦ ?_) rfl
      rcases List.mem_cons.mp hp with rfl | hp
      · exact (h.reads c e he).trans hfl
      · exact h.me_frames pending hp c e he
    · exact h
  | iret =>
    obtain ⟨hpending, hlocks⟩ := ha
    have hno (hl : s.locks.Nonempty) : False := Finset.not_nonempty_empty (hlocks ▸ hl)
    rw [Spinlock.step]
    split
    · exact h
    · rename_i pending frames hframes
      have hf := h.me_frames
      rw [hframes] at hf
      refine h.put_locks rfl (fun hl ↦ (hno hl).elim) (fun _ ↦ rfl) (fun c e he ↦ ?_) (fun p hp ↦ ?_) rfl
      · exact hf pending List.mem_cons_self c e he
      · exact hf p (List.mem_cons_of_mem _ hp)

end Inv

theorem boot_inv (intena fl : Bool) : Inv (boot intena fl : State T L) where
  ncli := rfl
  off := fun h ↦ absurd h Finset.not_nonempty_empty
  reads := nofun
  frames := fun _ _ h ↦ absurd h List.not_mem_nil
  others := fun _ _ ↦ rfl
  entry := nofun
  saved := nofun

variable [DecidableEq T] [DecidableEq L]

theorem run_inv {ptable : L} {run : List (Action T L)} {s : State T L} (h : Inv s)
    (hm : Meets (step ptable) (Allowed ptable) run s) :
    Ensures Inv Misuse (exec (step ptable) run s) := by
  induction run generalizing s with
  | nil => exact h
  | cons a run ih =>
    obtain ⟨ha, hrest⟩ := hm
    have hstep := h.step ha
    rw [exec_cons]
    cases hs : step ptable a s with
    | error e => exact hstep.of_error hs
    | ok s' => exact ih (hstep.of_ok hs) (hrest s' hs)

/-- In every run of threads on one processor interrupts are off while there is a lock, a thread that
gives back its last lock has the flag that it had at its outermost `acquire`, and `popcli` and `sched`
do not panic over the depth or the flag. -/
theorem interrupts_restored {ptable : L} {intena fl : Bool} {run : List (Action T L)}
    (hm : Meets (step ptable) (Allowed ptable) run (boot intena fl)) :
    (∀ s, exec (step ptable) run (boot intena fl) = .ok s →
      (∀ l ∈ s.locks, s.cpu.fl = false) ∧
      (∀ c eflags, s.me.pending = some (c, eflags) → eflags = s.cpu.fl) ∧
      ∀ t l fl, s.running = some t → s.locks = {l} → s.me.entry = some fl →
        ∃ s', step ptable (.release l) s = .ok s' ∧ s'.locks = ∅ ∧ s'.cpu.fl = fl) ∧
    ∀ e, exec (step ptable) run (boot intena fl) = .error e →
      e ≠ .popcli ∧ e ≠ .popcliInterruptible ∧ e ≠ .schedLocks ∧ e ≠ .schedInterruptible := by
  have hinv := run_inv (boot_inv intena fl) hm
  refine ⟨fun s hs ↦ ?_, fun e he ↦ ?_⟩
  · have h := hinv.of_ok hs
    refine ⟨fun l hl ↦ h.off ⟨l, hl⟩, h.reads, fun t l fl hrun hlocks hentry ↦ ?_⟩
    have hne : s.running ≠ none := by rw [hrun]; exact Option.some_ne_none t
    have hone : s.cpu.ncli = 1 := by rw [h.ncli, hlocks]; rfl
    refine ⟨_, h.release_eq (by rw [hlocks]; exact Finset.mem_singleton_self l), ?_, ?_⟩
    · rw [hlocks]
      exact Finset.erase_singleton l
    · simp only [State.put]
      rw [hone, (h.entry fl hne hentry).2]
      exact Bool.true_and fl
  · rcases hinv.of_error he with rfl | rfl | rfl | rfl <;> decide

def acquires (l : ℕ) : List (Action ℕ ℕ) := [.readeflags (.acquire l), .proceed]

/-- A turn of the scheduler up to its `swtch`, where 0 is `ptable.lock`. -/
def schedules (t : ℕ) : List (Action ℕ ℕ) := .setfl true :: acquires 0 ++ [.swtch t]

/-- A process is interrupted within `acquire` and goes to sleep with its lock, and another one runs
without interrupts before it wakes up. -/
def sleepRun : List (Action ℕ ℕ) :=
  schedules 0 ++ [.release 0, .readeflags (.acquire 1), .interrupt] ++ acquires 2 ++
    [.release 2, .iret, .proceed] ++ acquires 0 ++ [.release 1, .sched false, .release 0] ++
    schedules 1 ++ [.release 0, .setfl false] ++ acquires 0 ++ [.sched false, .release 0] ++ schedules 0

theorem interrupts_restored_sleep : ∃ s s', exec (step 0) sleepRun (boot false false) = .ok s ∧
    step 0 (.release 0) s = .ok s' ∧ s'.locks = ∅ ∧ s'.cpu.fl = true := by
  have hm : Meets (step 0) (Allowed 0) sleepRun (boot false false) := by decide +kernel
  have hend : ∃ s, exec (step 0) sleepRun (boot false false) = .ok s ∧
      s.running = some 0 ∧ s.locks = {0} ∧ s.me.entry = some true :=
    Ensures.exists_ok (by decide +kernel)
  obtain ⟨s, hs, hrun, hlocks, hentry⟩ := hend
  obtain ⟨-, -, hrelease⟩ := (interrupts_restored hm).1 s hs
  obtain ⟨s', hs', hempty, hfl⟩ := hrelease 0 0 true hrun hlocks hentry
  exact ⟨s, s', hs, hs', hempty, hfl⟩

end Xv6Bfs.Locks.Spinlock

import Xv6Bfs.Sched.Safety

namespace Xv6Bfs.Sched

open Lib.Execution

/-- What a system call finds of its process: the saved stack pointer, `sz` and the memory. -/
structure User where
  esp : BitVec 32
  sz : BitVec 32
  mem : BitVec 32 → BitVec 8

namespace User

def readInt (u : User) (addr : BitVec 32) : ℤ :=
  (u.mem (addr + 3) ++ u.mem (addr + 2) ++ u.mem (addr + 1) ++ u.mem addr).toInt

/-- The return value, and what `*ip` holds afterwards. -/
def fetchint (u : User) (addr : BitVec 32) (ip : ℤ) : ℤ × ℤ :=
  if u.sz ≤ addr ∨ u.sz < addr + 4 then (-1, ip) else (0, u.readInt addr)

def argint (u : User) (n : BitVec 32) (ip : ℤ) : ℤ × ℤ := u.fetchint (u.esp + 4 + 4 * n) ip

def arg? (u : User) : Option ℤ := if (u.argint 0 0).1 < 0 then none else some (u.argint 0 0).2

theorem argint_zero (u : User) (ip : ℤ) :
    u.argint 0 ip = match u.arg? with
      | none => (-1, ip)
      | some n => (0, n) := by
  simp only [arg?, argint, fetchint]
  split <;> rfl

end User

namespace Machine

variable {Q : Type} {s : Machine Q} {p : ProcId}

def niceforkReject (p : ProcId) (s : Machine Q) : Machine Q :=
  s.on (fun c ↦ c.emit (.niceforkRet (c.proc p).pid (-1)))

/-- The local variable `n` holds `n₀` before anything is stored in it. -/
def sysNicefork (u : User) (n₀ : ℤ) (p : ProcId) (s : Machine Q) : Except Stop (Machine Q) :=
  let (r, n) := u.argint 0 n₀
  if r < NICE_FIRST_LEVEL then .ok (s.niceforkReject p)
  else
    let (r, n) := u.argint 0 n
    if r > NICE_LAST_LEVEL then .ok (s.niceforkReject p) else s.nicefork n p

theorem sysNicefork_eq (u : User) (n₀ : ℤ) (p : ProcId) (s : Machine Q) :
    s.sysNicefork u n₀ p = s.nicefork (u.arg?.getD n₀) p := by
  simp only [sysNicefork, u.argint_zero]
  cases u.arg? with
  | none | some =>
    dsimp only
    rw [if_neg (by decide), if_neg (by decide)]
    rfl

theorem nicefork_invalid {n : ℤ} (hn : ¬ ValidNice n) :
    s.nicefork n p = .error (.panic .invalidNice) := if_neg hn

theorem nicefork_reject_iff {n : ℤ} : s.nicefork n p = .ok (s.niceforkReject p) ↔
    ValidNice n ∧ s.unusedSlot = none := by
  unfold Machine.nicefork
  split
  · rename_i hn
    cases hslot : s.unusedSlot with
    | none => simp [hn, niceforkReject]
    | some np =>
      simp only [hn, reduceCtorEq, and_false, iff_false, Except.ok.injEq]
      intro he
      have hlog := congrArg (fun t : Machine Q ↦ t.log) he
      simp [allocproc, niceforkReject] at hlog
  · rename_i hn
    simp [hn]

theorem nicefork_no_panic {n : ℤ} (hn : ValidNice n) : ∃ s', s.nicefork n p = .ok s' := by
  unfold Machine.nicefork
  rw [if_pos hn]
  cases s.unusedSlot with
  | none => exact ⟨_, rfl⟩
  | some np => exact ⟨_, rfl⟩

end Machine

/-- What `sys_nicefork` is to do: -1 and no change for an argument that cannot be fetched or
is out of range, `nicefork` for any other. -/
def Machine.Validates {Q : Type} (u : User) (n₀ : ℤ) (p : ProcId) (s : Machine Q) : Prop :=
  match u.arg? with
  | none => s.sysNicefork u n₀ p = .ok (s.niceforkReject p)
  | some n =>
    if ValidNice n then s.sysNicefork u n₀ p = s.nicefork n p
    else s.sysNicefork u n₀ p = .ok (s.niceforkReject p)

theorem Machine.validates_iff {Q : Type} (u : User) (n₀ : ℤ) (p : ProcId) (s : Machine Q) :
    s.Validates u n₀ p ↔ match u.arg? with
      | none => ValidNice n₀ ∧ s.unusedSlot = none
      | some n => ValidNice n := by
  unfold Machine.Validates
  rw [Machine.sysNicefork_eq]
  cases u.arg? with
  | none => exact Machine.nicefork_reject_iff
  | some n =>
    by_cases hn : ValidNice n
    · simp [hn]
    · simp [hn, Machine.nicefork_invalid hn]

@[grind]
def Stage.Niced : Stage → Prop
  | .deadline _ | .insert _ => True
  | _ => False

/-- The child of a call of `nicefork` has the nice value of the call, and its deadline
once that has been computed. -/
def Priced (c : Core) : Prop := ∀ p np n st, c.thread p = .nicefork np n st →
  (st.Niced → (c.proc np).nice = n) ∧
  ∀ pid, st = .insert pid → ∃ t, lastStamp np c.log = some t ∧
    (c.proc np).virtDeadline = computevd n t

theorem Priced.frame {c d : Core} (h : Priced c)
    (hth : ∀ p np n st, d.thread p = .nicefork np n st → st.Niced →
      c.thread p = .nicefork np n st ∧ (d.proc np).nice = (c.proc np).nice ∧
      (d.proc np).virtDeadline = (c.proc np).virtDeadline ∧
      lastStamp np d.log = lastStamp np c.log) : Priced d := by
  intro p np n st ht
  by_cases hst : st.Niced
  · obtain ⟨ht', hnice, hdead, htick⟩ := hth p np n st ht hst
    rw [hnice, hdead, htick]
    exact h p np n st ht'
  · exact ⟨fun hc ↦ absurd hc hst, fun pid hpid ↦ absurd (by rw [hpid]; trivial) hst⟩

theorem Move.priced {x y : Flux} {a b : EdfKernel} (h : Move False False (x, a) (y, b))
    (hi : Inv x a) (hp : Priced a.toCore) : Priced b.toCore := by
  have hfork := hi.thread.fork
  have howner := hi.thread.owner
  cases h with
  | sched h => cases h <;> exact hp.frame (by grind)
  | fork h =>
    cases h with
    | userinitRun p hph =>
      have hboot := hi.thread.boot (by simp [hph])
      exact hp.frame (by grind)
    | userinit | noSlot | nicefork | giveUp | kstack | copyuvm | parent | pid | fork =>
      exact hp.frame (by grind)
    | nice c np hc ht =>
      intro p np n st
      have := hp p np n st
      grind
    | deadline c np hc ht =>
      intro p np n st
      have := hp p np n st
      have := hp c np
      grind
  | exit h => cases h <;> exact hp.frame (by grind)

theorem Reachable.priced {s : Kernel} (h : Reachable s) : Priced s.toCore := by
  obtain ⟨a, hag, -, hp⟩ := h.tracks (I := fun s ↦ Priced s.2.toCore)
    (fun hm hi hp ↦ Move.priced hm hi hp) (fun p np n st ht ↦ by cases ht)
  exact hag.1 ▸ hp

variable {s s' : Kernel} {p np : ProcId} {n pid : ℤ}

theorem Kernel.niceforkStep_insert {mem : Bool} {env : Env} (hc : s.cpuProc = some p)
    (ht : s.thread p = .nicefork np n (.insert pid))
    (he : Kernel.step (.niceforkStep mem, env) s = .ok s') :
    s'.proc = Function.update s.proc np { s.proc np with state := .RUNNABLE } ∧
    s'.log = .niceforkRet (s'.proc p).pid pid :: .inserted np :: s.log := by
  obtain ⟨q, hq, he⟩ := bind_eq_ok.mp he
  have hqp : q = p := by
    simp only [Core.current, hc] at hq
    split at hq
    · cases hq
      rfl
    · cases hq
  rw [hqp, ht] at he
  obtain ⟨s₁, h₁, he⟩ := bind_eq_ok.mp he
  obtain ⟨l, -, h₁⟩ := bind_eq_ok.mp h₁
  cases h₁
  cases he
  exact ⟨rfl, rfl⟩

/-- `sys_nicefork` compares the return value of `argint` with the range of nice values, so it
does what it is to do for an argument in that range, and otherwise only by luck. A call
that succeeds gives the child its nice value and the deadline that follows from it. -/
theorem sysNicefork_validates_iff (u : User) (n₀ : ℤ) (p : ProcId) (s : Kernel) :
    (s.Validates u n₀ p ↔ match u.arg? with
      | none => ValidNice n₀ ∧ s.unusedSlot = none
      | some n => ValidNice n) ∧
    (∀ n, u.arg? = some n → ValidNice n →
      s.sysNicefork u n₀ p = s.nicefork n p ∧ ∃ s', s.nicefork n p = .ok s') ∧
    ∀ (s₁ s₂ : Kernel) np n pid mem env, Reachable s₁ → s₁.cpuProc = some p →
      s₁.thread p = .nicefork np n (.insert pid) →
      Kernel.step (.niceforkStep mem, env) s₁ = .ok s₂ →
      s₂.log = .niceforkRet (s₂.proc p).pid pid :: .inserted np :: s₁.log ∧
      (s₂.proc np).nice = n ∧ ∃ t, lastStamp np s₁.log = some t ∧ (s₂.proc np).virtDeadline =
        int32 (t + (n - NICE_FIRST_LEVEL + 1) * BFS_DEFAULT_QUANTUM) := by
  refine ⟨Machine.validates_iff u n₀ p s, fun n hn hv ↦ ⟨?_, Machine.nicefork_no_panic hv⟩, ?_⟩
  · rw [Machine.sysNicefork_eq, hn]
    rfl
  · intro s₁ s₂ np n pid mem env hreach hc ht he
    obtain ⟨hproc, hlog⟩ := Kernel.niceforkStep_insert hc ht he
    obtain ⟨hnice, hdead⟩ := hreach.priced p np n _ ht
    obtain ⟨t, htick, hvd⟩ := hdead pid rfl
    refine ⟨hlog, ?_, t, htick, ?_⟩
    · rw [hproc, Function.update_self]
      exact hnice trivial
    · rw [hproc, Function.update_self]
      exact hvd

def oneArg (b : BitVec 8) : User := ⟨0, 4096, fun a ↦ if a = 4 then b else 0⟩

/-- The first process calls `nicefork(5)`. -/
theorem sysNicefork_validates_iff_five : ∃ s s₁ s₂ : Kernel, runOps startOps = .ok s ∧
    s.cpuProc = some 0 ∧ (oneArg 5).arg? = some 5 ∧ s.Validates (oneArg 5) 0 0 ∧
    runOps (startOps ++ .nicefork 5 :: List.replicate 6 (.niceforkStep true)) = .ok s₁ ∧
    Kernel.step (.niceforkStep true, ⟨some none, random⟩) s₁ = .ok s₂ ∧
    (s₂.proc 1).nice = 5 ∧ (s₂.proc 1).virtDeadline = 1300 := by
  have hstart : Ensures (fun s : Kernel ↦ s.cpuProc = some 0) (fun _ ↦ False) (runOps startOps) := by
    decide +kernel
  have hrun : Ensures (fun s : Kernel ↦ s.cpuProc = some 0 ∧ s.thread 0 = .nicefork 1 5 (.insert 2) ∧
      lastStamp 1 s.log = some 0 ∧ Ensures (fun _ ↦ True) (fun _ ↦ False)
        (Kernel.step (.niceforkStep true, ⟨some none, random⟩) s)) (fun _ ↦ False)
      (runOps (startOps ++ .nicefork 5 :: List.replicate 6 (.niceforkStep true))) := by decide +kernel
  have harg : (oneArg 5).arg? = some 5 := by decide
  obtain ⟨s, hs, hc⟩ := hstart.exists_ok
  obtain ⟨s₁, h₁, hc₁, hth, hstamp, hstep⟩ := hrun.exists_ok
  obtain ⟨s₂, h₂, -⟩ := hstep.exists_ok
  obtain ⟨hvalid, -, hchild⟩ := sysNicefork_validates_iff (oneArg 5) 0 0 s
  obtain ⟨-, hnice, t, ht, hdeadline⟩ :=
    hchild s₁ s₂ 1 5 2 true _ (runOps_reachable h₁) hc₁ hth h₂
  obtain rfl : 0 = t := Option.some.inj (hstamp.symm.trans ht)
  refine ⟨s, s₁, s₂, hs, hc, harg, hvalid.mpr ?_, h₁, h₂, hnice, hdeadline.trans (by decide)⟩
  rw [harg]
  exact (by decide : ValidNice 5)

/-- The nice value 20 takes the kernel down, and so can an argument outside the memory of
the process, for the value that `n` happens to hold. -/
theorem sysNicefork_twenty_panics : ∃ s : Kernel, Reachable s ∧ s.cpuProc = some 0 ∧
    (oneArg 20).arg? = some 20 ∧
    (∀ n₀, s.sysNicefork (oneArg 20) n₀ 0 = .error (.panic .invalidNice)) ∧
    (⟨0, 0, fun _ ↦ 0⟩ : User).arg? = none ∧
    s.sysNicefork ⟨0, 0, fun _ ↦ 0⟩ 100 0 = .error (.panic .invalidNice) := by
  obtain ⟨s, hs, hc⟩ : ∃ s, Reachable s ∧ s.cpuProc = some 0 :=
    exists_reachable startOps (by decide +kernel)
  have harg : (oneArg 20).arg? = some 20 := by decide
  have hnone : (⟨0, 0, fun _ ↦ 0⟩ : User).arg? = none := by decide
  refine ⟨s, hs, hc, harg, fun n₀ ↦ ?_, hnone, ?_⟩
  · rw [Machine.sysNicefork_eq, harg]
    exact Machine.nicefork_invalid (show ¬ ValidNice 20 by decide)
  · rw [Machine.sysNicefork_eq, hnone]
    exact Machine.nicefork_invalid (by decide)

end Xv6Bfs.Sched

import Xv6Bfs.Sched.Reachable

namespace Xv6Bfs.Sched

open Lib.Execution

variable {short kind : Prop} {x y : Flux} {a b : EdfKernel} {p q : ProcId}

@[grind]
def Stage.pid? : Stage → Option ℤ
  | .kstack | .copyuvm | .parent | .pid => none
  | .nice r | .deadline r | .insert r => some r

def PidCopied (c : Core) : Prop := ∀ p np n st pid, c.thread p = .nicefork np n st →
  st.pid? = some pid → (c.proc np).pid = pid

theorem PidCopied.frame {c d : Core} (h : PidCopied c)
    (hth : ∀ p np n st pid, d.thread p = .nicefork np n st → st.pid? = some pid →
      c.thread p = .nicefork np n st ∧ (d.proc np).pid = (c.proc np).pid) : PidCopied d :=
  fun p np n st pid ht hpid ↦
    have ⟨ht', he⟩ := hth p np n st pid ht hpid
    he.trans (h p np n st pid ht' hpid)

theorem Move.pidCopied (h : Move short kind (x, a) (y, b)) (hi : Inv x a)
    (hp : PidCopied a.toCore) : PidCopied b.toCore := by
  have hfork := hi.thread.fork
  cases h with
  | sched h => cases h <;> exact hp.frame (by grind)
  | fork h =>
    cases h with
    | userinit | userinitRun | noSlot | nicefork | giveUp | kstack | copyuvm | parent | fork =>
      exact hp.frame (by grind)
    | pid c np hc ht =>
      intro p np n st pid
      have := hp p np n st pid
      grind
    | nice c np | deadline c np =>
      intro p np n st pid
      have := hp p np n st pid
      have := hp c np
      grind
  | exit h => cases h <;> exact hp.frame (by grind)

def allocs : List Event → ℕ
  | [] => 0
  | .alloc _ _ :: log => allocs log + 1
  | _ :: log => allocs log

@[grind =] theorem allocs_cons (e : Event) (log : List Event) :
    allocs (e :: log) = match e with
      | .alloc _ _ => allocs log + 1
      | _ => allocs log := by
  cases e <;> rfl

structure PidInv (c : Core) : Prop where
  next : c.nextpid = int32 (allocs c.log + 1)
  range : ∀ p, 0 ≤ (c.proc p).pid ∧ (c.proc p).pid ≤ allocs c.log
  inj : ∀ p q, (c.proc p).pid = (c.proc q).pid → (c.proc p).pid ≠ 0 → p = q
  used : ∀ p, (c.proc p).state ≠ .UNUSED → (c.proc p).pid ≠ 0
  init : ∀ i, c.initproc = some i → (c.proc i).pid = 1
  main : c.phase = .main → allocs c.log = 0

theorem PidInv.frame {c d : Core} (h : PidInv c)
    (hp : ∀ p, (d.proc p).pid = (c.proc p).pid ∧ ((d.proc p).state = .UNUSED ∨
      (c.proc p).state ≠ .UNUSED)) (hn : d.nextpid = c.nextpid) (hl : allocs d.log = allocs c.log)
    (hi : d.initproc = c.initproc) (hph : d.phase = .main → c.phase = .main) : PidInv d := by
  have hpid := fun p ↦ (hp p).1
  exact
    { next := by simpa only [hn, hl] using h.next
      range := by simpa only [hpid, hl] using h.range
      inj := by simpa only [hpid] using h.inj
      used := fun p hu ↦ by
        rw [hpid]
        exact h.used p ((hp p).2.resolve_left hu)
      init := by simpa only [hpid, hi] using h.init
      main := fun hm ↦ hl ▸ h.main (hph hm) }

theorem PidInv.alloc {c d : Core} (h : PidInv c) (hb : allocs d.log < 2 ^ 31)
    (hl : allocs d.log = allocs c.log + 1) (hp : (c.proc p).state = .UNUSED)
    (hpid : ∀ q, (d.proc q).pid = if q = p then c.nextpid else (c.proc q).pid)
    (hst : ∀ q, q ≠ p → (d.proc q).state = (c.proc q).state)
    (hn : d.nextpid = int32 (c.nextpid + 1)) (hph : d.phase ≠ .main)
    (hi : ∀ i, d.initproc = some i → c.initproc = some i ∧ i ≠ p ∨ i = p ∧ c.phase = .main) :
    PidInv d := by
  have hnew : c.nextpid = allocs c.log + 1 := by
    rw [h.next]
    exact int32_of_lt (by omega) (by omega)
  have hrange := h.range
  refine ⟨by rw [hn, hl, hnew]; push_cast; rfl, fun q ↦ ?_, fun q r ↦ ?_, fun q hq ↦ ?_,
    fun i hi' ↦ ?_, fun hm ↦ absurd hm hph⟩
  · have := hrange q
    rw [hpid]
    split <;> omega
  · have := hrange q
    have := hrange r
    have := h.inj q r
    rw [hpid, hpid]
    split <;> split <;> grind
  · have := h.used q
    have := hst q
    rw [hpid]
    split
    · omega
    · grind
  · rw [hpid]
    rcases hi i hi' with ⟨hi, hne⟩ | ⟨rfl, hm⟩
    · rw [if_neg hne]
      exact h.init i hi
    · rw [if_pos rfl, hnew, h.main hm]
      rfl

theorem Move.allocs_le (h : Move short kind (x, a) (y, b)) : allocs a.log ≤ allocs b.log := by
  cases h with
  | sched h => cases h <;> grind
  | fork h => cases h <;> grind
  | exit h => cases h <;> grind

theorem Move.pidInv (h : Move short kind (x, a) (y, b)) (hi : Inv x a)
    (hb : allocs b.log < 2 ^ 31) (hp : PidInv a.toCore) : PidInv b.toCore := by
  have hfork := hi.thread.fork
  have hinit := hi.family.init
  cases h with
  | sched h =>
    cases h with
    | dispatch p hc hh =>
      have := ((hi.queue.mem p).mp (List.mem_of_mem_head? hh)).1
      exact hp.frame (by grind) rfl (by grind) rfl id
    | _ => exact hp.frame (by grind) rfl (by grind) rfl id
  | fork h =>
    cases h with
    | userinit p hph hst =>
      exact hp.alloc hb (by grind) hst (by grind) (by grind) rfl (by simp) (by grind)
    | userinitRun p hph =>
      have := hi.thread.userinit p hph
      exact hp.frame (by grind) rfl (by grind) rfl (by simp)
    | nicefork c np n hn hc ht hst =>
      have hrun := hi.thread.running (p := c) (by grind)
      exact hp.alloc hb (by grind) hst (by grind) (by grind) rfl (by simp [hrun]) (by grind)
    | _ => exact hp.frame (by grind) rfl (by grind) rfl id
  | exit h =>
    cases h with
    | leave p hst hth => exact hp.frame (by grind) rfl (by grind) rfl id
    | zombie p hc hpar =>
      have := hi.thread.leaving p rfl
      exact hp.frame (by grind) rfl (by grind) rfl id
    | reap p q hst hq hz =>
      have hinj := hp.inj
      have hrange := hp.range
      have hused := hp.used
      have hpi := hp.init
      have hne : a.initproc ≠ some q := by grind
      exact ⟨hp.next, by grind, by grind, by grind, by grind, hp.main⟩
    | _ => exact hp.frame (by grind) rfl (by grind) rfl id

end Xv6Bfs.Sched

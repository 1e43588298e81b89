import Xv6Bfs.Log.Protocol
import Mathlib.Data.Finset.Card
import Mathlib.Tactic.Linarith

namespace Xv6Bfs.Log

open Lib.Execution

variable {P : Type} {s s' : State P} {p q : P} {size : ℤ} {act : Act P}

@[grind]
def Pc.Active : Pc → Prop
  | .inOp | .logWriteTest _ | .logWriteLock _ => True
  | _ => False

@[grind]
def Pc.Commits : Pc → Prop
  | .commit _ => True
  | _ => False

theorem Pc.Active.not_commits {pc : Pc} (h : pc.Active) : ¬ pc.Commits := by
  cases pc <;> simp_all [Pc.Active, Pc.Commits]

@[grind]
def Stage.Cleared : Stage → Prop
  | .eraseHead | .done => True
  | _ => False

def State.Counts (s : State P) (F : Finset P) : Prop :=
  (∀ p, p ∈ F ↔ (s.pc p).Active) ∧ s.outstanding = F.card

namespace State.Counts

variable {F : Finset P}

theorem congr (h : s.Counts F) (hpc : ∀ p, (s'.pc p).Active ↔ (s.pc p).Active)
    (ho : s'.outstanding = s.outstanding) : s'.Counts F :=
  ⟨fun p ↦ (h.1 p).trans (hpc p).symm, ho.trans h.2⟩

theorem insert [DecidableEq P] (h : s.Counts F) (hp : ¬ (s.pc p).Active)
    (hpc : ∀ q, (s'.pc q).Active ↔ q = p ∨ (s.pc q).Active)
    (ho : s'.outstanding = s.outstanding + 1) : s'.Counts (insert p F) := by
  have hout : p ∉ F := fun hm ↦ hp ((h.1 p).mp hm)
  refine ⟨fun q ↦ by rw [Finset.mem_insert, h.1 q, hpc q], ?_⟩
  rw [ho, h.2, Finset.card_insert_of_notMem hout]
  push_cast
  rfl

theorem erase [DecidableEq P] (h : s.Counts F) (hp : (s.pc p).Active)
    (hpc : ∀ q, (s'.pc q).Active ↔ q ≠ p ∧ (s.pc q).Active)
    (ho : s'.outstanding = s.outstanding - 1) : s'.Counts (F.erase p) := by
  have hin : p ∈ F := (h.1 p).mpr hp
  refine ⟨fun q ↦ by rw [Finset.mem_erase, h.1 q, hpc q], ?_⟩
  rw [ho, h.2, Finset.card_erase_of_mem hin]
  have := Finset.card_pos.mpr ⟨p, hin⟩
  omega

theorem pos (h : s.Counts F) (hp : (s.pc p).Active) : 1 ≤ s.outstanding := by
  have := Finset.card_pos.mpr ⟨p, (h.1 p).mpr hp⟩
  rw [h.2]
  omega

theorem nonneg (h : s.Counts F) : 0 ≤ s.outstanding := by
  rw [h.2]
  omega

end State.Counts

@[grind cases eager]
structure Inv (s : State P) : Prop where
  counts : ∃ F, s.Counts F
  committing : s.committing = true ↔ ∃ p, (s.pc p).Commits
  alone : ∀ p q, (s.pc p).Commits → (s.pc q).Commits → p = q
  idle : s.committing = true → s.outstanding = 0
  distinct : s.lh.Nodup
  empty : s.committing = false → s.outstanding = 0 → s.lh = []
  cleared : ∀ p st, s.pc p = .commit st → st.Cleared → s.lh = []
  asleep : ∀ p, s.pc p = .asleep → s.committing = true ∨ s.Full

namespace Inv

theorem active (h : Inv s) (hp : (s.pc p).Active) : 1 ≤ s.outstanding ∧ s.committing = false := by
  obtain ⟨F, hF⟩ := h.counts
  have hpos := hF.pos hp
  refine ⟨hpos, ?_⟩
  by_contra hc
  have := h.idle (by simpa using hc)
  omega

variable [DecidableEq P]

theorem move (h : Inv s) {pc : Pc} (hold : ¬ (s.pc p).Active ∧ ¬ (s.pc p).Commits)
    (hnew : ¬ pc.Active ∧ ¬ pc.Commits) (hsleep : pc = .asleep → s.committing = true ∨ s.Full) :
    Inv (s.goto p pc) := by
  obtain ⟨F, hF⟩ := h.counts
  refine ⟨⟨F, hF.congr (fun q ↦ ?_) rfl⟩, ?_, ?_, h.idle, h.distinct, h.empty, ?_, ?_⟩ <;>
    simp only [State.goto, Function.update_apply] <;> grind

theorem reserve (h : Inv s) (hp : ¬ (s.pc p).Active) (hc : s.committing = false)
    (hpc : s'.pc = Function.update s.pc p .inOp) (ho : s'.outstanding = s.outstanding + 1)
    (hc' : s'.committing = s.committing) (hl : s'.lh = s.lh) : Inv s' := by
  obtain ⟨F, hF⟩ := h.counts
  have hnn := hF.nonneg
  refine ⟨⟨insert p F, hF.insert hp (fun q ↦ ?_) ho⟩, ?_, ?_, ?_, hl ▸ h.distinct, ?_, ?_, ?_⟩ <;>
    simp only [hpc, ho, hc', hl, Function.update_apply] <;> grind

theorem endOp (h : Inv s) (hp : s.pc p = .inOp) (hc : s.committing = false)
    (hone : s.outstanding ≠ 1) :
    Inv { s.wakeup.goto p .idle with outstanding := s.outstanding - 1 } := by
  have hpos := (h.active (p := p) (by simp [hp, Pc.Active])).1
  obtain ⟨F, hF⟩ := h.counts
  refine ⟨⟨F.erase p, hF.erase (p := p) (by simp [hp, Pc.Active]) (fun q ↦ ?_) rfl⟩, ?_, ?_, ?_,
    h.distinct, ?_, ?_, ?_⟩ <;>
    simp only [State.goto, State.wakeup, Function.update_apply] <;> grind

theorem endLast (h : Inv s) (hp : s.pc p = .inOp) (hc : s.committing = false)
    (hone : s.outstanding = 1) :
    Inv { s.goto p (.commit .test) with outstanding := 0, committing := true } := by
  obtain ⟨F, hF⟩ := h.counts
  refine ⟨⟨F.erase p, hF.erase (p := p) (by simp [hp, Pc.Active]) (fun q ↦ ?_)
    (by simp [hone])⟩, ?_, ?_, ?_, h.distinct, ?_, ?_, ?_⟩ <;>
    simp only [State.goto, Function.update_apply] <;> grind

theorem stage (h : Inv s) {st st' : Stage} (hp : s.pc p = .commit st)
    (hpc : s'.pc = Function.update s.pc p (.commit st')) (ho : s'.outstanding = s.outstanding)
    (hc : s'.committing = s.committing) (hl : s'.lh = s.lh ∨ s'.lh = [])
    (hst : st'.Cleared → s'.lh = []) : Inv s' := by
  have hcom : s.committing = true := h.committing.mpr ⟨p, by simp [hp, Pc.Commits]⟩
  obtain ⟨F, hF⟩ := h.counts
  have hd : s'.lh.Nodup := by rcases hl with hl | hl <;> simp [hl, h.distinct]
  refine ⟨⟨F, hF.congr (fun q ↦ ?_) ho⟩, ?_, ?_, ?_, hd, ?_, ?_, ?_⟩ <;>
    simp only [hpc, ho, hc, Function.update_apply] <;> grind

theorem finish (h : Inv s) (hp : s.pc p = .commit .done) :
    Inv { s.wakeup.goto p .idle with committing := false } := by
  have hl := h.cleared p .done hp trivial
  obtain ⟨F, hF⟩ := h.counts
  refine ⟨⟨F, hF.congr (fun q ↦ ?_) rfl⟩, ?_, ?_, ?_, h.distinct, ?_, ?_, ?_⟩ <;>
    simp only [State.goto, State.wakeup, Function.update_apply] <;> grind

theorem commit (h : Inv s) {st : Stage} (hp : s.pc p = .commit st) : Inv (s.commit p st) := by
  cases st with
  | test =>
    refine h.stage hp rfl rfl rfl (.inl rfl) (fun hst ↦ ?_)
    split at hst
    · exact hst.elim
    · rename_i hn
      exact List.eq_nil_of_length_eq_zero (Nat.eq_zero_of_not_pos hn)
  | writeLog | installTrans =>
    refine h.stage hp rfl rfl rfl (.inl rfl) (fun hst ↦ ?_)
    split at hst <;> exact hst.elim
  | writeHead => exact h.stage hp rfl rfl rfl (.inl rfl) nofun
  | clear => exact h.stage hp rfl rfl rfl (.inr rfl) (fun _ ↦ rfl)
  | eraseHead =>
    exact h.stage hp rfl rfl rfl (.inl rfl) (fun _ ↦ h.cleared p .eraseHead hp trivial)
  | done => exact h.finish hp

theorem write (h : Inv s) (hold : (s.pc p).Active) (pc : Pc) (hnew : pc.Active)
    (hpc : s'.pc = Function.update s.pc p pc) (ho : s'.outstanding = s.outstanding)
    (hc : s'.committing = s.committing) (hd : s'.lh.Nodup)
    (hl : s.lh.length ≤ s'.lh.length) : Inv s' := by
  obtain ⟨hpos, hno⟩ := h.active hold
  have hnc := hnew.not_commits
  have hnc' := hold.not_commits
  obtain ⟨F, hF⟩ := h.counts
  refine ⟨⟨F, hF.congr (fun q ↦ ?_) ho⟩, ?_, ?_, ?_, hd, ?_, ?_, ?_⟩ <;>
    simp only [hpc, ho, hc, Function.update_apply] <;> grind

theorem step (h : Inv s) (hs : s.Step size act s') : Inv s' := by
  cases hs with
  | call p hp | kill p hp =>
    exact h.move (by simp [hp, Pc.Active, Pc.Commits]) (by simp [Pc.Active, Pc.Commits]) (by simp)
  | sleep p hp hs =>
    exact h.move (by simp [hp, Pc.Active, Pc.Commits]) (by simp [Pc.Active, Pc.Commits])
      (fun _ ↦ hs)
  | reserve p hp hc hs =>
    exact h.reserve (p := p) (by simp [hp, Pc.Active]) hc rfl rfl rfl rfl
  | logWrite p blockno hp =>
    exact h.write (p := p) (by simp [hp, Pc.Active]) (.logWriteTest blockno) trivial rfl rfl
      rfl h.distinct le_rfl
  | logWriteTest p blockno hp =>
    exact h.write (p := p) (by simp [hp, Pc.Active]) (.logWriteLock blockno) trivial rfl rfl
      rfl h.distinct le_rfl
  | logWriteLock p blockno hp =>
    refine h.write (p := p) (by simp [hp, Pc.Active]) .inOp trivial rfl rfl rfl ?_ ?_
    · have := h.distinct
      grind
    · grind
  | endOp p hp hc ho => exact h.endOp hp hc ho
  | endLast p hp hc ho => exact h.endLast hp hc ho
  | commit p st hp => exact h.commit hp

omit [DecidableEq P] in
theorem init : Inv (State.init : State P) := by
  refine ⟨⟨∅, by simp [State.Counts, State.init, Pc.Active]⟩, ?_, ?_, ?_, ?_, ?_, ?_, ?_⟩ <;>
    simp [State.init, Pc.Commits]

end Inv

@[grind]
def Stage.Installs : Stage → Prop
  | .installTrans _ | .clear => True
  | _ => False

/-- The blocks that have been logged since the last header was written are in `lh`, and all
blocks of one operation were logged in one transaction. -/
structure HistInv (s : State P) : Prop where
  active : ∀ p, (s.pc p).Active → s.op p < s.nextOp
  past : ∀ o b t, .logged o b t ∈ s.hist → o < s.nextOp ∧ t ≤ s.txn
  current : ∀ p, (s.pc p).Active → ∀ b t, .logged (s.op p) b t ∈ s.hist → t = s.txn
  same : ∀ o b b' t t', .logged o b t ∈ s.hist → .logged o b' t' ∈ s.hist → t = t'
  pending : ∀ o b, .logged o b s.txn ∈ s.hist → b ∈ s.lh
  installs : ∀ p st, s.pc p = .commit st → st.Installs → ∀ o b, .logged o b s.txn ∉ s.hist
  header : ∀ t l, .header t l ∈ s.hist → t < s.txn
  unique : ∀ t l l', .header t l ∈ s.hist → .header t l' ∈ s.hist → l = l'
  written : ∀ o b t, .logged o b t ∈ s.hist → t < s.txn → ∃ l, .header t l ∈ s.hist ∧ b ∈ l

namespace HistInv

theorem frame (h : HistInv s) (hh : s'.hist = s.hist) (ht : s'.txn = s.txn) (hl : s'.lh = s.lh)
    (hn : s.nextOp ≤ s'.nextOp)
    (hpc : ∀ p, (s'.pc p).Active → s'.op p = s.nextOp ∧ s.nextOp < s'.nextOp ∨
      (s.pc p).Active ∧ s'.op p = s.op p)
    (hst : ∀ p st, s'.pc p = .commit st → st.Installs → ∃ st', s.pc p = .commit st' ∧ st'.Installs) :
    HistInv s' := by
  obtain ⟨active, past, current, same, pending, installs, header, unique, written⟩ := h
  refine ⟨fun p hp ↦ ?_, fun o b t hm ↦ ?_, fun p hp b t hm ↦ ?_, by rwa [hh], by rwa [hh, ht, hl],
    fun p st hp hst' ↦ ?_, by rwa [hh, ht], by rwa [hh], by rwa [hh, ht]⟩
  · rcases hpc p hp with ho | ⟨hp', ho⟩
    · omega
    · have := active p hp'
      omega
  · have := past o b t (hh ▸ hm)
    omega
  · rw [hh] at hm
    rw [ht]
    rcases hpc p hp with ho | ⟨hp', ho⟩
    · have := past _ b t hm
      omega
    · exact current p hp' b t (ho ▸ hm)
  · obtain ⟨st', hp', hi⟩ := hst p st hp hst'
    rw [hh, ht]
    exact installs p st' hp' hi

variable [DecidableEq P]

theorem logWriteLock (h : HistInv s) (hi : Inv s) {blockno : ℕ} (hp : (s.pc p).Active) :
    HistInv { s.goto p .inOp with
      hist := .logged (s.op p) blockno s.txn :: s.hist
      lh := if blockno ∈ s.lh then s.lh else s.lh ++ [blockno] } := by
  have hno : ∀ q st, s.pc q ≠ .commit st := by
    intro q st hq
    have := (hi.active hp).2
    simp [hi.committing.mpr ⟨q, by simp [hq, Pc.Commits]⟩] at this
  have hnow := h.current p hp
  have hlt := h.active p hp
  refine ⟨?_, ?_, ?_, ?_, ?_, ?_, ?_, ?_, ?_⟩ <;>
    simp only [State.goto, Function.update_apply, List.mem_cons, Event.logged.injEq, reduceCtorEq,
      false_or]
  · have := h.active
    grind
  · have := h.past
    grind
  · have := h.current
    grind
  · have := h.same
    grind
  · have := h.pending
    grind
  · grind
  · exact h.header
  · exact h.unique
  · have := h.written
    grind

theorem writeHead (h : HistInv s) (hi : Inv s) (hp : (s.pc p).Commits) :
    HistInv { s.goto p (.commit (.installTrans 0)) with
      txn := s.txn + 1
      hist := .header s.txn s.lh :: s.hist } := by
  have hno : ∀ q, ¬ (s.pc q).Active := by
    intro q hq
    have := (hi.active hq).2
    simp [hi.committing.mpr ⟨p, hp⟩] at this
  refine ⟨?_, ?_, ?_, ?_, ?_, ?_, ?_, ?_, ?_⟩ <;>
    simp only [State.goto, Function.update_apply, List.mem_cons, Event.header.injEq, reduceCtorEq,
      false_or]
  · grind
  · have := h.past
    grind
  · grind
  · exact h.same
  · have := h.past
    grind
  · have := h.past
    grind
  · have := h.header
    grind
  · have := h.header
    have := h.unique
    grind
  · have := h.written
    have := h.pending
    grind

theorem clear (h : HistInv s) (hp : s.pc p = .commit .clear) :
    HistInv { s.goto p (.commit .eraseHead) with lh := [] } := by
  have hnone := h.installs p .clear hp trivial
  obtain ⟨active, past, current, same, pending, installs, header, unique, written⟩ := h
  refine ⟨?_, past, ?_, same, ?_, ?_, header, unique, written⟩ <;>
    simp only [State.goto, Function.update_apply] <;> grind

theorem commit (h : HistInv s) (hi : Inv s) {st : Stage} (hp : s.pc p = .commit st) :
    HistInv (s.commit p st) := by
  cases st with
  | writeHead => exact h.writeHead hi (by simp [hp, Pc.Commits])
  | clear => exact h.clear hp
  | test | writeLog | installTrans | eraseHead | done =>
    refine h.frame rfl rfl rfl le_rfl ?_ ?_ <;>
      simp only [State.commit, State.goto, State.wakeup, Function.update_apply] <;> grind

theorem step (h : HistInv s) (hi : Inv s) (hs : s.Step size act s') : HistInv s' := by
  cases hs with
  | logWriteLock p blockno hp => exact h.logWriteLock hi (by simp [hp, Pc.Active])
  | commit p st hp => exact h.commit hi hp
  | call | kill | sleep | reserve | logWrite | logWriteTest | endOp | endLast =>
    refine h.frame rfl rfl rfl (by simp [State.goto, State.wakeup]) ?_ ?_ <;>
      simp only [State.goto, State.wakeup, Function.update_apply] <;> grind

omit [DecidableEq P] in
theorem init : HistInv (State.init : State P) := by
  constructor <;> simp [State.init, Pc.Active]

end HistInv

theorem State.Reachable.inv [DecidableEq P] (h : s.Reachable size) : Inv s ∧ HistInv s := by
  obtain ⟨l, he⟩ := h
  refine exec_invariant (I := fun s ↦ Inv s ∧ HistInv s) (fun act s s' hs he ↦ ?_)
    ⟨Inv.init, HistInv.init⟩ he
  have hstep := State.step_cases he
  exact ⟨hs.1.step hstep, hs.2.step hs.1 hstep⟩

/-- All blocks that an operation has logged are in the header that one and the same commit has
written, unless the transaction has not been committed yet. -/
def State.InOneHeader (s : State P) : Prop :=
  ∀ o b t, .logged o b t ∈ s.hist → (∀ b' t', .logged o b' t' ∈ s.hist → t' = t) ∧
    ((∃ l, .header t l ∈ s.hist ∧ (∀ l', .header t l' ∈ s.hist → l' = l) ∧
        ∀ b', .logged o b' t ∈ s.hist → b' ∈ l) ∨
      (s.outstanding ≠ 0 ∨ s.committing = true) ∧ (∀ l, .header t l ∉ s.hist) ∧
        ∀ b', .logged o b' t ∈ s.hist → b' ∈ s.lh)

theorem HistInv.inOneHeader (h : HistInv s) (hi : Inv s) : s.InOneHeader := by
  intro o b t hm
  refine ⟨fun b' t' hm' ↦ h.same o b' b t' t hm' hm, ?_⟩
  rcases Nat.lt_or_eq_of_le (h.past o b t hm).2 with hlt | rfl
  · obtain ⟨l, hl, -⟩ := h.written o b t hm hlt
    refine .inl ⟨l, hl, fun l' hl' ↦ h.unique t l' l hl' hl, fun b' hm' ↦ ?_⟩
    obtain ⟨l', hl', hb'⟩ := h.written o b' t hm' hlt
    exact h.unique t l' l hl' hl ▸ hb'
  · refine .inr ⟨?_, fun l hl ↦ ?_, fun b' hm' ↦ h.pending o b' hm'⟩
    · by_contra hno
      have hnil := hi.empty (by simp_all) (by simp_all)
      have := h.pending o b hm
      simp [hnil] at this
    · exact absurd (h.header _ l hl) (lt_irrefl _)

theorem Inv.step_error [DecidableEq P] {e : Stop} (h : Inv s)
    (he : State.step size act s = .error e) : e ≠ .logCommitting ∧ e ≠ .outsideOfTrans := by
  cases act with
  | logWriteTest p =>
    simp only [State.step, State.logWriteTest] at he
    split at he
    · rename_i hp
      have := (h.active (p := p) (by simp [hp, Pc.Active])).1
      split at he <;> grind
    · grind
  | endOp p =>
    simp only [State.step, State.endOp] at he
    split at he
    · rename_i hp
      have := (h.active (p := p) (by simp [hp, Pc.Active])).2
      grind
    · grind
  | logWriteLock p =>
    simp only [State.step, State.logWriteLock] at he
    split at he <;> grind
  | call | beginOp | kill | logWrite | commit =>
    simp only [State.step, State.logWrite] at he
    grind

/-- The protocol of `log.c`, for any processes and any order of their steps. -/
theorem group_commit {P : Type} [DecidableEq P] {size : ℤ} {s : State P} (h : s.Reachable size) :
    (s.committing = true → s.outstanding = 0) ∧
    (s.committing = true → ∀ p b, State.step size (.logWrite p b) s = .error .disabled ∧
      State.step size (.logWriteTest p) s = .error .disabled ∧
      State.step size (.logWriteLock p) s = .error .disabled) ∧
    s.lh.Nodup ∧
    (s.committing = false → s.outstanding = 0 → s.lh = []) ∧
    s.InOneHeader ∧
    (∀ p, s.pc p = .asleep → s.committing = true ∨
      (s.lh.length : ℤ) + (s.outstanding + 1) * MAXOPBLOCKS > LOGSIZE) ∧
    ∀ act, State.step size act s ≠ .error .logCommitting ∧
      State.step size act s ≠ .error .outsideOfTrans := by
  obtain ⟨hi, hh⟩ := h.inv
  refine ⟨hi.idle, fun hc p b ↦ ?_, hi.distinct, hi.empty, hh.inOneHeader hi, hi.asleep,
    fun act ↦ ⟨fun he ↦ (hi.step_error he).1 rfl, fun he ↦ (hi.step_error he).2 rfl⟩⟩
  have hno : ¬ (s.pc p).Active := by
    intro hp
    simp [(hi.active hp).2] at hc
  cases hp : s.pc p <;> simp_all [State.step, Pc.Active]

theorem group_commit_asleep : ∃ s : State Bool, s.Reachable LOGSIZE ∧ s.committing = true ∧
    s.outstanding = 0 ∧ s.pc true = .asleep ∧ s.lh.Nodup ∧ s.InOneHeader := by
  have hrun : Ensures (fun s : State Bool ↦ s.committing = true ∧ s.pc true = .asleep)
      (fun _ ↦ False) (exec (State.step LOGSIZE) [.call false, .beginOp false, .logWrite false 7,
        .logWriteTest false, .logWriteLock false, .endOp false, .call true, .beginOp true]
        State.init) := by decide
  obtain ⟨s, he, hc, hp⟩ := hrun.exists_ok
  have h := group_commit (s := s) ⟨_, he⟩
  exact ⟨s, ⟨_, he⟩, hc, h.1 hc, hp, h.2.2.1, h.2.2.2.2.1⟩

end Xv6Bfs.Log

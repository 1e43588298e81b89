import Xv6Bfs.Log.GroupCommit
import Mathlib.Algebra.BigOperators.Ring.Finset
import Mathlib.Algebra.Order.BigOperators.Group.Finset

namespace Xv6Bfs.Log

open Lib.Execution

variable {P : Type} {s s' : State P} {p q : P} {m : ℕ}

/-- An operation calls `log_write` for at most `m` distinct block numbers. -/
def Act.Within (m : ℕ) : Act P → State P → Prop
  | .logWrite p blockno, s => ((s.called p).insert blockno).length ≤ m
  | _, _ => True

instance (m : ℕ) (act : Act P) (s : State P) : Decidable (act.Within m s) := by
  unfold Act.Within
  split <;> infer_instance

theorem Act.Within.mono {m n : ℕ} {act : Act P} (h : act.Within m s) (hmn : m ≤ n) :
    act.Within n s := by
  cases act with
  | logWrite p blockno => exact Nat.le_trans h hmn
  | _ => trivial

/-- The blocks of its current operation that the process has called `log_write` for and that
are in `lh`. -/
def State.used (s : State P) (p : P) : ℕ := ((s.called p).filter (· ∈ s.lh)).length

/-- What is in `lh` and what the operations may still add to it leaves two blocks of the log
unused. -/
structure Reserve (m : ℕ) (s : State P) : Prop where
  nodup : ∀ p, (s.called p).Nodup
  le : ∀ p, (s.called p).length ≤ m
  calling : ∀ p b, s.pc p = .logWriteTest b ∨ s.pc p = .logWriteLock b → b ∈ s.called p
  room : ∃ F, s.Counts F ∧ (s.lh.length : ℤ) + ∑ p ∈ F, ((m : ℤ) - s.used p) ≤ LOGSIZE - 2

theorem State.used_le (s : State P) (p : P) : s.used p ≤ (s.called p).length :=
  List.length_filter_le _ _

theorem State.used_congr (hl : s'.lh = s.lh) (hc : s'.called p = s.called p) :
    s'.used p = s.used p := by simp only [State.used, hl, hc]

theorem State.used_mono (hl : s.lh ⊆ s'.lh) (hc : s'.called p = s.called p) :
    s.used p ≤ s'.used p := by
  unfold State.used
  rw [hc]
  refine (List.monotone_filter_right _ (fun b hb ↦ ?_)).length_le
  exact decide_eq_true (hl (of_decide_eq_true hb))

theorem State.used_insert {blockno : ℕ} (hl : s'.lh = s.lh)
    (hc : s'.called p = (s.called p).insert blockno) : s.used p ≤ s'.used p := by
  unfold State.used
  rw [hc, hl, List.insert]
  split
  · exact le_rfl
  · rw [List.filter_cons]
    split <;> simp

theorem State.used_lt {blockno : ℕ} (hn : (s.called p).Nodup) (hm : blockno ∈ s.called p)
    (hb : blockno ∉ s.lh) (hl : s'.lh = s.lh ++ [blockno]) (hc : s'.called p = s.called p) :
    s.used p < s'.used p := by
  unfold State.used
  rw [hc, hl, ← Nat.succ_le_iff, Nat.succ_eq_add_one,
    ← show (blockno :: (s.called p).filter (· ∈ s.lh)).length = _ from List.length_cons]
  refine (List.subperm_of_subset ?_ (fun b hb ↦ ?_)).length_le
  · exact List.nodup_cons.mpr ⟨by simp [hb], hn.filter _⟩
  · rcases List.mem_cons.mp hb with rfl | hb
    · simp [hm]
    · simp_all

namespace Reserve

theorem sum_nonneg (h : Reserve m s) (F : Finset P) : 0 ≤ ∑ p ∈ F, ((m : ℤ) - s.used p) := by
  refine Finset.sum_nonneg (fun p _ ↦ ?_)
  have := s.used_le p
  have := h.le p
  omega

theorem lh_le (h : Reserve m s) : (s.lh.length : ℤ) ≤ LOGSIZE - 2 := by
  obtain ⟨F, -, hroom⟩ := h.room
  have := h.sum_nonneg F
  omega

theorem same (h : Reserve m s) (hnodup : ∀ p, (s'.called p).Nodup)
    (hle : ∀ p, (s'.called p).length ≤ m)
    (hcall : ∀ p b, s'.pc p = .logWriteTest b ∨ s'.pc p = .logWriteLock b → b ∈ s'.called p)
    (hpc : ∀ p, (s'.pc p).Active ↔ (s.pc p).Active) (ho : s'.outstanding = s.outstanding)
    (hroom : ∀ F, s.Counts F → (s'.lh.length : ℤ) + ∑ p ∈ F, ((m : ℤ) - s'.used p) ≤
      s.lh.length + ∑ p ∈ F, ((m : ℤ) - s.used p)) : Reserve m s' := by
  obtain ⟨F, hF, hr⟩ := h.room
  exact ⟨hnodup, hle, hcall, F, hF.congr hpc ho, (hroom F hF).trans hr⟩

theorem frame (h : Reserve m s) (hl : s'.lh = s.lh) (hc : s'.called = s.called)
    (hcall : ∀ p b, s'.pc p = .logWriteTest b ∨ s'.pc p = .logWriteLock b →
      s.pc p = .logWriteTest b ∨ s.pc p = .logWriteLock b)
    (hpc : ∀ p, (s'.pc p).Active ↔ (s.pc p).Active) (ho : s'.outstanding = s.outstanding) :
    Reserve m s' := by
  refine h.same (by rw [hc]; exact h.nodup) (by rw [hc]; exact h.le)
    (fun p b hp ↦ hc ▸ h.calling p b (hcall p b hp)) hpc ho (fun F _ ↦ ?_)
  simp only [State.used, hl, hc]
  exact le_rfl

variable [DecidableEq P]

theorem reserve (h : Reserve m s) (hi : Inv s) (hm : m < MAXOPBLOCKS) (hp : ¬ (s.pc p).Active)
    (hc : s.committing = false) (hfull : ¬ s.Full) (hpc : ∀ q, s'.pc q = if q = p then .inOp else s.pc q)
    (ho : s'.outstanding = s.outstanding + 1) (hl : s'.lh = s.lh)
    (hcalled : ∀ q, s'.called q = if q = p then [] else s.called q) : Reserve m s' := by
  obtain ⟨F, hF, hroom⟩ := h.room
  have hout : p ∉ F := fun hm ↦ hp ((hF.1 p).mp hm)
  have hten : MAXOPBLOCKS = 10 := rfl
  have hsize : LOGSIZE = 30 := rfl
  refine ⟨fun q ↦ ?_, fun q ↦ ?_, fun q b hq ↦ ?_, insert p F, hF.insert hp (fun q ↦ ?_) ho, ?_⟩
  · have := h.nodup q
    grind
  · have := h.le q
    grind
  · have := h.calling q b
    grind
  · grind
  · -- an operation may add `m` blocks, one less than `begin_op` reserves for it
    have hold : ∀ q ∈ F, (m : ℤ) - s'.used q ≤ 9 := fun q _ ↦ by omega
    have hsum := Finset.sum_le_card_nsmul F _ 9 hold
    have hcard := hF.2
    rw [Finset.sum_insert hout, hl]
    rw [nsmul_eq_mul] at hsum
    simp only [State.Full, hten, hsize] at hfull
    rcases Nat.eq_zero_or_pos F.card with h0 | h0
    · rw [hi.empty hc (by omega), List.length_nil]
      omega
    · omega

theorem logWrite (h : Reserve m s) {blockno : ℕ} (hp : s.pc p = .inOp)
    (hw : ((s.called p).insert blockno).length ≤ m)
    (hpc : ∀ q, s'.pc q = if q = p then .logWriteTest blockno else s.pc q)
    (ho : s'.outstanding = s.outstanding) (hl : s'.lh = s.lh)
    (hcalled : ∀ q, s'.called q = if q = p then (s.called p).insert blockno else s.called q) :
    Reserve m s' := by
  refine h.same (fun q ↦ ?_) (fun q ↦ ?_) (fun q b hq ↦ ?_) (fun q ↦ ?_) ho (fun F _ ↦ ?_)
  · have := (h.nodup p).insert (a := blockno)
    have := h.nodup q
    grind
  · have := h.le q
    grind
  · have := h.calling q b
    grind
  · grind
  · rw [hl]
    refine add_le_add_right (Finset.sum_le_sum (fun q _ ↦ ?_)) _
    rcases eq_or_ne q p with rfl | hne
    · have := State.used_insert (p := q) hl (by rw [hcalled, if_pos rfl])
      omega
    · rw [State.used_congr hl (by rw [hcalled, if_neg hne])]

theorem logWriteLock (h : Reserve m s) {blockno : ℕ} (hp : s.pc p = .logWriteLock blockno)
    (hpc : ∀ q, s'.pc q = if q = p then .inOp else s.pc q) (ho : s'.outstanding = s.outstanding)
    (hl : s'.lh = if blockno ∈ s.lh then s.lh else s.lh ++ [blockno])
    (hcalled : s'.called = s.called) : Reserve m s' := by
  have hcall := h.calling p blockno (.inr hp)
  split at hl
  · exact h.frame hl hcalled (by grind) (by grind) ho
  · rename_i hnew
    refine h.same (by rw [hcalled]; exact h.nodup) (by rw [hcalled]; exact h.le) (fun q b hq ↦ ?_)
      (fun q ↦ by grind) ho (fun F hF ↦ ?_)
    · have := h.calling q b
      grind
    · -- the block is new to `lh`, and so it is one more of those that the operation has used
      have hin : p ∈ F := (hF.1 p).mpr (by simp [hp, Pc.Active])
      have hlt := State.used_lt (h.nodup p) hcall hnew hl (by rw [hcalled])
      have hrest : ∑ q ∈ F.erase p, ((m : ℤ) - s'.used q) ≤ ∑ q ∈ F.erase p, ((m : ℤ) - s.used q) := by
        refine Finset.sum_le_sum (fun q _ ↦ ?_)
        have := State.used_mono (p := q) (show s.lh ⊆ s'.lh by simp [hl]) (by rw [hcalled])
        omega
      rw [← Finset.add_sum_erase F _ hin, ← Finset.add_sum_erase F (fun q ↦ (m : ℤ) - s.used q) hin,
        hl, List.length_append]
      simp only [List.length_singleton]
      push_cast
      omega

theorem endOp (h : Reserve m s) (hp : s.pc p = .inOp)
    (hpc : ∀ q, q ≠ p → s'.pc q = s.pc q ∨ s.pc q = .asleep ∧ s'.pc q = .beginOp)
    (hout : ¬ (s'.pc p).Active) (ho : s'.outstanding = s.outstanding - 1) (hl : s'.lh = s.lh)
    (hcalled : s'.called = s.called) : Reserve m s' := by
  obtain ⟨F, hF, hroom⟩ := h.room
  have hact : (s.pc p).Active := by simp [hp, Pc.Active]
  have hin : p ∈ F := (hF.1 p).mpr hact
  refine ⟨by rw [hcalled]; exact h.nodup, by rw [hcalled]; exact h.le, fun q b hq ↦ ?_, F.erase p,
    hF.erase hact (fun q ↦ ?_) ho, ?_⟩
  · have := h.calling q b
    rcases eq_or_ne q p with rfl | hne
    · grind
    · have := hpc q hne
      grind
  · rcases eq_or_ne q p with rfl | hne
    · simp [hout]
    · have := hpc q hne
      grind
  · have hsame : ∀ q ∈ F.erase p, (m : ℤ) - s'.used q = m - s.used q := fun q _ ↦ by
      rw [State.used_congr hl (by rw [hcalled])]
    have hpos := h.le p
    have := s.used_le p
    rw [← Finset.add_sum_erase F _ hin] at hroom
    rw [Finset.sum_congr rfl hsame, hl]
    omega

theorem clear (h : Reserve m s) (hi : Inv s) (hp : s.pc p = .commit .clear) :
    Reserve m { s.goto p (.commit .eraseHead) with lh := [] } := by
  have hcom := hi.committing.mpr ⟨p, by simp [hp, Pc.Commits]⟩
  obtain ⟨F, hF, hroom⟩ := h.room
  have hnone : F = ∅ := by
    have := hi.idle hcom
    have := hF.2
    exact Finset.card_eq_zero.mp (by omega)
  refine ⟨h.nodup, h.le, fun q b hq ↦ ?_, F, hF.congr (fun q ↦ ?_) rfl, ?_⟩
  · have := h.calling q b
    simp only [State.goto, Function.update_apply] at hq ⊢
    grind
  · simp only [State.goto, Function.update_apply]
    grind
  · simp [hnone, LOGSIZE, MAXOPBLOCKS]

theorem commit (h : Reserve m s) (hi : Inv s) {st : Stage} (hp : s.pc p = .commit st) :
    Reserve m (s.commit p st) := by
  cases st with
  | clear => exact h.clear hi hp
  | test | writeLog | writeHead | installTrans | eraseHead | done =>
    refine h.frame rfl rfl ?_ ?_ rfl <;>
      simp only [State.commit, State.goto, State.wakeup, Function.update_apply] <;> grind

theorem step (h : Reserve m s) (hi : Inv s) (hm : m < MAXOPBLOCKS) {size : ℤ} {act : Act P}
    (hw : act.Within m s) (hs : s.Step size act s') : Reserve m s' := by
  cases hs with
  | call p hp | kill p hp | sleep p hp =>
    refine h.frame rfl rfl ?_ ?_ rfl <;> simp only [State.goto, Function.update_apply] <;> grind
  | reserve p hp hc hs =>
    exact h.reserve (p := p) hi hm (by simp [hp, Pc.Active]) hc hs (Function.update_apply _ _ _) rfl
      rfl (Function.update_apply _ _ _)
  | logWrite p blockno hp =>
    exact h.logWrite hp hw (Function.update_apply _ _ _) rfl rfl (Function.update_apply _ _ _)
  | logWriteTest p blockno hp =>
    have hcall := h.calling p blockno (.inl hp)
    refine h.same h.nodup h.le ?_ ?_ rfl (fun _ _ ↦ le_rfl)
    · have := h.calling
      simp only [State.goto, Function.update_apply]
      grind
    · simp only [State.goto, Function.update_apply]
      grind
  | logWriteLock p blockno hp => exact h.logWriteLock hp (Function.update_apply _ _ _) rfl rfl rfl
  | endOp p hp hc ho =>
    refine h.endOp hp (fun q hne ↦ ?_) ?_ rfl rfl rfl <;>
      simp only [State.goto, State.wakeup, Function.update_apply] <;> grind
  | endLast p hp hc ho =>
    refine h.endOp hp (fun q hne ↦ ?_) ?_ (by simp [ho]) rfl rfl <;>
      simp only [State.goto, Function.update_apply] <;> grind
  | commit p st hp => exact h.commit hi hp

omit [DecidableEq P] in
theorem init : Reserve m (State.init : State P) := by
  refine ⟨by simp [State.init], by simp [State.init], by simp [State.init], ∅,
    by simp [State.Counts, State.init, Pc.Active], ?_⟩
  simp [State.init, LOGSIZE, MAXOPBLOCKS]

end Reserve

theorem Reserve.no_panic [DecidableEq P] (h : Reserve m s) (act : Act P) :
    State.step LOGSIZE act s ≠ .error .tooBigTransaction := by
  have hle := h.lh_le
  have hsize : LOGSIZE = 30 := rfl
  cases act <;> simp only [State.step, State.logWrite, State.logWriteTest, State.logWriteLock,
    State.endOp] <;> grind

def fullLoad : List (Act (Fin 3)) :=
  ((List.finRange 3).flatMap fun p ↦ [.call p, .beginOp p]) ++
    (List.finRange 3).flatMap fun p ↦ (List.range' (10 * p.val) 10).flatMap fun b ↦
      [.logWrite p b, .logWriteTest p, .logWriteLock p]

theorem fullLoad_within :
    Meets (State.step LOGSIZE) (fun act s ↦ act.Within MAXOPBLOCKS s) fullLoad State.init := by
  decide +kernel

theorem fullLoad_panics :
    exec (State.step LOGSIZE) fullLoad State.init = .error .tooBigTransaction := by
  have hrun : Ensures (fun _ ↦ False) (fun e ↦ e = .tooBigTransaction)
      (exec (State.step LOGSIZE) fullLoad State.init) := by decide +kernel
  cases he : exec (State.step LOGSIZE) fullLoad State.init with
  | ok s => exact (hrun.of_ok he).elim
  | error e => rw [hrun.of_error he]

/-- The reservation is enough for operations that log fewer than `MAXOPBLOCKS` blocks, but not
for those that log `MAXOPBLOCKS`. -/
theorem reservation_sufficient_iff (m : ℕ) :
    (∀ (P : Type) [DecidableEq P] (l : List (Act P)),
      Meets (State.step LOGSIZE) (fun act s ↦ act.Within m s) l State.init →
        exec (State.step LOGSIZE) l State.init ≠ .error .tooBigTransaction) ↔ m < MAXOPBLOCKS := by
  constructor
  · intro h
    by_contra hm
    exact h (Fin 3) fullLoad (fullLoad_within.mono (fun _ _ hw ↦ hw.mono (Nat.le_of_not_lt hm)))
      fullLoad_panics
  · intro hm P _ l hw
    refine exec_ne_error_of_meets (I := fun s ↦ Inv s ∧ Reserve m s) (fun act s s' hs hw he ↦ ?_)
      (fun act s hs _ ↦ hs.2.no_panic act) ⟨Inv.init, Reserve.init⟩ hw
    have hstep := State.step_cases he
    exact ⟨hs.1.step hstep, hs.2.step hs.1 hm hw hstep⟩

theorem maxOpBlocks_too_big : ∃ l : List (Act (Fin 3)),
    Meets (State.step LOGSIZE) (fun act s ↦ act.Within MAXOPBLOCKS s) l State.init ∧
      exec (State.step LOGSIZE) l State.init = .error .tooBigTransaction :=
  ⟨fullLoad, fullLoad_within, fullLoad_panics⟩

end Xv6Bfs.Log

import Xv6Bfs.Sched.Safety
import Mathlib.Data.Nat.Count

namespace Xv6Bfs.Sched

open Lib.Execution Lib.KeyedQueue

namespace SkipList

variable {vd : ProcId → ℤ} {p q : ProcId} {t t' : SkipList} {L L' : ℤ → List Entry} {k : ℤ}

def levelsOf (t : SkipList) (p : ProcId) : ℕ :=
  Nat.count (fun k ↦ (t.levelProcs k).contains p = true) LEVELS

def Reported (t : SkipList) : Prop := ∀ p, 0 < t.levelsOf p → t.maxSkiplistLevel p = t.levelsOf p

instance decidableReported (t : SkipList) : Decidable t.Reported :=
  inferInstanceAs (Decidable (∀ _, _ → _))

theorem levelsOf_eq {r : ℕ} (hr : r ≤ LEVELS)
    (h : ∀ k < LEVELS, p ∈ t.levelProcs k ↔ k < r) : t.levelsOf p = r := by
  obtain ⟨d, hd⟩ := Nat.exists_eq_add_of_le hr
  rw [levelsOf, hd, Nat.count_add, Nat.count_of_forall, Nat.count_of_forall_not, Nat.add_zero]
  · intro i hi hm
    have := (h (r + i) (by omega)).mp (List.contains_iff_mem.mp hm)
    omega
  · exact fun i hi ↦ List.contains_iff_mem.mpr ((h i (by omega)).mpr hi)

theorem levelsOf_congr (h : ∀ k, InLevels k → (p ∈ t'.levelProcs k ↔ p ∈ t.levelProcs k)) :
    t'.levelsOf p = t.levelsOf p := by
  have hcount (n : ℕ) (hn : n ≤ LEVELS) : Nat.count (fun k ↦ (t'.levelProcs k).contains p = true) n =
      Nat.count (fun k ↦ (t.levelProcs k).contains p = true) n := by
    induction n with
    | zero => rfl
    | succ n ih =>
      have hlev := h n ⟨by omega, by omega⟩
      rw [Nat.count_succ, Nat.count_succ, ih (by omega)]
      simp only [List.contains_iff_mem, hlev]
  exact hcount LEVELS le_rfl

theorem levelsOf_le (t : SkipList) (p : ProcId) : t.levelsOf p ≤ LEVELS := Nat.count_le _

theorem levelsOf_eq_zero (h : ∀ k, InLevels k → p ∉ t.levelProcs k) : t.levelsOf p = 0 :=
  Nat.count_of_forall_not (fun k hk hm ↦ h k ⟨by omega, by omega⟩ (List.contains_iff_mem.mp hm))

namespace Rep

theorem mem_levelProcs (h : Rep vd t L) (hk : InLevels k) :
    p ∈ t.levelProcs k ↔ p ∈ procs L k := by
  rw [levelProcs_eq h hk]

theorem not_mem_levelProcs (h : Rep vd t L) (hp : p ∉ procs L 0) (hk : InLevels k) :
    p ∉ t.levelProcs k := by
  rw [h.mem_levelProcs hk]
  exact fun hm ↦ hp ((h.sub_bottom hk).subset hm)

theorem levelsOf_pos (h : Rep vd t L) : 0 < t.levelsOf p ↔ p ∈ procs L 0 := by
  constructor
  · intro hpos
    by_contra hp
    rw [levelsOf_eq_zero (fun k hk ↦ h.not_mem_levelProcs hp hk)] at hpos
    exact absurd hpos (Nat.lt_irrefl 0)
  · intro hp
    have h0 : p ∈ t.levelProcs ((0 : ℕ) : ℤ) := (h.mem_levelProcs inLevels_zero).mpr hp
    exact Nat.count_strict_mono (List.contains_iff_mem.mpr h0) levels_pos

theorem proc_iff (h : Rep vd t L) (hk : InLevels k) {j : ℕ} (hj : j ≤ NPROC) :
    (t.level (.cell k j)).proc = some p ↔ (j, p) ∈ L k := by
  have hlev := h.level k hk
  constructor
  · intro hproc
    have hj1 : 1 ≤ j := by
      by_contra h0
      rw [show j = 0 by omega, hlev.head_proc] at hproc
      cases hproc
    by_contra hm
    have hslot : j ∈ (L k).map Prod.fst := by
      by_contra hout
      rw [hlev.free j hj1 hj hout] at hproc
      cases hproc
    obtain ⟨e, he, rfl⟩ := List.mem_map.mp hslot
    have hholds := hlev.holds e he
    rw [ptr, hproc] at hholds
    injection hholds with hep
    exact hm (hep ▸ he)
  · exact fun hm ↦ hlev.holds (j, p) hm

end Rep

theorem Reported.congr (h : t.Reported) (ht : t'.maxSkiplistLevel q = t.maxSkiplistLevel q)
    (hl : t'.levelsOf q = t.levelsOf q) (hq : 0 < t'.levelsOf q) :
    t'.maxSkiplistLevel q = t'.levelsOf q := by
  rw [ht, hl]
  exact h q (hl ▸ hq)

section Insert

variable {r : ℤ} (h : Rep vd t L) (h' : Rep vd t' L') (hins : Inserted vd p t L L' 0 r)
include h h' hins

theorem Inserted.levelProcs_eq (hk : InLevels k) :
    t'.levelProcs k = if k < r then enqueue vd p (t.levelProcs k) else t.levelProcs k := by
  rw [SkipList.levelProcs_eq h' hk, SkipList.levelProcs_eq h hk]
  exact hins.procs_eq hk.1

theorem Inserted.levelsOf_self (hp : p ∉ procs L 0) : (t'.levelsOf p : ℤ) = r := by
  obtain ⟨n, rfl⟩ := Int.eq_ofNat_of_zero_le hins.low
  have hn : n ≤ LEVELS := by
    have := hins.high
    omega
  rw [levelsOf_eq hn]
  intro i hi
  have hk : InLevels i := ⟨by omega, by omega⟩
  rw [hins.levelProcs_eq h h' hk]
  split
  · simp only [mem_enqueue, true_or, true_iff]
    omega
  · have hout := h.not_mem_levelProcs hp hk
    simp only [hout, false_iff]
    omega

theorem Inserted.levelsOf_other (hq : q ≠ p) : t'.levelsOf q = t.levelsOf q := by
  refine levelsOf_congr (fun k hk ↦ ?_)
  rw [hins.levelProcs_eq h h' hk]
  split
  · simp only [mem_enqueue, hq, false_or]
  · rfl

theorem Inserted.reported (hp : p ∉ procs L 0)
    (hmax : t'.maxSkiplistLevel = Function.update t.maxSkiplistLevel p r) (ht : t.Reported) :
    t'.Reported := by
  intro q hq
  by_cases hqp : q = p
  · subst hqp
    rw [hmax, Function.update_self, hins.levelsOf_self h h' hp]
  · refine ht.congr ?_ (hins.levelsOf_other h h' hqp) hq
    rw [hmax, Function.update_of_ne hqp]

end Insert

section Delete

theorem filter_procs (h : Ordered vd L) (hk : InLevels k)
    (hL : L' k = (L k).filter (fun e ↦ e.2 ≠ p)) : procs L' k = (procs L k).erase p := by
  rw [← procs_removeEntry h hk, procs, hL, procs, removeEntry, Function.update_self]

variable (h : Rep vd t L) (h' : Rep vd t' L')
  (hL : ∀ k, InLevels k → L' k = (L k).filter (fun e ↦ e.2 ≠ p))
include h h' hL

theorem levelProcs_erase (hk : InLevels k) : t'.levelProcs k = (t.levelProcs k).erase p := by
  rw [levelProcs_eq h' hk, levelProcs_eq h hk]
  exact filter_procs h.toOrdered hk (hL k hk)

theorem not_mem_levelProcs_erase (hk : InLevels k) : p ∉ t'.levelProcs k := by
  rw [levelProcs_erase h h' hL hk, levelProcs_eq h hk]
  exact (h.nodup_at hk).not_mem_erase

theorem levelsOf_erase_other (hq : q ≠ p) : t'.levelsOf q = t.levelsOf q := by
  refine levelsOf_congr (fun k hk ↦ ?_)
  rw [levelProcs_erase h h' hL hk]
  exact List.mem_erase_of_ne hq

theorem reported_erase (hmax : t'.maxSkiplistLevel = Function.update t.maxSkiplistLevel p (-1))
    (ht : t.Reported) : t'.Reported := by
  intro q hq
  by_cases hqp : q = p
  · subst hqp
    rw [levelsOf_eq_zero (fun k hk ↦ not_mem_levelProcs_erase h h' hL hk)] at hq
    exact absurd hq (Nat.lt_irrefl 0)
  · refine ht.congr ?_ (levelsOf_erase_other h h' hL hqp) hq
    rw [hmax, Function.update_of_ne hqp]

end Delete

def Neighbour (t : SkipList) (p : ProcId) (a : NodePtr) : Prop :=
  ∃ k j, InLevels k ∧ j ≤ NPROC ∧ (t.level (.cell k j)).proc = some p ∧
    (a = (t.level (.cell k j)).prev ∨ a = (t.level (.cell k j)).next)

section Cells

variable {i : ℕ} (h : Rep vd t L) (hu : Unlinked p t L t') (hk : InLevels k)
include h hu hk

theorem Unlinked.cleared (hi : i ≤ NPROC) (hp : (t.level (.cell k i)).proc = some p) :
    t'.level (.cell k i) = ⟨none, .null, .null, .null⟩ := by
  rw [(hu k hk).2 i ((h.proc_iff hk hi).mp hp) i]
  exact unlinkedNode_self

theorem Unlinked.kept (hp : (t.level (.cell k i)).proc ≠ some p) :
    (t'.level (.cell k i)).proc = (t.level (.cell k i)).proc ∧
      (t'.level (.cell k i)).lower = (t.level (.cell k i)).lower ∧
      (¬ Neighbour t p (.cell k i) → t'.level (.cell k i) = t.level (.cell k i)) := by
  obtain ⟨hout, hin⟩ := hu k hk
  by_cases hm : p ∈ procs L k
  · obtain ⟨⟨j, q⟩, he, rfl⟩ := List.mem_map.mp hm
    have hj : j ≤ NPROC := ((h.level k hk).slot _ he).2
    have hproc := (h.proc_iff hk hj).mpr he
    have hne : NodePtr.cell k i ≠ .cell k j := by
      intro hc
      rw [hc] at hp
      exact hp hproc
    rw [hin j he i]
    refine ⟨unlinkedNode_proc hne, unlinkedNode_lower hne, fun hn ↦ unlinkedNode_level_ne hne ?_ ?_⟩
    · exact fun hc ↦ hn ⟨k, j, hk, hj, hproc, .inl hc⟩
    · exact fun hc ↦ hn ⟨k, j, hk, hj, hproc, .inr hc⟩
  · rw [hout hm i]
    exact ⟨rfl, rfl, fun _ ↦ rfl⟩

end Cells

end SkipList

open SkipList

variable {p : ProcId} {s : Kernel} {L : ℤ → List Entry}

/-- `insert` is sorted insertion on the lowest levels, one at least. -/
theorem insert_is_sorted_insertion (env : Env) (h : Rep s.deadline s.queue L)
    (hp : p ∉ procs L 0) :
    ∃ t' L' r, s.queue.insert env s.deadline p = .ok (t', r) ∧ 1 ≤ r ∧ r ≤ LEVELS ∧
      (∀ k, InLevels k → k < r → t'.levelProcs k =
        (s.queue.levelProcs k).takeWhile (fun q ↦ s.deadline q < s.deadline p) ++
          p :: (s.queue.levelProcs k).dropWhile (fun q ↦ s.deadline q < s.deadline p)) ∧
      (∀ k, InLevels k → r ≤ k → t'.levelProcs k = s.queue.levelProcs k ∧
        ∀ i, t'.level (.cell k i) = s.queue.level (.cell k i)) ∧
      Rep s.deadline t' L' ∧ (s.queue.Reported → t'.Reported) ∧
      t'.maxSkiplistLevel = Function.update s.queue.maxSkiplistLevel p r ∧
      s.insert (skipQueue env) p = .ok { s.emit (.inserted p) with queue := t' } := by
  obtain ⟨t', L', r, hok, hrep, hr, hins, hmax, hcells⟩ := insert_spec env h hp
  refine ⟨t', L', r, hok, hr, hins.high, fun k hk hkr ↦ ?_, fun k hk hkr ↦ ⟨?_, hcells k hkr⟩,
    hrep, hins.reported h hrep hp hmax, hmax, ?_⟩
  · rw [hins.levelProcs_eq h hrep hk, if_pos hkr, enqueue_eq_split]
  · rw [hins.levelProcs_eq h hrep hk, if_neg (by omega)]
  · simp only [Machine.insert, skipQueue, hok, ok_bind]

/-- The first process sleeps. Its deadline is that of the processes 2 and 3, between those of 1 and 4. -/
def asleep : Except Stop Kernel :=
  exec Kernel.step (withRandom (startOps ++ forkOps (-5) ++ forkOps 0 ++ forkOps 0 ++ forkOps 10 ++
    [.sleep .ticks])) (boot 1152)

theorem asleep_ensures : Ensures (fun s : Kernel ↦ (s.proc 0).state = .SLEEPING ∧
    [0, 1, 2, 3, 4].map s.deadline = [1050, 800, 1050, 1050, 1550] ∧
    [0, 1, 2, 3].map s.queue.levelProcs = [[1, 3, 2, 4], [1, 3, 4], [1, 3, 4], [3, 4]] ∧
    (s.queue.insert ⟨some none, random⟩ s.deadline 0).map Prod.snd = .ok 2)
    (fun _ ↦ False) asleep := by
  decide +kernel

theorem insert_is_sorted_insertion_between : ∃ (s : Kernel) (t' : SkipList), Reachable s ∧
    [0, 1, 2, 3, 4].map s.deadline = [1050, 800, 1050, 1050, 1550] ∧
    [0, 1, 2, 3].map s.queue.levelProcs = [[1, 3, 2, 4], [1, 3, 4], [1, 3, 4], [3, 4]] ∧
    s.queue.insert ⟨some none, random⟩ s.deadline 0 = .ok (t', 2) ∧
    [0, 1, 2, 3].map t'.levelProcs = [[1, 0, 3, 2, 4], [1, 0, 3, 4], [1, 3, 4], [3, 4]] := by
  obtain ⟨s, he, hstate, hdeadline, hlevels, hr⟩ := asleep_ensures.exists_ok
  have hs : Reachable s := ⟨_, _, he⟩
  obtain ⟨L, hL, hmem⟩ := hs.rep
  have h0 : (0 : ProcId) ∉ procs L 0 := by
    rw [hmem, hstate]
    exact nofun
  obtain ⟨t', -, r, hok, -, -, hlow, hhigh, -⟩ :=
    insert_is_sorted_insertion ⟨some none, random⟩ hL h0
  obtain rfl : r = 2 := by
    rw [hok] at hr
    exact Except.ok.inj hr
  refine ⟨s, t', hs, hdeadline, hlevels, hok, ?_⟩
  simp only [List.map_cons, List.map_nil, List.cons.injEq, and_true] at hdeadline hlevels ⊢
  obtain ⟨hd0, hd1, hd2, hd3, hd4⟩ := hdeadline
  obtain ⟨hl0, hl1, hl2, hl3⟩ := hlevels
  refine ⟨?_, ?_, ?_, ?_⟩
  · simp [hlow 0 ⟨by decide, by decide⟩ (by decide), hl0, hd0, hd1, hd3]
  · simp [hlow 1 ⟨by decide, by decide⟩ (by decide), hl1, hd0, hd1, hd3]
  · exact (hhigh 2 ⟨by decide, by decide⟩ le_rfl).1.trans hl2
  · exact (hhigh 3 ⟨by decide, by decide⟩ (by decide)).1.trans hl3

/-- `delete` takes one process off all its levels, from the highest down. -/
theorem delete_removes_one {env : Env} {w : Option ProcId} (h : Rep s.deadline s.queue L)
    (hr : s.queue.Reported) (hp : p ∈ procs L 0) (hw : env.wild = some w) (hwp : w ≠ some p) :
    ∃ t' L', s.queue.delete env s.deadline p = .ok (t', s.queue.levelsOf p) ∧
      (∃ m j, s.queue.deleteStart env s.deadline p = .ok (.cell m j) ∧ InLevels m ∧
        (s.queue.level (.cell m j)).proc = some p ∧
        ∀ k, m < k → InLevels k → p ∉ s.queue.levelProcs k) ∧
      (∀ k, InLevels k → t'.levelProcs k = (s.queue.levelProcs k).erase p) ∧
      (∀ k i, InLevels k → i ≤ NPROC → (s.queue.level (.cell k i)).proc = some p →
        t'.level (.cell k i) = ⟨none, .null, .null, .null⟩) ∧
      Rep s.deadline t' L' ∧ t'.Reported ∧
      t'.maxSkiplistLevel = Function.update s.queue.maxSkiplistLevel p (-1) ∧
      (∀ k i, InLevels k → (s.queue.level (.cell k i)).proc ≠ some p →
        (t'.level (.cell k i)).proc = (s.queue.level (.cell k i)).proc ∧
        (t'.level (.cell k i)).lower = (s.queue.level (.cell k i)).lower ∧
        (¬ Neighbour s.queue p (.cell k i) →
          t'.level (.cell k i) = s.queue.level (.cell k i))) ∧
      s.delete (skipQueue env) p = .ok { s with queue := t' } := by
  obtain ⟨t', L', hok, hrep, hL, hmax, hcells, m, j, hstart, hm, he, htop⟩ := delete_spec h hp hw hwp
  have hret : s.queue.maxSkiplistLevel p = s.queue.levelsOf p := hr p (h.levelsOf_pos.mpr hp)
  have hdel : s.delete (skipQueue env) p = .ok { s with queue := t' } := by
    simp only [Machine.delete, skipQueue, hok, ok_bind]
  rw [hret] at hok
  refine ⟨t', L', hok, ⟨m, j, hstart, hm, (h.level m hm).holds _ he, fun k hmk hk ↦ ?_⟩,
    fun k hk ↦ levelProcs_erase h hrep hL hk, fun k i hk hi ↦ hcells.cleared h hk hi, hrep,
    reported_erase h hrep hL hmax hr, hmax, fun k i hk ↦ hcells.kept h hk, hdel⟩
  rw [h.mem_levelProcs hk]
  exact htop k hmk hk

theorem delete_removes_one_twins : ∃ (s : Kernel) (t' : SkipList), Reachable s ∧
    s.deadline 0 = s.deadline 1 ∧
    s.queue.delete ⟨some none, random⟩ s.deadline 1 = .ok (t', s.queue.levelsOf 1) ∧
    t'.Reported ∧ t'.levelProcs 0 = (s.queue.levelProcs 0).erase 1 := by
  obtain ⟨s, hs, htwins, hr, hstate⟩ : ∃ s, Reachable s ∧ s.deadline 0 = s.deadline 1 ∧
      s.queue.Reported ∧ (s.proc 1).state = .RUNNABLE :=
    exists_reachable (startOps ++ forkOps 0) (by decide +kernel)
  obtain ⟨L, hL, hmem⟩ := hs.rep
  obtain ⟨t', -, hok, -, hlev, -, -, hr', -⟩ := delete_removes_one hL hr
    ((hmem 1).mpr (.inl hstate)) (show Env.wild ⟨some none, random⟩ = some none from rfl) (by simp)
  exact ⟨s, t', hs, htwins, hok, hr', hlev 0 inLevels_zero⟩

end Xv6Bfs.Sched

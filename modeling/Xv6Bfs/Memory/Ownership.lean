import Mathlib.Algebra.Order.BigOperators.Group.Finset
import Xv6Bfs.Memory.System

namespace Xv6Bfs.Memory

open Lib.Execution Lib.FiniteSum Function Vm
open Sched (ProcState ProcId)

variable {M : Machine} {data q : ℕ} {s s' : System} {i j k : ProcId} {t : Task} {m m' : Mem} {p : Slot}

def Slot.holds (p : Slot) (q : ℕ) : ℕ :=
  if p.state = .UNUSED then 0
  else holding p.kstack q + Pgdir.held (p.task.map (fun t ↦ t.pgdir)) q

/-- How often a page is held by anything that takes pages from `kalloc`. -/
def System.holds (s : System) (q : ℕ) : ℕ :=
  s.kpgdir.holds q + s.cpuStacks.count (some q) + ∑ i, (s.proc i).holds q +
    (s.pipes.map Pipe.page).count q

theorem Slot.holds_unused (h : p.state = .UNUSED) : p.holds q = 0 := if_pos h

theorem Slot.holds_used (h : p.state ≠ .UNUSED) (ht : p.task = some t) :
    p.holds q = holding p.kstack q + t.pgdir.holds q := by
  rw [holds, if_neg h, ht]
  rfl

namespace System

theorem slot_le : (s.proc i).holds q ≤ s.holds q := by
  have hle := Finset.single_le_sum (f := fun i ↦ (s.proc i).holds q) (fun _ _ ↦ Nat.zero_le _)
    (Finset.mem_univ i)
  rw [holds]
  omega

theorem slots_le (hne : i ≠ j) : (s.proc i).holds q + (s.proc j).holds q ≤ s.holds q := by
  have hle : ∑ k ∈ {i, j}, (s.proc k).holds q ≤ ∑ k, (s.proc k).holds q :=
    Finset.sum_le_sum_of_subset (Finset.subset_univ _)
  rw [Finset.sum_pair hne] at hle
  rw [holds]
  omega

theorem holds_set : (s.set i p m).holds q + (s.proc i).holds q = s.holds q + p.holds q := by
  have hsum := sum_update_add (Finset.mem_univ i) (fun p : Slot ↦ p.holds q) s.proc p
  simp only [holds, set]
  omega

theorem set_proc : (s.set i p m).proc i = p := update_self ..

theorem set_set {p' : Slot} {m' : Mem} : (s.set i p m).set i p' m' = s.set i p' m' := by
  simp only [set, update_idem]

theorem set_self : s.set i (s.proc i) m = { s with mem := m } := by
  simp only [set, update_eq_self]

end System

def Slot.Sound (data : ℕ) (p : Slot) : Prop :=
  p.state ≠ .UNUSED → p.state ≠ .EMBRYO ∧ p.kstack ≠ none ∧
    ∃ t, p.task = some t ∧ t.pgdir.Confined data t.sz

structure Sound (M : Machine) (data : ℕ) (s : System) : Prop where
  count : ∀ q, s.mem.freelist.count q + s.holds q = if Mem.Valid M q then 1 else 0
  kernel : ∀ v, v < 2 ^ 20 → s.kpgdir.tr v = kernelEntry data v
  slot : ∀ i, (s.proc i).Sound data

/-- The memory of a process is the same, whatever has been done about its parent. -/
structure Slot.Same (p p' : Slot) : Prop where
  state : p'.state = p.state
  kstack : p'.kstack = p.kstack
  task : p'.task = p.task

theorem Slot.Same.refl : p.Same p := ⟨rfl, rfl, rfl⟩

def Undisturbed (i : ProcId) (s s' : System) : Prop :=
  ∀ k, k ≠ i → (s.proc k).Active → (s.proc k).Same (s'.proc k) ∧
    ∀ q, 0 < (s.proc k).holds q → s'.mem.phys q = s.mem.phys q

namespace Sound

variable (h : Sound M data s)
include h

theorem le_one : s.mem.freelist.count q + s.holds q ≤ 1 := by
  rw [h.count q]
  split <;> omega

theorem valid (hq : 0 < s.holds q) : Mem.Valid M q := by
  have hcount := h.count q
  by_contra hno
  rw [if_neg hno] at hcount
  omega

theorem not_free (hq : 0 < s.holds q) : q ∉ s.mem.freelist := by
  have hone := h.le_one (q := q)
  exact List.count_eq_zero.mp (by omega)

theorem free (hq : q ∈ s.mem.freelist) : Mem.Valid M q := by
  have hpos := List.count_pos_iff.mpr hq
  have hcount := h.count q
  by_contra hno
  rw [if_neg hno] at hcount
  omega

theorem nodup : s.mem.freelist.Nodup := by
  refine List.nodup_iff_count_le_one.mpr (fun q ↦ ?_)
  have := h.le_one (q := q)
  omega

theorem of_conserves {a a' : ℕ → ℕ} (hcons : Conserves a s.mem a' s'.mem)
    (hle : ∀ q, a q ≤ s.holds q) (hsum : ∀ q, s'.holds q + a q = s.holds q + a' q)
    (hkernel : s'.kpgdir = s.kpgdir) (hslot : ∀ i, (s'.proc i).Sound data) : Sound M data s' := by
  refine ⟨fun q ↦ ?_, fun v hv ↦ by rw [hkernel, h.kernel v hv], hslot⟩
  rw [← h.count q]
  exact (hcons.of_part hle hsum).count q

theorem undisturbed {a a' : ℕ → ℕ} (hcons : Conserves a s.mem a' s'.mem)
    (hpart : ∀ k, k ≠ i → (s.proc k).Active →
      (s.proc k).Same (s'.proc k) ∧ ∀ q, a q + (s.proc k).holds q ≤ s.holds q) :
    Undisturbed i s s' := by
  intro k hk hactive
  obtain ⟨hsame, hle⟩ := hpart k hk hactive
  refine ⟨hsame, fun q hq ↦ hcons.phys q ?_⟩
  have hone := h.le_one (q := q)
  have := hle q
  omega

theorem set (hcons : Conserves (s.proc j).holds s.mem p.holds m) (hp : p.Sound data)
    (hj : j = i ∨ ¬ (s.proc j).Active) :
    Sound M data (s.set j p m) ∧ Undisturbed i s (s.set j p m) := by
  refine ⟨h.of_conserves hcons (fun q ↦ System.slot_le)
    (fun q ↦ System.holds_set) rfl (fun k ↦ ?_), h.undisturbed hcons ?_⟩
  · change (update s.proc j p k).Sound data
    by_cases hk : k = j
    · rwa [hk, update_self]
    · rw [update_of_ne hk]
      exact h.slot k
  · intro k hki hactive
    have hk : k ≠ j := by
      rintro rfl
      exact hj.elim hki (fun hno ↦ hno hactive)
    refine ⟨?_, fun q ↦ System.slots_le hk.symm⟩
    change (s.proc k).Same (update s.proc j p k)
    rw [update_of_ne hk]
    exact .refl

theorem kept (hu : (s.proc i).state ≠ .UNUSED) (ht : (s.proc i).task = some t) :
    t.pgdir.Kept M s.mem := by
  refine ⟨fun _ ↦ h.free, h.nodup, fun q hq ↦ ?_⟩
  have hle := System.slot_le (s := s) (i := i) (q := q)
  rw [Slot.holds_used hu ht] at hle
  exact ⟨h.valid (by omega), h.not_free (by omega)⟩

theorem confined (hu : (s.proc i).state ≠ .UNUSED) (ht : (s.proc i).task = some t) :
    t.pgdir.Confined data t.sz := by
  obtain ⟨-, -, t', ht', hc⟩ := h.slot i hu
  rw [ht] at ht'
  cases ht'
  exact hc

end Sound

end Xv6Bfs.Memory

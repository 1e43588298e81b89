import Xv6Bfs.Memory.Boot

namespace Xv6Bfs.Memory

open Lib.Execution Function Vm
open Sched (ProcState ProcId)

variable {M : Machine} {data q u v : ℕ} {s s' : System} {i j : ProcId} {t : Task}

/-- The process can use the page `q` in user mode, at the page `v` of its address space. -/
def Reaches (s : System) (i : ProcId) (v q : ℕ) : Prop :=
  (s.proc i).state ≠ .UNUSED ∧ v < 2 ^ 20 ∧
    ∃ t e, (s.proc i).task = some t ∧ t.pgdir.tr v = some e ∧ e.u = true ∧ e.ppn = q

/-- How often a page is a page directory or one of its page tables. -/
def inner (pgdir : Pgdir) (q : ℕ) : ℕ :=
  holding (some pgdir.page) q + ∑ k ∈ Finset.range 1024, holding (pgdir.tablePage k) q

/-- The page is free, or the kernel has it for itself: a page directory or a page table, the stack
of a process or of a processor, or a pipe. -/
def Internal (s : System) (q : ℕ) : Prop :=
  q ∈ s.mem.freelist ∨ 0 < s.kpgdir.holds q ∨ some q ∈ s.cpuStacks ∨ q ∈ s.pipes.map Pipe.page ∨
    ∃ i, (s.proc i).state ≠ .UNUSED ∧ ((s.proc i).kstack = some q ∨
      ∃ t, (s.proc i).task = some t ∧ 0 < inner t.pgdir q)

theorem inner_le {pgdir : Pgdir} : inner pgdir q ≤ pgdir.holds q := by
  rw [inner, Pgdir.holds]
  omega

theorem inner_lt {pgdir : Pgdir} (hv : v < 2 ^ 19) (hp : pgdir.userPage v = some q) :
    inner pgdir q < pgdir.holds q := by
  have hle := Finset.single_le_sum (f := fun v ↦ holding (pgdir.userPage v) q)
    (fun _ _ ↦ Nat.zero_le _) (Finset.mem_range.mpr hv)
  rw [hp, holding_self] at hle
  rw [inner, Pgdir.holds]
  omega

namespace Sound

variable (h : Sound M data s)
include h

theorem user_lt (hr : Reaches s i v q) : v < 2 ^ 19 := by
  obtain ⟨hu, hv, t, e, ht, he, huser, -⟩ := hr
  by_contra hno
  rw [(h.confined hu ht).kernel v (by omega) hv] at he
  rw [kernelEntry_user he] at huser
  cases huser

theorem holds_of_reaches (hr : Reaches s i v q) (ht : (s.proc i).task = some t) :
    v < 2 ^ 19 ∧ t.pgdir.userPage v = some q := by
  have hlt := h.user_lt hr
  obtain ⟨-, -, t', e, ht', he, -, rfl⟩ := hr
  rw [ht] at ht'
  cases ht'
  exact ⟨hlt, by rw [Pgdir.userPage, he]; rfl⟩

theorem slot_pos (hr : Reaches s i v q) : 0 < (s.proc i).holds q := by
  obtain ⟨hu, -, t, -, ht, -⟩ := id hr
  obtain ⟨hv, hp⟩ := h.holds_of_reaches hr ht
  have hlt := inner_lt hv hp
  rw [Slot.holds_used hu ht]
  omega

theorem not_internal (hr : Reaches s i v q) : ¬ Internal s q := by
  have hpos := h.slot_pos hr
  have hone := h.le_one (q := q)
  have hslot : (s.proc i).holds q ≤ ∑ k, (s.proc k).holds q :=
    Finset.single_le_sum (f := fun k ↦ (s.proc k).holds q) (fun _ _ ↦ Nat.zero_le _)
      (Finset.mem_univ i)
  rintro (hfree | hkernel | hstack | hpipe | ⟨j, hu, hj⟩)
  · exact h.not_free (hpos.trans_le System.slot_le) hfree
  · rw [System.holds] at hone
    omega
  · have := List.count_pos_iff.mpr hstack
    rw [System.holds] at hone
    omega
  · have := List.count_pos_iff.mpr hpipe
    rw [System.holds] at hone
    omega
  · obtain ⟨-, -, tj, htj, -⟩ := h.slot j hu
    have hholds := Slot.holds_used (q := q) hu htj
    have hinner : 0 < holding (s.proc j).kstack q + inner tj.pgdir q := by
      rcases hj with hk | ⟨t', ht', hk⟩
      · rw [hk, holding_self]
        omega
      · rw [htj] at ht'
        cases ht'
        exact Nat.add_pos_right _ hk
    by_cases hij : i = j
    · subst hij
      obtain ⟨hv, hp⟩ := h.holds_of_reaches hr htj
      have hlt := inner_lt hv hp
      have hle := System.slot_le (s := s) (i := i) (q := q)
      omega
    · have hle := System.slots_le (s := s) (q := q) hij
      have hpart : inner tj.pgdir q ≤ tj.pgdir.holds q := inner_le
      omega

theorem reaches_unique (hr : Reaches s i v q) (hr' : Reaches s j u q) : j = i ∧ u = v := by
  have hone := h.le_one (q := q)
  obtain rfl : i = j := by
    by_contra hij
    have hle := System.slots_le (s := s) (q := q) hij
    have hpos := h.slot_pos hr
    have hpos' := h.slot_pos hr'
    omega
  refine ⟨rfl, ?_⟩
  by_contra hne
  obtain ⟨hused, -, t, -, ht, -⟩ := id hr
  obtain ⟨hv, hp⟩ := h.holds_of_reaches hr ht
  obtain ⟨hu, hp'⟩ := h.holds_of_reaches hr' ht
  have htwo := Pgdir.two_le_holds hu hv hne hp' hp
  have hle := System.slot_le (s := s) (i := i) (q := q)
  rw [Slot.holds_used hused ht] at hle
  omega

end Sound

theorem Undisturbed.byte (h : Sound M data s) (hd : Undisturbed i s s') (hji : j ≠ i)
    (hactive : (s.proc j).Active) (ht : (s.proc j).task = some t) {a : ℕ} (ha : a < 2 ^ 32) :
    t.pgdir.byte s'.mem a = t.pgdir.byte s.mem a := by
  have hv : a / PGSIZE < 2 ^ 20 := by
    simp only [PGSIZE]
    omega
  cases he : t.pgdir.tr (a / PGSIZE) with
  | none => rw [Pgdir.byte, Pgdir.byte, he]
  | some e =>
    cases hu : e.u with
    | false => simp only [Pgdir.byte, he, hu, Bool.false_eq_true, if_false]
    | true =>
      have hr : Reaches s j (a / PGSIZE) e.ppn := ⟨hactive.1, hv, t, e, ht, he, hu, rfl⟩
      have hphys := (hd j hji hactive).2 e.ppn (h.slot_pos hr)
      rw [Pgdir.byte_of_tr he hu, Pgdir.byte_of_tr he hu, hphys]

/-- In user mode a process reaches only pages below `KERNBASE` that it shares with nobody, and never
those of the kernel, whose mappings are the same in all address spaces. -/
structure Private (M : Machine) (data : ℕ) (s : System) : Prop where
  user : ∀ i v q, Reaches s i v q → v * PGSIZE < KERNBASE ∧ Mem.Valid M q ∧ ¬ Internal s q ∧
    ∀ j u, Reaches s j u q → j = i ∧ u = v
  kernel : ∀ i t v, (s.proc i).state ≠ .UNUSED → (s.proc i).task = some t →
    KERNBASE ≤ v * PGSIZE → v < 2 ^ 20 → t.pgdir.tr v = kernelEntry data v

/-- Whatever a process does, by calls or by its own instructions, every other process that can run
has the same address space afterwards and reads the same bytes in it. -/
def Isolates (M : Machine) (data : ℕ) (s : System) : Prop :=
  ∀ i c s', step M data (i, c) s = .ok s' → ∀ j t, j ≠ i → (s.proc j).Active →
    (s.proc j).task = some t → (s'.proc j).Active ∧ (s'.proc j).task = some t ∧
      ∀ a, a < 2 ^ 32 → t.pgdir.byte s'.mem a = t.pgdir.byte s.mem a

section

variable {init : List UInt8} (h : Boots M data init)
include h

theorem user_memory_is_private : Always M data init (Private M data) := by
  refine always_of_sound h (fun s hs ↦ ⟨fun i v q hr ↦ ?_, fun i t v hu ht hv hlt ↦ ?_⟩)
  · exact ⟨user_page.mpr (hs.user_lt hr), hs.valid ((hs.slot_pos hr).trans_le System.slot_le),
      hs.not_internal hr, fun j u hr' ↦ hs.reaches_unique hr hr'⟩
  · refine (hs.confined hu ht).kernel v ?_ hlt
    by_contra hno
    exact absurd (user_page.mpr (Nat.lt_of_not_le hno)) (Nat.not_lt.mpr hv)

theorem processes_are_isolated : Always M data init (Isolates M data) := by
  refine always_of_sound h (fun s hs i c s' hstep j t hji hactive ht ↦ ?_)
  obtain ⟨-, hd⟩ := hs.step h.linked hstep
  obtain ⟨hsame, -⟩ := hd j hji hactive
  refine ⟨?_, hsame.task.trans ht, fun a ha ↦ hd.byte hs hji hactive ht ha⟩
  rw [Slot.Active, hsame.state]
  exact hactive

end

theorem user_memory_is_private_small :
    Always bootMachine smallData [] (Private bootMachine smallData) :=
  user_memory_is_private boots_small

theorem processes_are_isolated_small :
    Always bootMachine smallData [] (Isolates bootMachine smallData) :=
  processes_are_isolated boots_small

end Xv6Bfs.Memory

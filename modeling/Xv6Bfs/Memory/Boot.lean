import Xv6Bfs.Memory.Calls

namespace Xv6Bfs.Memory

open Lib.Execution Function Vm
open Sched (ProcState ProcId)

variable {M : Machine} {data : ℕ} {s : System} {m m' : Mem}

def range (lo hi q : ℕ) : ℕ := if lo ≤ q ∧ q < hi then 1 else 0

theorem range_cons {lo hi : ℕ} (h : lo < hi) :
    range lo hi = fun q ↦ range (lo + 1) hi q + holding (some lo) q := by
  funext q
  simp only [range, holding, Option.some.injEq]
  split <;> split <;> split <;> omega

theorem freeLoop_succ {x top fuel : ℕ} (hle : x ≤ top) (htop : top * PGSIZE ≤ PHYSTOP) :
    freeLoop M (P2V (top * PGSIZE)) (fuel + 1) (P2V (x * PGSIZE)) m =
      if x < top then do
        let m ← m.kfree M x
        freeLoop M (P2V (top * PGSIZE)) fuel (P2V ((x + 1) * PGSIZE)) m
      else .ok m := by
  have hbound : (P2V (x * PGSIZE) + PGSIZE) % 2 ^ 32 ≤ P2V (top * PGSIZE) ↔ x < top := by
    simp only [P2V, PGSIZE, KERNBASE, PHYSTOP] at *
    omega
  have hnext : (P2V (x * PGSIZE) + PGSIZE) % 2 ^ 32 = P2V ((x + 1) * PGSIZE) := by
    simp only [P2V, PGSIZE, KERNBASE, PHYSTOP] at *
    omega
  have hpage : V2P (P2V (x * PGSIZE)) / PGSIZE = x := by
    simp only [P2V, V2P, PGSIZE, KERNBASE]
    omega
  rw [freeLoop, hpage, if_congr hbound rfl rfl, hnext]

theorem freeLoop_ok {x top fuel : ℕ} (hle : x ≤ top) (hfuel : top - x < fuel)
    (hkend : M.kend ≤ P2V (x * PGSIZE)) (htop : top * PGSIZE ≤ PHYSTOP) :
    ∃ m', freeLoop M (P2V (top * PGSIZE)) fuel (P2V (x * PGSIZE)) m = .ok m' ∧
      Conserves (range x top) m (fun _ ↦ 0) m' ∧
      m'.freelist.length = m.freelist.length + (top - x) := by
  induction fuel generalizing x m with
  | zero => omega
  | succ fuel ih =>
    rw [freeLoop_succ hle htop]
    by_cases hlt : x < top
    · have hvalid : Mem.Valid M x := by
        simp only [Mem.Valid, P2V, PGSIZE, KERNBASE, PHYSTOP] at *
        omega
      have hkend' : M.kend ≤ P2V ((x + 1) * PGSIZE) :=
        hkend.trans (Nat.add_le_add_right (Nat.mul_le_mul_right _ (Nat.le_succ x)) _)
      have hfree := (kfree_ensures (m := m) (range (x + 1) top) hvalid).of_ok (Pgdir.kfree_ok hvalid)
      obtain ⟨m', hrun, hcons, hlen⟩ := ih (m := { m.fill x 1 with freelist := x :: m.freelist }) hlt
        (by omega) hkend'
      refine ⟨m', ?_, ?_, ?_⟩
      · rw [if_pos hlt, Pgdir.kfree_ok hvalid, ok_bind]
        exact hrun
      · rw [range_cons hlt]
        exact hfree.trans hcons
      · rw [hlen, List.length_cons]
        omega
    · refine ⟨m, if_neg hlt, ⟨fun q ↦ ?_, fun q _ ↦ rfl⟩, by omega⟩
      rw [range, if_neg (by omega)]

theorem le_pages {v : ℕ} (h : KERNBASE ≤ v) : v ≤ P2V (pages (V2P v) * PGSIZE) := by
  simp only [P2V, V2P, pages, PGSIZE, KERNBASE] at *
  omega

theorem freerange_ok (vstart top : ℕ) (hstart : KERNBASE ≤ vstart) (hkend : M.kend ≤ vstart)
    (hle : vstart ≤ P2V (top * PGSIZE)) (htop : top * PGSIZE ≤ PHYSTOP) :
    ∃ m', freerange M vstart (P2V (top * PGSIZE)) m = .ok m' ∧
      Conserves (range (pages (V2P vstart)) top) m (fun _ ↦ 0) m' ∧
      m'.freelist.length = m.freelist.length + (top - pages (V2P vstart)) := by
  have hpages : pages (V2P vstart) ≤ top := by
    simp only [P2V, V2P, pages, PGSIZE, KERNBASE, PHYSTOP] at *
    omega
  have hfirst : M.kend ≤ P2V (pages (V2P vstart) * PGSIZE) := hkend.trans (le_pages hstart)
  have hfuel : top - pages (V2P vstart) < 2 ^ 20 := by
    simp only [P2V, V2P, pages, PGSIZE, KERNBASE, PHYSTOP] at *
    omega
  have hround : PGROUNDUP vstart = P2V (pages (V2P vstart) * PGSIZE) := by
    simp only [PGROUNDUP, P2V, V2P, pages, PGSIZE, KERNBASE, PHYSTOP] at *
    omega
  obtain ⟨m', hrun, hrest⟩ := freeLoop_ok (m := m) hpages hfuel hfirst htop
  refine ⟨m', ?_, hrest⟩
  rw [freerange, if_neg (Nat.not_lt.mpr hle), hround, hrun]
  rfl

theorem tablesFor_le (lo hi a b : ℕ) (ha : a * 1024 ≤ lo) (hb : hi ≤ b * 1024) :
    Pgdir.tablesFor lo hi ≤ b - a + 1 := by
  rw [Pgdir.tablesFor]
  omega

theorem kernelTables_le (hl : Linked data) : kernelTables (kmap data) ≤ 125 := by
  obtain ⟨h1, h2⟩ := hl.page
  have hio := tablesFor_le 0x80000 0x80100 512 513 (by omega) (by omega)
  have htext := tablesFor_le 0x80100 (data / PGSIZE) 512 568 (by omega) (by omega)
  have hmemory := tablesFor_le (data / PGSIZE) 0x8E000 512 568 (by omega) (by omega)
  have hdevices := tablesFor_le 0xFE000 0x100000 1016 1024 (by omega) (by omega)
  rw [kernelTables, kmap, List.foldr_cons, List.foldr_cons, List.foldr_cons, List.foldr_cons,
    List.foldr_nil, covers_io.tables, (covers_text hl).tables, (covers_memory hl).tables,
    covers_devices.tables]
  exact Nat.add_le_add hio (Nat.add_le_add htext (Nat.add_le_add hmemory hdevices))

section Plenty

/-! At boot, only one processor uses the allocator, and there are pages enough. -/

variable (halone : ∀ i, M.fails i = false)
include halone

theorem not_short {k : ℕ} (hlen : k < m.freelist.length) : ¬ Short M m k := by
  rintro (⟨i, hi⟩ | hle)
  · rw [halone i] at hi
    cases hi
  · omega

theorem kalloc_plenty (hlen : 0 < m.freelist.length) : ∃ p m', m.kalloc M = (some p, m') ∧
    m'.freelist.length + 1 = m.freelist.length := by
  cases hk : m.kalloc M with
  | mk r m' =>
    cases r with
    | none => exact absurd (kalloc_none hk).2 (not_short halone hlen)
    | some p =>
      refine ⟨p, m', rfl, ?_⟩
      rw [(kalloc_eq_some hk).1, List.length_cons]

theorem setupkvm_plenty (hl : Linked data) (hfree : ∀ p ∈ m.freelist, Mem.Valid M p)
    (hlen : 126 < m.freelist.length) : ∃ pgdir m', Pgdir.setupkvm M data m = .ok (some pgdir, m') ∧
      (∀ v, v < 2 ^ 20 → pgdir.tr v = kernelEntry data v) ∧
      Conserves (fun _ ↦ 0) m pgdir.holds m' ∧ m.freelist.length ≤ m'.freelist.length + 126 := by
  have htables := kernelTables_le hl
  have hshort : ¬ Short M m (1 + kernelTables (kmap data)) := not_short halone (by omega)
  obtain ⟨⟨r, m'⟩, hrun, hcons, hkernel⟩ := (((Pgdir.setupkvm_conserves hfree hl).and
    (Pgdir.setupkvm_ensures hl)).weaken (fun _ h ↦ h.1)).exists_ok
  cases r with
  | none => exact absurd hkernel hshort
  | some pgdir =>
    have hk : Pgdir.Kernel data m pgdir m' := hkernel
    have hcount := hk.draws.count
    exact ⟨pgdir, m', hrun, hk.tr, hcons, by omega⟩

theorem inituvm_plenty {pgdir : Pgdir} {init : List UInt8} (hn : pgdir.tr 0 = none)
    (hinit : init.length < PGSIZE) (hlen : 2 < m.freelist.length) :
    ∃ pgdir' m' e, pgdir.inituvm M init m = .ok (pgdir', m') ∧
      Conserves pgdir.holds m pgdir'.holds m' ∧
      ∀ v, v < 2 ^ 20 → pgdir'.tr v = if v = 0 then some e else pgdir.tr v := by
  obtain ⟨p, m₁, hk, hlen₁⟩ := kalloc_plenty halone (Nat.lt_of_lt_of_le Nat.two_pos hlen.le)
  have hcons₁ : Conserves pgdir.holds m (fun q ↦ pgdir.holds q + holding (some p) q) (m₁.fill p 0) :=
    conserves_kalloc_some hk
  have hmap : Ensures _ (fun _ ↦ False)
      (pgdir.mappages M (0 * PGSIZE) PGSIZE p true true (m₁.fill p 0)) :=
    ((Pgdir.mappage_ensures (by omega) hn).and (Pgdir.conserves_mappage (by omega))).weaken
      (fun _ h ↦ h.1)
  rw [Nat.zero_mul] at hmap
  obtain ⟨⟨mapped, pgdir', m₂⟩, hrun, ⟨-, -, hr⟩, hc⟩ := hmap.exists_ok
  have hshort : ¬ Short M (m₁.fill p 0) 1 := not_short halone (by
    change 1 < m₁.freelist.length
    omega)
  obtain ⟨rfl, htr⟩ := hr.resolve_right (fun h ↦ hshort h.2.2)
  have hself : pgdir'.tr 0 = some ⟨p, true, true⟩ := (htr 0 (by omega)).trans (if_pos rfl)
  refine ⟨pgdir', m₂.write p 0 init, _, ?_, ?_, htr⟩
  · rw [Pgdir.inituvm, if_neg (Nat.not_le.mpr hinit), hk]
    dsimp only
    rw [hrun]
    rfl
  · refine (hcons₁.trans hc).trans ?_
    exact (conserves_write (e := ⟨p, true, true⟩) (by omega) hself).of_part (fun q ↦ by simp) (fun q ↦ by simp)

theorem Sound.userinit (h : Sound M data s) {init : List UInt8} (hl : Linked data)
    (hunused : ∃ j, (s.proc j).state = .UNUSED) (hinit : init.length < PGSIZE)
    (hlen : 129 < s.mem.freelist.length) :
    Ensures (Sound M data) (fun _ ↦ False) (s.userinit M data init) := by
  obtain ⟨s', hs', hcase⟩ | ⟨j, a, m, hj, hk, hs'⟩ := allocproc_cases (M := M) s
  · rcases hcase with ⟨-, hno⟩ | ⟨j, m, -, hk, -⟩
    · obtain ⟨j, hj⟩ := hunused
      exact absurd hj (hno j)
    · exact absurd (kalloc_none hk).2 (not_short halone (Nat.zero_lt_of_lt hlen))
  · obtain ⟨hfree, -⟩ := kalloc_eq_some hk
    have hlen₁ : m.freelist.length + 1 = s.mem.freelist.length := by rw [hfree, List.length_cons]
    have hvalid (q : ℕ) (hq : q ∈ m.freelist) : Mem.Valid M q :=
      h.free (by rw [hfree]; exact List.mem_cons_of_mem _ hq)
    obtain ⟨pgdir, m₁, hsetup, htr, hcons₁, hlen₂⟩ := setupkvm_plenty halone hl hvalid (by omega)
    have hzero : pgdir.tr 0 = none := by
      rw [htr 0 (by omega)]
      exact kernelEntry_none hl (.inl (by omega))
    obtain ⟨pgdir', m₂, e, hrun, hcons₂, htr'⟩ :=
      inituvm_plenty halone (m := m₁) hzero hinit (by omega)
    have hconf : pgdir'.Confined data PGSIZE := by
      refine ⟨by decide, fun v hv hmapped ↦ ?_, fun v h1 h2 ↦ ?_⟩
      · rw [htr' v (by omega)] at hmapped
        split at hmapped
        · rename_i hv
          rw [hv]
          decide
        · rw [htr v (by omega)] at hmapped
          exact absurd (kernelEntry_none hl (.inl (by omega))) hmapped
      · rw [htr' v h2, if_neg (by omega), htr v h2]
    have hstack := conserves_kalloc (fun _ ↦ 0) hk
    have hsound : Sound M data (s.set j { s.proc j with
        state := .RUNNABLE, kstack := some a, task := some (System.initTask pgdir') } m₂) := by
      refine (h.setUnused (i := j) hj
        (fun _ ↦ ⟨ProcState.noConfusion, Option.some_ne_none _, _, rfl, hconf⟩) ?_).1
      refine (hstack.trans ((hcons₁.trans hcons₂).frame (holding (some a)))).congr (fun q ↦ ?_)
      rw [Slot.holds_used (t := System.initTask pgdir') ProcState.noConfusion rfl, Nat.add_comm]
      rfl
    rw [System.userinit, hs']
    dsimp only
    rw [System.set_proc, show (s.set j _ m).mem = m from rfl, hsetup]
    change Ensures _ _ ((pgdir.inituvm M init m₁).mapError Stop.vm >>= _)
    rw [hrun]
    change Sound M data { System.set _ j _ m₂ with initproc := j }
    rw [System.set_set]
    exact ⟨hsound.count, hsound.kernel, hsound.slot⟩

end Plenty

theorem startothers_conserves (n : ℕ) (m : Mem) :
    Conserves (fun _ ↦ 0) m (fun q ↦ (startothers M n m).1.count (some q)) (startothers M n m).2 ∧
      m.freelist.length ≤ (startothers M n m).2.freelist.length + n := by
  induction n generalizing m with
  | zero => exact ⟨.refl, Nat.le_refl _⟩
  | succ n ih =>
    rw [startothers]
    cases hk : m.kalloc M with
    | mk r m₁ =>
      obtain ⟨hcons, hlen⟩ := ih m₁
      cases r with
      | none =>
        have hnone : Conserves (fun _ ↦ 0) m (fun _ ↦ 0) m₁ := conserves_kalloc_none hk
        refine ⟨(hnone.trans hcons).congr (fun q ↦ ?_), ?_⟩
        · exact List.count_cons_of_ne (by simp)
        · have := (kalloc_none hk).1.count
          dsimp only at hlen ⊢
          omega
      | some a =>
        have hsome := conserves_kalloc (fun _ ↦ 0) hk
        refine ⟨(hsome.trans (hcons.frame (holding (some a)))).congr (fun q ↦ ?_), ?_⟩
        · dsimp only
          rw [List.count_cons, holding]
          congr 1
          simp
        · rw [(kalloc_eq_some hk).1, List.length_cons]
          dsimp only at hlen ⊢
          omega

/-- The machine while only one processor allocates pages: `kalloc` finds a page if there is one. -/
def alone (M : Machine) : Machine := { M with fails := fun _ ↦ false }

theorem range_add_range (hend : M.kend ≤ P2V (1024 * PGSIZE)) (q : ℕ) :
    range (pages (V2P M.kend)) 1024 q + range 1024 57344 q = if Mem.Valid M q then 1 else 0 := by
  have hgt := M.kend_gt
  have hvalid : Mem.Valid M q ↔ pages (V2P M.kend) ≤ q ∧ q < 57344 := by
    simp only [Mem.Valid, V2P, P2V, pages, PGSIZE, KERNBASE, PHYSTOP] at *
    omega
  have hle : pages (V2P M.kend) ≤ 1024 := by
    simp only [V2P, P2V, pages, PGSIZE, KERNBASE] at *
    omega
  simp only [range, hvalid]
  split <;> split <;> split <;> omega

theorem holds_noProc {kpgdir : Pgdir} {cpuStacks : List (Option ℕ)} {q : ℕ} :
    System.holds ⟨kpgdir, cpuStacks, 0, fun _ ↦ noProc, [], m⟩ q =
      kpgdir.holds q + cpuStacks.count (some q) := by
  have hnone : noProc.holds q = 0 := Slot.holds_unused rfl
  simp only [System.holds, hnone, Finset.sum_const_zero, List.map_nil, List.count_nil, Nat.add_zero]

/-- The assumptions on the kernel: it ends a megabyte before the fourth, and the program of the first
process is less than a page. -/
structure Boots (M : Machine) (data : ℕ) (init : List UInt8) : Prop where
  linked : Linked data
  room : M.kend + 0x100000 ≤ P2V (1024 * PGSIZE)
  init : init.length < PGSIZE

/-- The kernel boots, and `P` holds in every state that it comes to afterwards. -/
def Always (M : Machine) (data : ℕ) (init : List UInt8) (P : System → Prop) : Prop :=
  ∀ ncpu phys, ∃ s₀, main (alone M) data ncpu init phys = .ok s₀ ∧
    ∀ calls s, Lib.Execution.exec (step M data) calls s₀ = .ok s → P s

variable {init : List UInt8} (h : Boots M data init)
include h

theorem main_sound (ncpu : ℕ) (phys : ℕ → ℕ → UInt8) :
    ∃ s, main (alone M) data ncpu init phys = .ok s ∧ Sound M data s := by
  obtain ⟨hl, hend, hinit⟩ := h
  have halone (i : ℕ) : (alone M).fails i = false := rfl
  have hend' : M.kend ≤ P2V (1024 * PGSIZE) := (Nat.le_add_right _ _).trans hend
  have hgt : KERNBASE ≤ M.kend := M.kend_gt.le
  have hpool := range_add_range hend'
  have hfirst : pages (V2P M.kend) + 256 ≤ 1024 := by
    simp only [V2P, P2V, pages, PGSIZE, KERNBASE] at *
    omega
  obtain ⟨m₁, hrun₁, hcons₁, hlen₁⟩ := freerange_ok (M := alone M) (m := ⟨[], 0, phys⟩) M.kend 1024
    hgt (Nat.le_refl M.kend) hend' (by decide)
  have hvalid₁ (q : ℕ) (hq : q ∈ m₁.freelist) : Mem.Valid (alone M) q := by
    have hpos := List.count_pos_iff.mpr hq
    have hcount : m₁.freelist.count q + 0 = 0 + range (pages (V2P M.kend)) 1024 q := hcons₁.count q
    have hsum := hpool q
    by_contra hno
    change ¬ Mem.Valid M q at hno
    rw [if_neg hno] at hsum
    omega
  obtain ⟨kpgdir, m₂, hrun₂, htr, hcons₂, hlen₂⟩ := setupkvm_plenty halone hl hvalid₁ (by omega)
  obtain ⟨hcons₃, hlen₃⟩ := startothers_conserves (M := alone M) (ncpu - 1) m₂
  obtain ⟨m₄, hrun₄, hcons₄, hlen₄⟩ := freerange_ok (M := alone M)
    (m := (startothers (alone M) (ncpu - 1) m₂).2) (P2V (1024 * PGSIZE)) 57344
    (by decide) hend' (by decide) (by decide)
  have hsecond : pages (V2P (P2V (1024 * PGSIZE))) = 1024 := by decide
  have hsound : Sound (alone M) data
      ⟨kpgdir, (startothers (alone M) (ncpu - 1) m₂).1, 0, fun _ ↦ noProc, [], m₄⟩ := by
    refine ⟨fun q ↦ ?_, htr, fun i hno ↦ absurd rfl hno⟩
    have h₁ : m₁.freelist.count q + 0 = 0 + range (pages (V2P M.kend)) 1024 q := hcons₁.count q
    have h₂ := hcons₂.count q
    have h₃ := hcons₃.count q
    have h₄ := hcons₄.count q
    rw [hsecond] at h₄
    rw [holds_noProc, show (if Mem.Valid (alone M) q then 1 else 0) = _ from (hpool q).symm]
    dsimp only at h₂ h₃ h₄ ⊢
    omega
  obtain ⟨s, hrun, hs⟩ := (hsound.userinit halone hl ⟨0, rfl⟩ hinit (by
    rw [hsecond] at hlen₄
    change 129 < m₄.freelist.length
    omega)).exists_ok
  refine ⟨s, ?_, hs.count, hs.kernel, hs.slot⟩
  rw [main]
  change (freerange (alone M) M.kend (P2V (1024 * PGSIZE)) ⟨[], 0, phys⟩ >>= _) = _
  rw [hrun₁, ok_bind, hrun₂]
  change (freerange (alone M) (P2V (1024 * PGSIZE)) (P2V (57344 * PGSIZE))
    (startothers (alone M) (ncpu - 1) m₂).2 >>= _) = _
  rw [hrun₄]
  exact hrun

theorem always_of_sound {P : System → Prop} (hP : ∀ s, Sound M data s → P s) :
    Always M data init P := by
  intro ncpu phys
  obtain ⟨s₀, hmain, hs₀⟩ := main_sound h ncpu phys
  exact ⟨s₀, hmain, fun calls s hrun ↦ hP s
    (exec_invariant (fun c s s' hs hstep ↦ (hs.step h.linked hstep).1) hs₀ hrun)⟩

/-- A page that `kalloc` manages is on the free list or held by one of its users, once in all, and
any other page not at all. -/
def OneOwner (M : Machine) (s : System) : Prop :=
  ∀ q, s.mem.freelist.count q + s.holds q = if Mem.Valid M q then 1 else 0

/-- Whatever processes do, every page has one owner. -/
theorem every_page_has_one_owner : Always M data init (OneOwner M) :=
  always_of_sound h (fun _ hs ↦ hs.count)

def StopsAsKnown (M : Machine) (data : ℕ) (s : System) : Prop :=
  ∀ i c e, step M data (i, c) s = .error e → ∃ t, (s.proc i).task = some t ∧ Excused i t s c e

/-- No call makes `kfree`, `mappages` or another part of the memory system panic, but for the exit
of `init`, a fork after all memory was given back, and long arguments of `exec`. -/
theorem memory_calls_do_not_panic : Always M data init (StopsAsKnown M data) := by
  refine always_of_sound h (fun s hs i c e hstep ↦ ?_)
  rw [step] at hstep
  split at hstep
  · split at hstep
    · exact ⟨_, ‹_›, (hs.call h.linked ‹_› ‹_› c).of_error hstep⟩
    · cases hstep
  · cases hstep

omit h

def bootMachine : Machine := ⟨KERNBASE + 0x200000, fun _ ↦ false, by decide⟩

theorem boots_small : Boots bootMachine smallData [] := ⟨linked_small, by decide, by decide⟩

theorem every_page_has_one_owner_small : Always bootMachine smallData [] (OneOwner bootMachine) :=
  every_page_has_one_owner boots_small

theorem memory_calls_do_not_panic_small :
    Always bootMachine smallData [] (StopsAsKnown bootMachine smallData) :=
  memory_calls_do_not_panic boots_small

end Xv6Bfs.Memory

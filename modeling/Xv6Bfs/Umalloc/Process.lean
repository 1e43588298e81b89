import Xv6Bfs.Umalloc.Sound
import Xv6Bfs.Vm.Holdings
import Xv6Bfs.Vm.Sbrk

namespace Xv6Bfs.Umalloc

open Lib.Execution Lib.Tiling Vm

/-- A panic of the kernel, or a loop of the library that does not stop. -/
inductive Fault
  | kernel (p : Vm.Panic)
  | library (s : Stop)
  deriving DecidableEq, Repr

structure Space where
  proc : Vm.Proc
  mem : Vm.Mem

/-- A `uint` that is passed as an `int`. -/
def asInt (n : ℕ) : ℤ := if n < 2 ^ 31 then n else n - 2 ^ 32

def kernelOf (M : Machine) : Kernel Space Fault where
  sbrk n s := do
    let (addr, proc, mem) ← (sysSbrk M (some (asInt n)) s.kernel.proc s.kernel.mem).mapError .kernel
    .ok (if addr = -1 then none else some addr.toNat, ⟨{ s.heap with brk := proc.sz }, ⟨proc, mem⟩⟩)
  stop := .library

namespace Process

variable (M : Machine)

/-- The break is the size of the process, its pages are mapped, and each page has one place. -/
structure Backed (s : Process Space) : Prop where
  brk : s.heap.brk = s.kernel.proc.sz
  size : s.kernel.proc.sz < KERNBASE
  maps : Maps s.kernel.proc.sz s.kernel.proc.pgdir
  single : ∀ q, s.kernel.mem.freelist.count q + s.kernel.proc.pgdir.holds q ≤ 1
  valid : ∀ q, 0 < s.kernel.mem.freelist.count q + s.kernel.proc.pgdir.holds q → Mem.Valid M q

structure WellFormed (base lo : ℕ) (s : Process Space) : Prop where
  heap : Reached base lo s.heap
  backed : s.Backed M

/-- The request is met with a block of at least that size, in memory of the process and apart from the
blocks in use, or it is refused. -/
def Enough (base lo nbytes : ℕ) (s : Process Space) : Prop :=
  ∃ s' ap, s.malloc (kernelOf M) base nbytes = .ok (s', ap) ∧ s'.heap.live = s.heap.live ∧
    WellFormed M base lo { s' with heap := s'.heap.record ap nbytes } ∧
    (s'.heap.record ap nbytes).Sound base lo ∧ s'.heap.brk = s'.kernel.proc.sz ∧
    (∀ a, a < s'.kernel.proc.sz → s'.kernel.proc.pgdir.tr (a / PGSIZE) ≠ none) ∧
    (ap ≠ 0 → lo ≤ ap ∧ ap + nbytes ≤ s'.kernel.proc.sz ∧
      ∀ x ∈ s.heap.live, ap + nbytes ≤ x.1 ∨ x.1 + x.2 ≤ ap)

end Process

section Growth

variable {M : Machine} {s : Process Space} {n : ℕ}

theorem growproc_conserves {p : Vm.Proc} {m : Vm.Mem} {k : ℤ} (hk : 0 < k) :
    Ensures (fun r ↦ Conserves p.pgdir.holds m r.2.1.pgdir.holds r.2.2) (fun _ ↦ True)
      (growproc M k p m) := by
  rw [growproc, if_pos hk]
  refine Pgdir.conserves_allocuvm.bind fun r hr ↦ ?_
  dsimp only
  split
  · exact hr
  · exact hr

theorem Process.Backed.owns (h : s.Backed M) : Owns M s.kernel.proc.pgdir s.kernel.mem where
  free := fun q hq ↦ h.valid q (Nat.add_pos_left (List.count_pos_iff.mpr hq) _)
  mapped := fun v e hv he ↦ by
    have hpos := Pgdir.holds_pos (user_page.mp hv) he
    refine ⟨h.valid _ (Nat.add_pos_right _ hpos), List.count_eq_zero.mp ?_⟩
    have hone := h.single e.ppn
    omega

theorem Process.Backed.step {p : Vm.Proc} {m : Vm.Mem} {heap : Heap} (h : s.Backed M)
    (hbrk : heap.brk = p.sz) (hsize : p.sz < KERNBASE) (hmaps : Maps p.sz p.pgdir)
    (hcons : Conserves s.kernel.proc.pgdir.holds s.kernel.mem p.pgdir.holds m) :
    Process.Backed M ⟨heap, p, m⟩ where
  brk := hbrk
  size := hsize
  maps := hmaps
  single := fun q ↦ (hcons.count q).trans_le (h.single q)
  valid := fun q hq ↦ h.valid q (hcons.count q ▸ hq)

theorem maps_of_noEffect {p : Vm.Proc} {m : Vm.Mem} {r : ℤ × Vm.Proc × Vm.Mem} (h : NoEffect p m r)
    (hmaps : Maps p.sz p.pgdir) : Maps r.2.1.sz r.2.1.pgdir := by
  intro v hv
  rw [(h.2.2 v hv).1, h.2.1]
  exact hmaps v hv

theorem Process.Backed.sbrk (h : s.Backed M) (h0 : 0 < n) (hn : n < 2 ^ 31) :
    ∃ r, (kernelOf M).sbrk n s = .ok r ∧ r.2.Backed M ∧
      (r.1 = none ∧ r.2.heap = s.heap ∨
        r.1 = some s.heap.brk ∧ r.2.heap = { s.heap with brk := s.heap.brk + n }) := by
  have hint : asInt n = n := if_pos hn
  have hpos : 0 < asInt n := by omega
  have hrange : Vm.Int32 (asInt n) := by
    rw [hint]
    exact ⟨by omega, by omega⟩
  obtain ⟨⟨grown, p, m⟩, hrun, hout, hcons⟩ := ((grow_ensures h.size h.maps h.owns hpos hrange).and
    (growproc_conserves hpos)).weaken (fun _ he ↦ he.1) |>.exists_ok
  dsimp only [kernelOf]
  rw [sysSbrk, hrun, ok_bind]
  rcases hout with ⟨hgrown, -, hsz, hsize, hmaps⟩ | ⟨hgrown, hno⟩
  · obtain rfl : grown = true := hgrown
    refine ⟨_, rfl, h.step rfl hsize hmaps hcons, .inr ⟨?_, ?_⟩⟩
    · dsimp only
      rw [if_neg (by omega), Int.toNat_natCast, h.brk]
    · dsimp only at hsz ⊢
      rw [show p.sz = s.heap.brk + n by rw [h.brk]; omega]
  · obtain rfl : grown = false := hgrown
    have hsz : p.sz = s.kernel.proc.sz := hno.2.1
    refine ⟨_, rfl, h.step rfl (hsz ▸ h.size) (maps_of_noEffect hno h.maps) hcons, .inl ⟨rfl, ?_⟩⟩
    dsimp only
    rw [hsz, ← h.brk]

theorem kernelOf_grants : (kernelOf M).Grants (Process.Backed M) where
  sbrk := Process.Backed.sbrk
  heap h hbrk := ⟨hbrk.trans h.brk, h.size, h.maps, h.single, h.valid⟩

theorem Process.Backed.mapped (h : s.Backed M) {a : ℕ} (ha : a < s.kernel.proc.sz) :
    s.kernel.proc.pgdir.tr (a / PGSIZE) ≠ none := by
  have hsize := h.size
  have hle := Nat.div_mul_le_self a PGSIZE
  refine (h.maps (a / PGSIZE) (by omega)).mpr ?_
  rw [PGROUNDUP_eq (Nat.le_of_lt hsize)]
  exact Nat.mul_lt_mul_of_pos_right (lt_pages.mpr (by omega)) (by decide)

end Growth

section Request

variable {M : Machine} {s : Process Space} {base lo nbytes : ℕ}

theorem sound_apart {heap : Heap} {ap : ℕ} {l : List (ℕ × ℕ)} (h : heap.Sound base lo)
    (hlive : heap.live = (ap, nbytes) :: l) {x : ℕ × ℕ} (hx : x ∈ l) :
    ap + nbytes ≤ x.1 ∨ x.1 + x.2 ≤ ap := by
  have hap := h.room (ap, nbytes) (by rw [hlive]; exact List.mem_cons_self)
  have hxr := h.room x (by rw [hlive]; exact List.mem_cons_of_mem _ hx)
  have hpair := h.apart
  rw [Heap.headers, hlive, List.map_cons, List.pairwise_cons] at hpair
  have hor : heap.Apart (ap - HEADER) (x.1 - HEADER) := hpair.1 _ (List.mem_map_of_mem hx)
  rw [Heap.Apart] at hor
  dsimp only at hap
  omega

theorem Process.WellFormed.enough (hpos : 0 < base) (hbase : base + HEADER ≤ lo)
    (h : s.WellFormed M base lo) (hn : HEADER * ((nbytes + HEADER - 1) / HEADER + 1) < 2 ^ 31) :
    s.Enough M base lo nbytes := by
  have hlt : base < lo := by
    have := Layout.header_pos
    omega
  obtain ⟨s', ap, hrun, hback, hlive, hreach⟩ := h.heap.malloc kernelOf_grants h.backed hpos hlt hn
  have hsound := hreach.sound hlt
  have hrecord : (s'.heap.record ap nbytes).brk = s'.heap.brk := by
    rw [Heap.record]
    split <;> rfl
  refine ⟨s', ap, hrun, hlive, ⟨hreach, kernelOf_grants.heap hback hrecord⟩, hsound, hback.brk,
    fun a ha ↦ hback.mapped ha, fun hap ↦ ?_⟩
  rw [Heap.record, if_neg hap] at hsound
  have hlive' : (ap, nbytes) :: s'.heap.live = (ap, nbytes) :: s.heap.live := by rw [hlive]
  have hin := hsound.inside (ap - HEADER) List.mem_cons_self
  have hroom := hsound.room (ap, nbytes) List.mem_cons_self
  refine ⟨by omega, ?_, fun x hx ↦ sound_apart hsound hlive' hx⟩
  rw [← hback.brk]
  exact hroom.trans hin.2

/-- The first call of `free`, with an empty list. -/
theorem free_first {heap : Heap} {hp : ℕ} (hlt : base < hp) (hfreep : heap.freep = base)
    (hptr : heap.ptr base = base) (hsize : heap.size base = 0) :
    ∃ heap', heap.free (Heap.plus hp 1) = .ok heap' ∧ heap'.freep = base ∧ heap'.ptr base = hp ∧
      heap'.size hp = heap.size hp := by
  have hloop : Heap.freeLoop hp heap (heap.brk + 2) base = .ok base := by
    rw [Heap.freeLoop, hptr, if_neg (by omega), if_pos ⟨Nat.le_refl _, .inl hlt⟩]
  have hnext : heap.joinNext hp base = heap.setPtr hp base := by
    rw [Heap.joinNext, hptr, if_neg (by rw [Heap.plus]; omega)]
  have hprev : (heap.setPtr hp base).joinPrev hp base = (heap.setPtr hp base).setPtr base hp := by
    rw [Heap.joinPrev, Heap.setPtr_size, hsize, if_neg (by rw [Heap.plus]; omega)]
  refine ⟨((heap.setPtr hp base).setPtr base hp).setFreep base, ?_, rfl, ?_, ?_⟩
  · rw [Heap.free, Heap.plus, Nat.mul_one, Nat.add_sub_cancel, hfreep, hloop, ok_bind, hnext, hprev]
  · rw [Heap.setFreep_ptr, Heap.setPtr_ptr, if_pos rfl]
  · rw [Heap.setFreep_size, Heap.setPtr_size, Heap.setPtr_size]

section First

variable {κ ε : Type} {K : Kernel κ ε} {s s₁ : Process κ} {hp : ℕ} (hfresh : s.heap.freep = 0)
include hfresh

theorem setup_fresh (base : ℕ) : (s.heap.setup base).freep = base ∧ (s.heap.setup base).ptr base = base ∧
    (s.heap.setup base).size base = 0 := by
  rw [Heap.setup, if_pos hfresh]
  simp [Heap.setSize_size, Heap.setPtr_ptr]

/-- The first call finds nothing. -/
theorem malloc_fresh : s.malloc K base nbytes =
    (Process.morecore K (Heap.nunits nbytes) { s with heap := s.heap.setup base } >>= fun r ↦
      if r.2 = 0 then .ok (r.1, 0)
      else Process.mallocLoop K (Heap.nunits nbytes)
        (2 * ((s.heap.setup base).brk + HEADER * Heap.coreUnits (Heap.nunits nbytes)) + 3) r.1 r.2
        (r.1.heap.ptr r.2)) := by
  obtain ⟨hfreep, hptr, hsize⟩ := setup_fresh hfresh base
  have hunits : 0 < Heap.nunits nbytes := Nat.succ_pos _
  rw [Process.malloc]
  dsimp only
  rw [hfreep, hptr, Process.mallocLoop, hsize, if_neg (by omega), if_pos hfreep.symm]

variable (hn : Heap.MINUNITS ≤ Heap.nunits nbytes)
include hn

theorem malloc_refused (hsbrk : K.sbrk (Heap.nunits nbytes * HEADER % 2 ^ 32)
      { s with heap := s.heap.setup base } = .ok (none, s₁)) :
    s.malloc K base nbytes = .ok (s₁, 0) := by
  rw [malloc_fresh hfresh, Process.morecore]
  dsimp only
  rw [show Heap.coreUnits (Heap.nunits nbytes) = _ from if_neg (by omega), hsbrk]
  rfl

/-- The kernel reports success at an address above `base`. -/
theorem malloc_granted (hpos : 0 < base) (hsbrk : K.sbrk (Heap.nunits nbytes * HEADER % 2 ^ 32)
      { s with heap := s.heap.setup base } = .ok (some hp, s₁))
    (hheap : s₁.heap = { s.heap.setup base with brk := s₁.heap.brk }) (hlt : base < hp) :
    ∃ heap, s.malloc K base nbytes = .ok (⟨heap, s₁.kernel⟩, hp + HEADER) := by
  obtain ⟨hfreep, hptr, hsize⟩ := setup_fresh hfresh base
  obtain ⟨heap, hfree, hfreep', hptr', hsize'⟩ :=
    @free_first base (s₁.heap.setSize hp (Heap.nunits nbytes)) hp hlt (by rw [hheap]; exact hfreep)
      (by rw [hheap, Heap.setSize_ptr]; exact hptr)
      (by rw [hheap, Heap.setSize_size, if_neg (by omega)]; exact hsize)
  rw [Heap.setSize_size, if_pos rfl] at hsize'
  have hcore : Heap.coreUnits (Heap.nunits nbytes) = Heap.nunits nbytes := if_neg (by omega)
  have hmore : Process.morecore K (Heap.nunits nbytes) { s with heap := s.heap.setup base } =
      .ok (⟨heap, s₁.kernel⟩, base) := by
    rw [Process.morecore]
    dsimp only
    rw [hcore, hsbrk, ok_bind]
    dsimp only
    rw [hfree, ← hfreep']
    rfl
  rw [malloc_fresh hfresh, hmore, ok_bind]
  dsimp only
  rw [if_neg (by omega), hptr', Process.mallocLoop, hsize', if_pos (Nat.le_refl _), Heap.take,
    if_pos hsize', Heap.plus, Nat.mul_one]
  exact ⟨_, rfl⟩

end First

end Request

def smallProcess : Process Space where
  heap := ⟨fun _ ↦ ⟨0, 0⟩, 0, 2048, []⟩
  kernel := ⟨{ onePage with sz := 2048 }, ⟨List.range' 1027 12, 0, fun _ _ ↦ 0⟩⟩

theorem onePage_holds (q : ℕ) : onePage.pgdir.holds q =
    holding (some 1026) q + holding (some 1025) q + holding (some 1024) q := by
  have htable : ∑ i ∈ Finset.range 1024, holding (onePage.pgdir.tablePage i) q =
      holding (onePage.pgdir.tablePage 0) q := by
    refine Finset.sum_eq_single_of_mem 0 (by simp) fun i _ hi ↦ ?_
    have hnone : onePage.pgdir.tablePage i = none := by simp [Pgdir.tablePage, onePage, hi]
    rw [hnone]
    rfl
  have huser : ∑ v ∈ Finset.range (2 ^ 19), holding (onePage.pgdir.userPage v) q =
      holding (onePage.pgdir.userPage 0) q := by
    refine Finset.sum_eq_single_of_mem 0 (by simp) fun v hv hne ↦ ?_
    have hnone : onePage.pgdir.userPage v = none := by
      rw [Pgdir.userPage, onePage_tr (Finset.mem_range.mp hv), if_neg hne]
      rfl
    rw [hnone]
    rfl
  rw [Pgdir.holds, htable, huser]
  rfl

theorem smallProcess_pages (q : ℕ) : smallProcess.kernel.mem.freelist.count q +
    smallProcess.kernel.proc.pgdir.holds q = if 1024 ≤ q ∧ q < 1039 then 1 else 0 := by
  have hfree : smallProcess.kernel.mem.freelist.count q = if 1027 ≤ q ∧ q < 1039 then 1 else 0 := by
    show (List.range' 1027 12).count q = _
    rw [(List.nodup_range' (s := 1027) (n := 12)).count]
    exact if_congr List.mem_range'_1 rfl rfl
  have hheld : smallProcess.kernel.proc.pgdir.holds q = _ := onePage_holds q
  rw [hfree, hheld]
  simp only [holding, Option.some.injEq]
  split_ifs <;> omega

theorem smallProcess_wellFormed : smallProcess.WellFormed smallMachine 64 2048 where
  heap := .inl ⟨rfl, rfl, rfl⟩
  backed := by
    refine ⟨rfl, by decide, onePage_maps, fun q ↦ ?_, fun q hq ↦ ?_⟩
    · rw [smallProcess_pages]
      split <;> omega
    · rw [smallProcess_pages] at hq
      split at hq
      · refine ⟨?_, ?_⟩
        · show KERNBASE + 0x400000 ≤ q * PGSIZE + KERNBASE
          rw [PGSIZE]
          omega
        · rw [PGSIZE, PHYSTOP]
          omega
      · exact absurd hq (Nat.lt_irrefl 0)

theorem not_enough_of_large {nbytes : ℕ} (hn : nbytes < 2 ^ 32) (hlarge : 2 ^ 31 - 16 < nbytes) :
    ¬ smallProcess.Enough smallMachine 64 2048 nbytes := by
  rintro ⟨s', ap, hrun, -, -, -, -, hmapped, hap⟩
  by_cases hwrap : 2 ^ 32 - 7 ≤ nbytes
  · -- the number of headers wraps around to that of a small request
    have hone : Heap.nunits nbytes = Heap.nunits 0 := by
      simp only [Heap.nunits, HEADER]
      omega
    have hfew : Ensures (fun r ↦ r.2 ≠ 0 ∧ r.1.kernel.proc.sz = 34816) (fun _ ↦ False)
        (smallProcess.malloc (kernelOf smallMachine) 64 0) := by decide +kernel
    have hsame : smallProcess.malloc (kernelOf smallMachine) 64 nbytes =
        smallProcess.malloc (kernelOf smallMachine) 64 0 := by
      rw [Process.malloc, Process.malloc, hone]
    rw [← hsame, hrun] at hfew
    have hin := (hap hfew.1).2.1
    have hsz := hfew.2
    dsimp only at hsz
    omega
  · -- the kernel is asked for nothing, or for less than that
    have hunits : Heap.MINUNITS ≤ Heap.nunits nbytes := by
      simp only [Heap.MINUNITS, Heap.nunits, HEADER]
      omega
    have hask : asInt (Heap.nunits nbytes * HEADER % 2 ^ 32) ≤ 0 ∧
        Vm.Int32 (asInt (Heap.nunits nbytes * HEADER % 2 ^ 32)) := by
      simp only [asInt, Vm.Int32, Heap.nunits, HEADER]
      split_ifs <;> omega
    have hback := smallProcess_wellFormed.backed
    obtain ⟨⟨r, p, m⟩, hr, hle, hcase⟩ := (nonpos_ensures hback.size hback.maps hback.owns
      (by decide) hask.2 hask.1).exists_ok
    have hsbrk : (kernelOf smallMachine).sbrk (Heap.nunits nbytes * HEADER % 2 ^ 32)
        { smallProcess with heap := smallProcess.heap.setup 64 } =
        .ok (if r = -1 then none else some r.toNat,
          ⟨{ smallProcess.heap.setup 64 with brk := p.sz }, ⟨p, m⟩⟩) := by
      dsimp only [kernelOf]
      rw [hr]
      rfl
    have hsz : smallProcess.kernel.proc.sz = 2048 := rfl
    rcases hcase with rfl | ⟨rfl, hkept, hnone⟩
    · obtain ⟨heap, hgiven⟩ := malloc_granted rfl hunits (by decide) hsbrk rfl (by decide)
      rw [hgiven] at hrun
      cases hrun
      have hin := (hap (by decide)).2.1
      dsimp only at hin hle
      omega
    · rw [malloc_refused rfl hunits hsbrk] at hrun
      cases hrun
      exact hmapped 0 (by dsimp only at hkept ⊢; omega) hnone

/-- The promise is kept for every process exactly for the requests that the kernel can be asked for
as an `int`. -/
theorem malloc_returns_enough {nbytes : ℕ} (hn : nbytes < 2 ^ 32) :
    (∀ M (s : Process Space) base lo, 0 < base → base + HEADER ≤ lo → s.WellFormed M base lo →
      s.Enough M base lo nbytes) ↔ nbytes ≤ 2 ^ 31 - 16 := by
  constructor
  · intro h
    by_contra hlarge
    exact not_enough_of_large hn (Nat.lt_of_not_le hlarge)
      (h smallMachine smallProcess 64 2048 (by decide) (by decide) smallProcess_wellFormed)
  · intro hle M s base lo hpos hbase h
    exact h.enough hpos hbase (by simp only [HEADER]; omega)

theorem malloc_returns_enough_ten : ∃ s' ap,
    smallProcess.malloc (kernelOf smallMachine) 64 10 = .ok (s', ap) ∧ ap ≠ 0 ∧ 2048 ≤ ap ∧
      ap + 10 ≤ s'.kernel.proc.sz ∧ s'.heap.brk = s'.kernel.proc.sz := by
  have hgiven : Ensures (fun r ↦ r.2 ≠ 0) (fun _ ↦ False)
      (smallProcess.malloc (kernelOf smallMachine) 64 10) := by decide +kernel
  obtain ⟨s', ap, hrun, -, -, -, hbrk, -, hap⟩ := (malloc_returns_enough (show 10 < 2 ^ 32 by decide)).mpr
    (by decide) smallMachine smallProcess 64 2048 (by decide) (by decide) smallProcess_wellFormed
  rw [hrun] at hgiven
  obtain ⟨hlo, hhi, -⟩ := hap hgiven
  exact ⟨s', ap, hrun, hgiven, hlo, hhi, hbrk⟩

/-- For the largest request the number of headers wraps around to one, and the block is empty. For
half of it the kernel is asked for a negative amount, does nothing and reports success, and the block
reaches far beyond the end of the process. -/
theorem malloc_too_small :
    smallProcess.WellFormed smallMachine 64 2048 ∧
    (∃ s', smallProcess.malloc (kernelOf smallMachine) 64 (2 ^ 32 - 1) = .ok (s', 34816) ∧
      s'.kernel.proc.sz = 34816 ∧
      Heap.plus (34816 - HEADER) (s'.heap.size (34816 - HEADER)) = 34816) ∧
    ∃ s', smallProcess.malloc (kernelOf smallMachine) 64 (2 ^ 31) = .ok (s', 2056) ∧
      s'.kernel.proc.sz = 2048 := by
  have hmax : Ensures (fun r ↦ r.2 = 34816 ∧ r.1.kernel.proc.sz = 34816 ∧
      Heap.plus (34816 - HEADER) (r.1.heap.size (34816 - HEADER)) = 34816) (fun _ ↦ False)
      (smallProcess.malloc (kernelOf smallMachine) 64 (2 ^ 32 - 1)) := by decide +kernel
  have hhalf : Ensures (fun r ↦ r.2 = 2056 ∧ r.1.kernel.proc.sz = 2048) (fun _ ↦ False)
      (smallProcess.malloc (kernelOf smallMachine) 64 (2 ^ 31)) := by decide +kernel
  obtain ⟨⟨s₁, _⟩, hrun₁, rfl, hsz₁, hsize₁⟩ := hmax.exists_ok
  obtain ⟨⟨s₂, _⟩, hrun₂, rfl, hsz₂⟩ := hhalf.exists_ok
  exact ⟨smallProcess_wellFormed, ⟨s₁, hrun₁, hsz₁, hsize₁⟩, s₂, hrun₂, hsz₂⟩

end Xv6Bfs.Umalloc

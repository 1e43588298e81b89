import Xv6Bfs.Vm.Uvm

namespace Xv6Bfs.Vm

open Lib.Execution Function

/-- The fields of `struct proc` that `growproc` reads and writes. -/
structure Proc where
  sz : ℕ
  pgdir : Pgdir

/-- The sum of a `uint` and an `int`. -/
def addInt (sz : ℕ) (n : ℤ) : ℕ := ((sz + n) % 2 ^ 32).toNat

section

variable (M : Machine)

/-- The result is `false` for -1. -/
def growproc (n : ℤ) (p : Proc) (m : Mem) : Except Panic (Bool × Proc × Mem) :=
  if n > 0 then do
    let (sz, pgdir, m) ← p.pgdir.allocuvm M p.sz (addInt p.sz n) m
    if sz = 0 then .ok (false, ⟨p.sz, pgdir⟩, m) else .ok (true, ⟨sz, pgdir⟩, m)
  else if n < 0 then do
    let (sz, pgdir, m) ← p.pgdir.deallocuvm M p.sz (addInt p.sz n) m
    if sz = 0 then .ok (false, ⟨p.sz, pgdir⟩, m) else .ok (true, ⟨sz, pgdir⟩, m)
  else .ok (true, p, m)

/-- `sys_sbrk`, where `argint` gives `n`, or nothing when it fails. -/
def sysSbrk (n : Option ℤ) (p : Proc) (m : Mem) : Except Panic (ℤ × Proc × Mem) :=
  match n with
  | none => .ok (-1, p, m)
  | some n => do
    let addr := p.sz
    let (grown, p, m) ← growproc M n p m
    if grown then .ok (addr, p, m) else .ok (-1, p, m)

end

/-- A number of type `int`. -/
def Int32 (n : ℤ) : Prop := -2 ^ 31 ≤ n ∧ n < 2 ^ 31

def Maps (sz : ℕ) (pgdir : Pgdir) : Prop :=
  ∀ v, v * PGSIZE < KERNBASE → (pgdir.tr v ≠ none ↔ v * PGSIZE < PGROUNDUP sz)

structure Owns (M : Machine) (pgdir : Pgdir) (m : Mem) : Prop where
  free : ∀ p ∈ m.freelist, Mem.Valid M p
  mapped : ∀ v e, v * PGSIZE < KERNBASE → pgdir.tr v = some e →
    Mem.Valid M e.ppn ∧ e.ppn ∉ m.freelist

def Exact (n : ℤ) (p : Proc) (r : ℤ × Proc × Mem) : Prop :=
  r.1 = p.sz ∧ (r.2.1.sz : ℤ) = p.sz + n ∧ r.2.1.sz < KERNBASE ∧ Maps r.2.1.sz r.2.1.pgdir

def NoEffect (p : Proc) (m : Mem) (r : ℤ × Proc × Mem) : Prop :=
  r.1 = -1 ∧ r.2.1.sz = p.sz ∧ ∀ v, v * PGSIZE < KERNBASE →
    r.2.1.pgdir.tr v = p.pgdir.tr v ∧
      ∀ e, p.pgdir.tr v = some e → r.2.2.phys e.ppn = m.phys e.ppn

section

variable {M : Machine} {p : Proc} {m : Mem} {n : ℤ} {v : ℕ}

theorem user_page : v * PGSIZE < KERNBASE ↔ v < 2 ^ 19 := by
  simp only [PGSIZE, KERNBASE]
  omega

theorem Maps.iff {sz : ℕ} {pgdir : Pgdir} (hsz : sz ≤ KERNBASE) :
    Maps sz pgdir ↔ ∀ v, v < 2 ^ 19 → (pgdir.tr v ≠ none ↔ v < pages sz) := by
  have hmul (v : ℕ) : v * PGSIZE < PGROUNDUP sz ↔ v < pages sz := by
    rw [PGROUNDUP_eq hsz]
    exact Nat.mul_lt_mul_right (by decide)
  simp only [Maps, user_page, hmul]

theorem NoEffect.of_restored {pgdir : Pgdir} {m' : Mem} (ho : Owns M p.pgdir m)
    (h : p.pgdir.Restored m pgdir m') : NoEffect p m (-1, ⟨p.sz, pgdir⟩, m') := by
  refine ⟨rfl, rfl, fun v hv ↦ ⟨h.tr v ?_, fun e he ↦ h.phys _ (ho.mapped v e hv he).2⟩⟩
  rw [user_page] at hv
  omega

def Outcome (n : ℤ) (p : Proc) (m : Mem) (r : Bool × Proc × Mem) : Prop :=
  (r.1 = true ∧ Exact n p (p.sz, r.2)) ∨ r.1 = false ∧ NoEffect p m (-1, r.2)

theorem sysSbrk_ensures (h : Ensures (Outcome n p m) (fun _ ↦ False) (growproc M n p m)) :
    Ensures (fun r ↦ Exact n p r ∨ NoEffect p m r) (fun _ ↦ False) (sysSbrk M (some n) p m) := by
  refine h.bind ?_
  rintro ⟨grown, q, m'⟩ (⟨rfl, hr⟩ | ⟨rfl, hr⟩)
  · exact .inl hr
  · exact .inr hr

theorem empty_ensures (hn : n < 0) (h0 : p.sz = 0) :
    Ensures (Outcome n p m) (fun _ ↦ False) (growproc M n p m) := by
  rw [growproc, if_neg (by omega), if_pos hn, Pgdir.deallocuvm, if_pos (by omega)]
  rw [ok_bind]
  dsimp only
  rw [if_pos h0]
  exact .inr ⟨rfl, rfl, rfl, fun v _ ↦ ⟨rfl, fun e _ ↦ rfl⟩⟩

/-- More than all the memory is asked back: nothing changes, and success is returned. -/
theorem beyond_ensures (hsz : p.sz < KERNBASE) (hint : Int32 n) (hpos : 0 < p.sz) (hn : p.sz + n < 0) :
    Ensures (fun r ↦ r = (↑p.sz, p, m) ∧ ¬ (Exact n p r ∨ NoEffect p m r)) (fun _ ↦ False)
      (sysSbrk M (some n) p m) := by
  have hnew : p.sz ≤ addInt p.sz n := by
    simp only [addInt, Int32, KERNBASE] at *
    omega
  rw [sysSbrk, growproc, if_neg (by omega), if_pos (by omega), Pgdir.deallocuvm, if_pos hnew, ok_bind]
  dsimp only
  rw [if_neg (by omega)]
  refine ⟨rfl, ?_⟩
  rintro (he | he)
  · have := he.2.1
    dsimp only at this
    omega
  · have := he.1
    dsimp only at this
    omega

variable (hsz : p.sz < KERNBASE) (hm : Maps p.sz p.pgdir)
include hsz hm

theorem still_ensures (hn : n = 0) :
    Ensures (fun r ↦ r.1 = true ∧ Exact n p (p.sz, r.2)) (fun _ ↦ False) (growproc M n p m) := by
  rw [growproc, if_neg (by omega), if_neg (by omega)]
  exact ⟨rfl, rfl, by simp [hn], hsz, hm⟩

variable (ho : Owns M p.pgdir m)
include ho

theorem grow_ensures (hn : 0 < n) (hint : Int32 n) :
    Ensures (Outcome n p m) (fun _ ↦ False) (growproc M n p m) := by
  have hnew : (addInt p.sz n : ℤ) = p.sz + n := by
    simp only [addInt, Int32, KERNBASE] at *
    omega
  rw [Maps.iff (Nat.le_of_lt hsz)] at hm
  rw [growproc, if_pos hn]
  by_cases hbig : addInt p.sz n ≥ KERNBASE
  · rw [Pgdir.allocuvm, if_pos hbig]
    exact .inr ⟨rfl, rfl, rfl, fun v _ ↦ ⟨rfl, fun e _ ↦ rfl⟩⟩
  · have hlt := Nat.lt_of_not_le hbig
    have hpages := pages_le (Nat.le_of_lt hlt)
    have hmono := pages_mono (show p.sz ≤ addInt p.sz n by omega)
    refine (Pgdir.allocuvm_ensures hlt ho.free (fun u h1 h2 ↦ ?_) (by omega)).bind ?_
    · by_contra hu
      have := (hm u (by omega)).mp hu
      omega
    rintro ⟨sz, pgdir, m'⟩ (⟨rfl, hr⟩ | ⟨rfl, hr, -⟩)
    · dsimp only at hr ⊢
      rw [if_neg (by omega)]
      refine .inl ⟨rfl, rfl, hnew, hlt, (Maps.iff (Nat.le_of_lt hlt)).mpr (fun v hv ↦ ?_)⟩
      by_cases hvn : pages p.sz ≤ v ∧ v < pages (addInt p.sz n)
      · obtain ⟨q, -, hq⟩ := hr.new v hvn.1 hvn.2
        simp [hq, hvn.2]
      · rw [hr.old v (by omega) hvn, hm v hv]
        omega
    · exact .inr ⟨rfl, NoEffect.of_restored ho hr⟩

theorem shrink_ensures (hn : n < 0) (hpos : 0 < p.sz + n) :
    Ensures (fun r ↦ r.1 = true ∧ Exact n p (p.sz, r.2)) (fun _ ↦ False) (growproc M n p m) := by
  have hnew : (addInt p.sz n : ℤ) = p.sz + n := by
    simp only [addInt, KERNBASE] at *
    omega
  have hlt : addInt p.sz n < p.sz := by omega
  have hkern : addInt p.sz n < KERNBASE := Nat.lt_trans hlt hsz
  have hle := Nat.le_of_lt hsz
  rw [Maps.iff hle] at hm
  have hpages := pages_le hle
  have hmono := pages_mono (Nat.le_of_lt hlt)
  rw [growproc, if_neg (by omega), if_pos hn]
  refine (Pgdir.deallocuvm_ensures hle hlt (fun u e _ h2 hu ↦ ?_)).bind ?_
  · exact (ho.mapped u e (user_page.mpr (by omega)) hu).1
  rintro ⟨sz, pgdir, m'⟩ ⟨rfl, hr⟩
  dsimp only at hr ⊢
  rw [if_neg (by omega)]
  refine ⟨rfl, rfl, hnew, hkern, (Maps.iff (Nat.le_of_lt hkern)).mpr (fun v hv ↦ ?_)⟩
  rw [hr.tr (by omega)]
  split
  · simp only [ne_eq, not_true_eq_false, false_iff]
    omega
  · rw [hm v hv]
    omega

/-- All the memory is asked back: the pages are gone, and -1 is returned. -/
theorem all_ensures (hpos : 0 < p.sz) (hn : p.sz + n = 0) :
    Ensures (fun r ↦ r.1 = -1 ∧ r.2.1.sz = p.sz ∧ r.2.1.pgdir.tr 0 = none ∧
        ¬ (Exact n p r ∨ NoEffect p m r))
      (fun _ ↦ False) (sysSbrk M (some n) p m) := by
  have hle := Nat.le_of_lt hsz
  have hpages := pages_le hle
  have hnew : addInt p.sz n = 0 := by rw [addInt, hn]; rfl
  have hfirst : 0 < pages p.sz := lt_pages.mpr (by omega)
  rw [sysSbrk, growproc, if_neg (by omega), if_pos (by omega), hnew, bind_assoc]
  refine (Pgdir.deallocuvm_ensures hle hpos (fun u e _ h2 hu ↦ ?_)).bind ?_
  · exact (ho.mapped u e (user_page.mpr (by omega)) hu).1
  rintro ⟨sz, pgdir, m'⟩ ⟨rfl, hr⟩
  have hnone : pgdir.tr 0 = none := (hr.tr (by omega)).trans (if_pos ⟨Nat.le_refl 0, hfirst⟩)
  refine ⟨rfl, rfl, hnone, ?_⟩
  rintro (he | he)
  · have := he.1
    omega
  · refine ((Maps.iff hle).mp hm 0 (by omega)).mpr hfirst ?_
    rw [← (he.2.2 0 (by decide)).1]
    exact hnone

theorem nonpos_ensures (hpos : 0 < p.sz) (hint : Int32 n) (hn : n ≤ 0) :
    Ensures (fun r ↦ r.2.1.sz ≤ p.sz ∧
        (r.1 = (p.sz : ℤ) ∨ r.1 = -1 ∧ r.2.1.sz = p.sz ∧ r.2.1.pgdir.tr 0 = none))
      (fun _ ↦ False) (sysSbrk M (some n) p m) := by
  rcases Int.lt_trichotomy (p.sz + n) 0 with hlt | heq | hgt
  · refine (beyond_ensures hsz hint hpos hlt).mono ?_
    rintro r ⟨rfl, -⟩
    exact ⟨Nat.le_refl _, .inl rfl⟩
  · refine (all_ensures hsz hm ho hpos heq).mono ?_
    rintro r ⟨h1, h2, h3, -⟩
    exact ⟨Nat.le_of_eq h2, .inr ⟨h1, h2, h3⟩⟩
  · have hexact : Ensures (fun r ↦ r.1 = true ∧ Exact n p (p.sz, r.2)) (fun _ ↦ False)
        (growproc M n p m) := by
      rcases Int.lt_or_eq_of_le hn with hn | hn
      · exact shrink_ensures hsz hm ho hn hgt
      · exact still_ensures hsz hm hn
    refine hexact.bind ?_
    rintro ⟨_, q, m'⟩ ⟨rfl, h⟩
    have hnew := h.2.1
    dsimp only at hnew
    exact ⟨show q.sz ≤ p.sz by omega, .inl rfl⟩

end

/-- A call is exact or has no effect, unless it asks for all the memory back, or for more than that. -/
theorem sbrk_exact_or_no_effect {M : Machine} {p : Proc} {m : Mem} {n : ℤ} (hsz : p.sz < KERNBASE)
    (hm : Maps p.sz p.pgdir) (ho : Owns M p.pgdir m) (hint : Int32 n) :
    (∃ r, sysSbrk M (some n) p m = .ok r ∧ (Exact n p r ∨ NoEffect p m r)) ↔
      0 ≤ n ∨ p.sz = 0 ∨ 0 < p.sz + n := by
  constructor
  · rintro ⟨r, hr, hgood⟩
    by_contra hno
    rw [not_or, not_or] at hno
    rcases Int.lt_or_eq_of_le (Int.not_lt.mp hno.2.2) with hn | hn
    · have hrun := beyond_ensures (M := M) (m := m) hsz hint (by omega) hn
      rw [hr] at hrun
      exact hrun.2 hgood
    · have hrun := all_ensures hsz hm ho (by omega) hn
      rw [hr] at hrun
      exact hrun.2.2.2 hgood
  · intro hn
    apply Ensures.exists_ok
    apply sysSbrk_ensures
    rcases Int.lt_trichotomy n 0 with hneg | h0 | hpos
    · rcases hn with hn | hn | hn
      · omega
      · exact empty_ensures hneg hn
      · exact (shrink_ensures hsz hm ho hneg hn).mono (fun _ ↦ .inl)
    · exact (still_ensures hsz hm h0).mono (fun _ ↦ .inl)
    · exact grow_ensures hsz hm ho hpos hint

def smallMachine : Machine := ⟨KERNBASE + 0x400000, fun _ ↦ false, by decide⟩

def onePage : Proc where
  sz := PGSIZE
  pgdir :=
    { page := 1026
      pde := fun i ↦ if i = 0 then
          some ⟨1025, fun j ↦ if j = 0 then some ⟨1024, true, true⟩ else none⟩
        else none }

def threePages : Mem := ⟨[1027, 1028, 1029], 0, fun _ _ ↦ 0⟩

theorem onePage_tr {v : ℕ} (h : v < 2 ^ 19) :
    onePage.pgdir.tr v = if v = 0 then some ⟨1024, true, true⟩ else none := by
  rw [Pgdir.tr, Pgdir.walk_page, onePage]
  by_cases hd : v / 1024 % 1024 = 0
  · simp only [hd, if_true, Option.map_some, Option.join_some]
    by_cases hv : v = 0
    · simp [hv]
    · rw [if_neg (by omega), if_neg hv]
  · simp only [hd, if_false, Option.map_none, Option.join_none]
    rw [if_neg (fun hv ↦ hd (by rw [hv]))]

theorem onePage_maps : Maps onePage.sz onePage.pgdir := by
  rw [Maps.iff (by decide)]
  intro v hv
  have hone : pages onePage.sz = 1 := by decide
  rw [onePage_tr hv, hone]
  split
  · simp_all
  · simp only [ne_eq, not_true_eq_false, false_iff]
    omega

theorem onePage_owns : Owns smallMachine onePage.pgdir threePages := by
  refine ⟨by decide, fun v e hv he ↦ ?_⟩
  rw [onePage_tr (user_page.mp hv)] at he
  split at he
  · cases he
    decide
  · cases he

theorem sbrk_exact_or_no_effect_onePage : ∃ r,
    sysSbrk smallMachine (some 8192) onePage threePages = .ok r ∧ Exact 8192 onePage r := by
  have hrun : Ensures (fun r ↦ r.1 = 4096) (fun _ ↦ False)
      (sysSbrk smallMachine (some 8192) onePage threePages) := by decide +kernel
  obtain ⟨r, hr, he | he⟩ := (sbrk_exact_or_no_effect (n := 8192) (by decide) onePage_maps onePage_owns
    (by unfold Int32; omega)).mpr (by omega)
  · exact ⟨r, hr, he⟩
  · rw [hr] at hrun
    exact absurd (he.1.symm.trans hrun) (by decide)

/-- A process that gives back all its memory loses its pages and is told that nothing has happened,
and one that gives back more is told that it has. -/
theorem sbrk_all_memory :
    (onePage.sz < KERNBASE ∧ Maps onePage.sz onePage.pgdir ∧
      Owns smallMachine onePage.pgdir threePages ∧ Int32 (-4096) ∧ Int32 (-8192)) ∧
    (∃ r, sysSbrk smallMachine (some (-4096)) onePage threePages = .ok r ∧
      r.1 = -1 ∧ r.2.1.sz = 4096 ∧ r.2.1.pgdir.tr 0 = none ∧
      ¬ (Exact (-4096) onePage r ∨ NoEffect onePage threePages r)) ∧
    ∃ r, sysSbrk smallMachine (some (-8192)) onePage threePages = .ok r ∧
      r = (4096, onePage, threePages) ∧
      ¬ (Exact (-8192) onePage r ∨ NoEffect onePage threePages r) := by
  have hall : Int32 (-4096) := by unfold Int32; omega
  have hmore : Int32 (-8192) := by unfold Int32; omega
  exact ⟨⟨by decide, onePage_maps, onePage_owns, hall, hmore⟩,
    (all_ensures (by decide) onePage_maps onePage_owns (by decide) (by decide)).exists_ok,
    (beyond_ensures (by decide) hmore (by decide) (by decide)).exists_ok⟩

end Xv6Bfs.Vm

import Mathlib.Algebra.Order.BigOperators.Group.Finset
import Xv6Bfs.Lib.FiniteSum
import Xv6Bfs.Vm.KernelMap

namespace Xv6Bfs.Vm

open Lib.Execution Lib.FiniteSum Function Finset

variable {M : Machine} {pgdir pgdir' : Pgdir} {m m' : Mem} {u v p q : ℕ} {e : Option Pte}

def holding (x : Option ℕ) (q : ℕ) : ℕ := if x = some q then 1 else 0

@[simp] theorem holding_none : holding none q = 0 := rfl

theorem holding_self : holding (some q) q = 1 := if_pos rfl

theorem count_cons_holding {l : List ℕ} : (p :: l).count q = l.count q + holding (some p) q := by
  rw [List.count_cons, holding]
  congr 1
  simp

/-- What was free or held is free or held, as often as before, and other pages have not changed. -/
structure Conserves (held : ℕ → ℕ) (m : Mem) (held' : ℕ → ℕ) (m' : Mem) : Prop where
  count : ∀ q, m'.freelist.count q + held' q = m.freelist.count q + held q
  phys : ∀ q, m.freelist.count q + held q = 0 → m'.phys q = m.phys q

namespace Conserves

variable {held held₁ held₂ : ℕ → ℕ} {m₁ m₂ : Mem}

theorem refl : Conserves held m held m := ⟨fun _ ↦ rfl, fun _ _ ↦ rfl⟩

theorem trans (h : Conserves held m held₁ m₁) (h' : Conserves held₁ m₁ held₂ m₂) :
    Conserves held m held₂ m₂ := by
  refine ⟨fun q ↦ (h'.count q).trans (h.count q), fun q hq ↦ ?_⟩
  rw [h'.phys q (by rw [h.count q, hq]), h.phys q hq]

theorem congr (h : Conserves held m held₁ m₁) (he : ∀ q, held₂ q = held₁ q) :
    Conserves held m held₂ m₁ := by
  obtain rfl : held₂ = held₁ := funext he
  exact h

theorem frame (h : Conserves held m held₁ m₁) (x : ℕ → ℕ) :
    Conserves (fun q ↦ held q + x q) m (fun q ↦ held₁ q + x q) m₁ := by
  refine ⟨fun q ↦ ?_, fun q hq ↦ h.phys q (by omega)⟩
  have := h.count q
  omega

section Origin

/-! What is held after a run that began with nothing held has come from the free list. -/

variable (h : Conserves (fun _ ↦ 0) m held₁ m₁)
include h

theorem mem_of_held (hq : 0 < held₁ q) : q ∈ m.freelist := by
  have hcount := h.count q
  exact List.count_pos_iff.mp (by omega)

theorem mem_of_mem (hq : q ∈ m₁.freelist) : q ∈ m.freelist := by
  have hcount := h.count q
  have hpos := List.count_pos_iff.mpr hq
  exact List.count_pos_iff.mp (by omega)

theorem phys_of_not_mem (hq : q ∉ m.freelist) : m₁.phys q = m.phys q :=
  h.phys q (by rw [List.count_eq_zero.mpr hq])

variable (hnd : m.freelist.Nodup)
include hnd

theorem add_le_one : m₁.freelist.count q + held₁ q ≤ 1 := by
  have hcount := h.count q
  have hone := List.nodup_iff_count_le_one.mp hnd q
  omega

theorem nodup : m₁.freelist.Nodup := by
  refine List.nodup_iff_count_le_one.mpr (fun q ↦ ?_)
  have := h.add_le_one hnd (q := q)
  omega

end Origin

theorem perm (h : Conserves (fun _ ↦ 0) m (fun _ ↦ 0) m₁) : m₁.freelist.Perm m.freelist :=
  List.perm_iff_count.mpr h.count

end Conserves

theorem conserves_kalloc_none {held : ℕ → ℕ} (h : m.kalloc M = (none, m')) :
    Conserves held m held m' := by
  obtain ⟨hfree, hphys, -⟩ := kalloc_eq_none h
  exact ⟨fun q ↦ by rw [hfree], fun q _ ↦ by rw [hphys]⟩

theorem conserves_kalloc_some {held : ℕ → ℕ} {f : ℕ → UInt8} (h : m.kalloc M = (some p, m')) :
    Conserves held m (fun q ↦ held q + holding (some p) q)
      { m' with phys := update m'.phys p f } := by
  obtain ⟨hl, hphys⟩ := kalloc_eq_some h
  refine ⟨fun q ↦ ?_, fun q hq ↦ ?_⟩
  · dsimp only
    rw [hl, count_cons_holding]
    omega
  · dsimp only
    rw [update_of_ne, hphys]
    rintro rfl
    rw [hl, List.count_cons_self] at hq
    omega

theorem kfree_ensures (held : ℕ → ℕ) (h : Mem.Valid M p) :
    Ensures (fun m' ↦ Conserves (fun q ↦ held q + holding (some p) q) m held m') (fun _ ↦ False)
      (m.kfree M p) := by
  rw [Pgdir.kfree_ok h]
  refine ⟨fun q ↦ ?_, fun q hq ↦ fill_phys_ne ?_⟩
  · dsimp only
    rw [count_cons_holding]
    omega
  · rintro rfl
    rw [holding_self] at hq
    omega

namespace Pgdir

def userPage (pgdir : Pgdir) (v : ℕ) : Option ℕ := (pgdir.tr v).map Pte.ppn

def holds (pgdir : Pgdir) (q : ℕ) : ℕ :=
  holding (some pgdir.page) q + ∑ i ∈ range 1024, holding (pgdir.tablePage i) q +
    ∑ v ∈ range (2 ^ 19), holding (pgdir.userPage v) q

theorem holds_congr (hpage : pgdir'.page = pgdir.page)
    (htable : ∀ i, pgdir'.tablePage i = pgdir.tablePage i)
    (htr : ∀ u, u < 2 ^ 19 → pgdir'.tr u = pgdir.tr u) : pgdir'.holds q = pgdir.holds q := by
  have hsum : ∑ v ∈ range (2 ^ 19), holding (pgdir'.userPage v) q =
      ∑ v ∈ range (2 ^ 19), holding (pgdir.userPage v) q :=
    sum_congr rfl fun u hu ↦ by rw [userPage, htr u (mem_range.mp hu), userPage]
  rw [holds, holds, hpage, hsum]
  simp only [htable]

theorem holds_setPte_kernel (hv : 2 ^ 19 ≤ v) (hv' : v < 2 ^ 20) (h : pgdir.HasTable v) :
    (pgdir.setPte (v * PGSIZE) e).holds q = pgdir.holds q := by
  refine holds_congr page_setPte tablePage_setPte (fun u hu ↦ ?_)
  rw [tr_setPte hv' (by omega) h, if_neg (by omega)]

theorem holds_setPte_user (hv : v < 2 ^ 19) (h : pgdir.HasTable v) :
    (pgdir.setPte (v * PGSIZE) e).holds q + holding (pgdir.userPage v) q =
      pgdir.holds q + holding (e.map Pte.ppn) q := by
  have hself : (pgdir.setPte (v * PGSIZE) e).userPage v = e.map Pte.ppn := by
    rw [userPage, tr_setPte (by omega) (by omega) h, if_pos rfl]
  have hsum := sum_add_of_eq_off (s := range (2 ^ 19)) (mem_range.mpr hv)
    (f := fun u ↦ holding ((pgdir.setPte (v * PGSIZE) e).userPage u) q)
    (g := fun u ↦ holding (pgdir.userPage u) q) (fun u hu huv ↦ by
      have hu' := mem_range.mp hu
      rw [userPage, tr_setPte (by omega) (by omega) h, if_neg huv, userPage])
  rw [hself] at hsum
  simp only [holds, tablePage_setPte, page_setPte]
  omega

end Pgdir

namespace Pgdir

theorem conserves_walkAlloc_none {va : ℕ} {held : ℕ → ℕ}
    (h : pgdir.walkAlloc M va m = (none, m')) : Conserves held m held m' := by
  rw [walkAlloc] at h
  split at h
  · cases h
  · cases hk : m.kalloc M with
    | mk r m₁ =>
      rw [hk] at h
      cases r with
      | none =>
        cases h
        exact conserves_kalloc_none hk
      | some p => cases h

theorem conserves_walkAlloc (h : pgdir.walkAlloc M (v * PGSIZE) m = (some pgdir', m')) :
    Conserves pgdir.holds m pgdir'.holds m' := by
  obtain ⟨-, -, htr, -⟩ := walkAlloc_some h
  rw [walkAlloc] at h
  cases ht : pgdir.pde (PDX (v * PGSIZE)) with
  | some t =>
    rw [ht] at h
    cases h
    exact .refl
  | none =>
    rw [ht] at h
    cases hk : m.kalloc M with
    | mk r m₁ =>
      rw [hk] at h
      cases r with
      | none => cases h
      | some p =>
        cases h
        refine (conserves_kalloc_some hk).congr (fun q ↦ ?_)
        have hlt : PDX (v * PGSIZE) ∈ range 1024 := mem_range.mpr (Nat.mod_lt _ (by decide))
        have hsum := sum_add_of_eq_off hlt
          (f := fun i ↦ holding ((pgdir.setTable (PDX (v * PGSIZE)) ⟨p, fun _ ↦ none⟩).tablePage i) q)
          (g := fun i ↦ holding (pgdir.tablePage i) q)
          (fun i _ hi ↦ by simp [tablePage, setTable, update_of_ne hi])
        have hnew : (pgdir.setTable (PDX (v * PGSIZE)) ⟨p, fun _ ↦ none⟩).tablePage
            (PDX (v * PGSIZE)) = some p := by simp [tablePage, setTable]
        have hold : pgdir.tablePage (PDX (v * PGSIZE)) = none := by simp [tablePage, ht]
        have hpage : (pgdir.setTable (PDX (v * PGSIZE)) ⟨p, fun _ ↦ none⟩).page = pgdir.page := rfl
        rw [hnew, hold, holding_none] at hsum
        simp only [holds, userPage, htr, hpage]
        omega

theorem conserves_mappage {ppn : ℕ} {w us : Bool} (hv : v < 2 ^ 19) :
    Ensures (fun r ↦ Conserves (fun q ↦ pgdir.holds q + holding (some ppn) q) m
        (fun q ↦ r.2.1.holds q + holding (if r.1 then none else some ppn) q) r.2.2)
      (fun _ ↦ True) (pgdir.mappages M (v * PGSIZE) PGSIZE ppn w us m) := by
  have hlast : PGROUNDDOWN ((v * PGSIZE + PGSIZE - 1) % 2 ^ 32) = v * PGSIZE := by
    simp only [PGROUNDDOWN, PGSIZE]
    omega
  have hfirst : PGROUNDDOWN (v * PGSIZE) = v * PGSIZE := by
    simp only [PGROUNDDOWN, PGSIZE]
    omega
  rw [mappages, hlast, hfirst]
  change Ensures _ _ (mapLoop M _ w us (2 ^ 20 - 1 + 1) _ _ _ _)
  rw [mapLoop]
  cases hw : pgdir.walkAlloc M (v * PGSIZE) m with
  | mk r m₁ =>
    cases r with
    | none => exact conserves_walkAlloc_none hw
    | some pgdir₁ =>
      have htable := (walkAlloc_some hw).2.1
      dsimp only
      split
      · trivial
      · rename_i hsome
        have hnone : pgdir₁.userPage v = none := by
          rw [Bool.not_eq_true, Option.isSome_eq_false_iff, Option.isNone_iff_eq_none] at hsome
          rw [userPage, tr, hsome]
          rfl
        rw [if_pos rfl]
        refine ((conserves_walkAlloc hw).frame _).congr (fun q ↦ ?_)
        have hset := holds_setPte_user (q := q) (e := some ⟨ppn, w, us⟩) hv htable
        rw [hnone, holding_none, Option.map_some] at hset
        exact hset

theorem conserves_mapLoop {last ppn fuel : ℕ} {w us : Bool} (hv : 2 ^ 19 ≤ v) (hle : v ≤ last)
    (hlast : last < 2 ^ 20) :
    Ensures (fun r ↦ Conserves pgdir.holds m r.2.1.holds r.2.2) (fun _ ↦ True)
      (mapLoop M (last * PGSIZE) w us fuel (v * PGSIZE) ppn pgdir m) := by
  induction fuel generalizing v ppn pgdir m with
  | zero => trivial
  | succ fuel ih =>
    rw [mapLoop]
    cases hw : pgdir.walkAlloc M (v * PGSIZE) m with
    | mk r m₁ =>
      cases r with
      | none => exact conserves_walkAlloc_none hw
      | some pgdir₁ =>
        have htable := (walkAlloc_some hw).2.1
        have hset : Conserves pgdir.holds m
            (pgdir₁.setPte (v * PGSIZE) (some ⟨ppn, w, us⟩)).holds m₁ :=
          (conserves_walkAlloc hw).congr (fun q ↦ holds_setPte_kernel hv (by omega) htable)
        dsimp only
        split
        · trivial
        split
        · exact hset
        · rename_i hne
          have hlt : v < last := Nat.lt_of_le_of_ne hle (fun h ↦ hne (by rw [h]))
          rw [next_page (by omega)]
          exact (ih (by omega) hlt).mono (fun r hr ↦ hset.trans hr)

theorem conserves_mappages {lo hi ppn : ℕ} {w us : Bool} (hlo : 2 ^ 19 ≤ lo) (hlt : lo < hi)
    (hhi : hi ≤ 2 ^ 20) :
    Ensures (fun r ↦ Conserves pgdir.holds m r.2.1.holds r.2.2) (fun _ ↦ True)
      (pgdir.mappages M (lo * PGSIZE) ((hi - lo) * PGSIZE) ppn w us m) := by
  rw [mappages_pages hlt hhi]
  exact conserves_mapLoop hlo (by omega) (by omega)

theorem count_filterMap {l : List ℕ} {g : ℕ → Option ℕ} :
    (l.filterMap g).count q = (l.map (fun v ↦ holding (g v) q)).sum := by
  induction l with
  | nil => rfl
  | cons v l ih =>
    rw [List.map_cons, List.sum_cons, ← ih]
    cases hg : g v with
    | none => rw [List.filterMap_cons_none hg, holding_none, Nat.zero_add]
    | some p => rw [List.filterMap_cons_some hg, count_cons_holding, Nat.add_comm]

theorem Freed.conserves {lo hi : ℕ} (h : Freed pgdir m lo hi pgdir' m') (hhi : hi ≤ 2 ^ 19) :
    Conserves pgdir.holds m pgdir'.holds m' := by
  have hsub : Ico lo hi ⊆ range (2 ^ 19) := fun v hv ↦
    mem_range.mpr (Nat.lt_of_lt_of_le (mem_Ico.mp hv).2 hhi)
  have hcount (q : ℕ) : (pgdir.present lo hi).count q = ∑ v ∈ Ico lo hi, holding (pgdir.userPage v) q :=
    count_filterMap
  refine ⟨fun q ↦ ?_, fun q hq ↦ h.phys q fun hp ↦ ?_⟩
  · have hin : ∑ v ∈ Ico lo hi, holding (pgdir'.userPage v) q = 0 := by
      refine sum_eq_zero fun v hv ↦ ?_
      have hv' := mem_range.mp (hsub hv)
      rw [userPage, h.tr (by omega), if_pos (mem_Ico.mp hv)]
      rfl
    have hout : ∑ v ∈ range (2 ^ 19) \ Ico lo hi, holding (pgdir'.userPage v) q =
        ∑ v ∈ range (2 ^ 19) \ Ico lo hi, holding (pgdir.userPage v) q := by
      refine sum_congr rfl fun v hv ↦ ?_
      obtain ⟨hv', hno⟩ := mem_sdiff.mp hv
      have hlt := mem_range.mp hv'
      rw [userPage, h.tr (by omega), if_neg (fun hin ↦ hno (mem_Ico.mpr hin)), userPage]
    have hsum := sum_sdiff (f := fun v ↦ holding (pgdir.userPage v) q) hsub
    have hsum' := sum_sdiff (f := fun v ↦ holding (pgdir'.userPage v) q) hsub
    rw [h.freelist, List.count_append, List.count_reverse, hcount]
    simp only [holds, h.tables.1, h.tables.2]
    omega
  · obtain ⟨u, e, h1, h2, he, rfl⟩ := mem_present.mp hp
    have hpos := single_le_sum (f := fun v ↦ holding (pgdir.userPage v) e.ppn)
      (fun _ _ ↦ Nat.zero_le _) (hsub (mem_Ico.mpr ⟨h1, h2⟩))
    rw [userPage, he, Option.map_some, holding_self] at hpos
    rw [holds] at hq
    omega

theorem conserves_deallocuvm {oldsz newsz : ℕ} (hsz : oldsz ≤ KERNBASE) :
    Ensures (fun r ↦ Conserves pgdir.holds m r.2.1.holds r.2.2) (fun _ ↦ True)
      (pgdir.deallocuvm M oldsz newsz m) := by
  by_cases hlt : newsz < oldsz
  · exact ((deallocuvm_cases hsz hlt).mono (fun r ⟨_, hr⟩ ↦ hr.conserves (pages_le hsz))).weaken
      (fun _ _ ↦ trivial)
  · rw [deallocuvm, if_pos (by omega)]
    exact .refl

theorem le_holds_user (hv : v < 2 ^ 19) : holding (pgdir.userPage v) q ≤ pgdir.holds q := by
  have hle := single_le_sum (f := fun v ↦ holding (pgdir.userPage v) q)
    (fun _ _ ↦ Nat.zero_le _) (mem_range.mpr hv)
  rw [holds]
  omega

theorem le_holds_table {i : ℕ} (hi : i < 1024) :
    holding (pgdir.tablePage i) q ≤ pgdir.holds q := by
  have hle := single_le_sum (f := fun i ↦ holding (pgdir.tablePage i) q)
    (fun _ _ ↦ Nat.zero_le _) (mem_range.mpr hi)
  rw [holds]
  omega

theorem two_le_holds (hu : u < 2 ^ 19) (hv : v < 2 ^ 19) (hne : u ≠ v)
    (hpu : pgdir.userPage u = some q) (hpv : pgdir.userPage v = some q) : 2 ≤ pgdir.holds q := by
  have hle : ∑ w ∈ {u, v}, holding (pgdir.userPage w) q ≤
      ∑ w ∈ range (2 ^ 19), holding (pgdir.userPage w) q := by
    refine sum_le_sum_of_subset (fun w hw ↦ mem_range.mpr ?_)
    rcases mem_insert.mp hw with rfl | hw
    · exact hu
    · rwa [mem_singleton.mp hw]
  rw [sum_pair hne, hpu, hpv, holding_self] at hle
  rw [holds]
  omega

theorem freeTables_ensures (held : ℕ → ℕ) {l : List ℕ}
    (hvalid : ∀ i ∈ l, ∀ p, pgdir.tablePage i = some p → Mem.Valid M p) :
    Ensures (fun m' ↦ Conserves
        (fun q ↦ held q + (l.map (fun i ↦ holding (pgdir.tablePage i) q)).sum) m held m')
      (fun _ ↦ False)
      (l.foldlM (fun m i ↦
        match pgdir.pde i with
        | some t => m.kfree M t.page
        | none => .ok m) m) := by
  induction l generalizing m with
  | nil => exact .refl
  | cons i l ih =>
    rw [List.foldlM_cons]
    have hrest (m₁ : Mem) := ih (m := m₁) (fun j hj ↦ hvalid j (List.mem_cons_of_mem i hj))
    cases ht : pgdir.pde i with
    | none =>
      have hnone : pgdir.tablePage i = none := by rw [tablePage, ht]; rfl
      dsimp only
      rw [ok_bind]
      simp only [List.map_cons, List.sum_cons, hnone, holding_none, Nat.zero_add]
      exact hrest m
    | some t =>
      have hsome : pgdir.tablePage i = some t.page := by rw [tablePage, ht]; rfl
      have hadd (q : ℕ) : held q + ((i :: l).map (fun i ↦ holding (pgdir.tablePage i) q)).sum =
          held q + (l.map (fun i ↦ holding (pgdir.tablePage i) q)).sum + holding (some t.page) q := by
        rw [List.map_cons, List.sum_cons, hsome]
        omega
      dsimp only
      refine (kfree_ensures (fun q ↦ held q + (l.map (fun i ↦ holding (pgdir.tablePage i) q)).sum)
        (hvalid i List.mem_cons_self _ hsome)).bind (fun m₁ hm₁ ↦ ?_)
      rw [← funext hadd] at hm₁
      exact (hrest m₁).mono (fun m' hm' ↦ hm₁.trans hm')

theorem freevm_ensures (hvalid : ∀ q, 0 < pgdir.holds q → Mem.Valid M q) :
    Ensures (fun m' ↦ Conserves pgdir.holds m (fun _ ↦ 0) m') (fun _ ↦ False)
      (pgdir.freevm M m) := by
  have hpos {x : Option ℕ} {p : ℕ} (hle : holding x p ≤ pgdir.holds p) (hx : x = some p) :
      0 < pgdir.holds p := by
    rw [hx, holding_self] at hle
    omega
  have hpages : pages KERNBASE = 2 ^ 19 := by decide
  have hdealloc : Ensures (fun r ↦ Freed pgdir m 0 (2 ^ 19) r.2.1 r.2.2) (fun _ ↦ False)
      (pgdir.deallocuvm M KERNBASE 0 m) := by
    rw [← hpages]
    refine (deallocuvm_ensures (Nat.le_refl _) (by decide) ?_).mono (fun r hr ↦ hr.2)
    intro u pte _ hu he
    rw [hpages] at hu
    exact hvalid _ (hpos (le_holds_user hu) (by rw [userPage, he]; rfl))
  rw [freevm]
  refine hdealloc.bind ?_
  rintro ⟨sz, pgdir₁, m₁⟩ hfreed
  have hcons := hfreed.conserves (Nat.le_refl _)
  have hpage := hfreed.tables.1
  have htables := hfreed.tables.2
  dsimp only at hfreed hcons hpage htables ⊢
  -- only the tables and the directory are left
  have hholds (q : ℕ) : pgdir₁.holds q = holding (some pgdir₁.page) q +
      ((List.range NPDENTRIES).map (fun i ↦ holding (pgdir₁.tablePage i) q)).sum := by
    have huser : ∑ v ∈ range (2 ^ 19), holding (pgdir₁.userPage v) q = 0 := by
      refine sum_eq_zero (fun v hv ↦ ?_)
      have hv' := mem_range.mp hv
      rw [userPage, hfreed.tr (by omega), if_pos ⟨Nat.zero_le v, hv'⟩]
      rfl
    have hsum : ((List.range NPDENTRIES).map (fun i ↦ holding (pgdir₁.tablePage i) q)).sum =
        ∑ i ∈ range 1024, holding (pgdir₁.tablePage i) q := rfl
    rw [holds, huser, hsum, Nat.add_zero]
  rw [funext hholds] at hcons
  refine (freeTables_ensures (fun q ↦ holding (some pgdir₁.page) q) (fun i hi p hp ↦ ?_)).bind ?_
  · rw [htables i] at hp
    exact hvalid p (hpos (le_holds_table (List.mem_range.mp hi)) hp)
  intro m₂ hm₂
  have hself : 0 < pgdir.holds pgdir₁.page := by
    rw [hpage, holds, holding_self]
    omega
  refine (kfree_ensures (fun _ ↦ 0) (hvalid _ hself)).mono (fun m₃ hm₃ ↦ ?_)
  simp only [Nat.zero_add] at hm₃
  exact (hcons.trans hm₂).trans hm₃

theorem conserves_allocLoop {oldsz newsz fuel : ℕ} (hsz : newsz ≤ KERNBASE) :
    Ensures (fun r ↦ Conserves pgdir.holds m r.2.1.holds r.2.2) (fun _ ↦ True)
      (allocLoop M oldsz newsz fuel (v * PGSIZE) pgdir m) := by
  have hle := pages_le hsz
  induction fuel generalizing v pgdir m with
  | zero => trivial
  | succ fuel ih =>
    rw [allocLoop]
    split
    swap
    · exact .refl
    rename_i hlt
    have hv := lt_pages.mpr hlt
    cases hk : m.kalloc M with
    | mk q m₁ =>
      cases q with
      | none =>
        exact (conserves_deallocuvm hsz).bind (fun r hr ↦ (conserves_kalloc_none hk).trans hr)
      | some p =>
        have hcons : Conserves pgdir.holds m (fun q ↦ pgdir.holds q + holding (some p) q)
            (m₁.fill p 0) := conserves_kalloc_some hk
        refine (conserves_mappage (by omega)).bind ?_
        rintro ⟨mapped, pgdir₁, m₂⟩ hr
        have hcons₂ := hcons.trans hr
        dsimp only at hcons₂ ⊢
        cases mapped with
        | true =>
          rw [if_pos rfl, next_page (by omega)]
          refine ih.mono (fun r hr ↦ Conserves.trans (hcons₂.congr fun q ↦ ?_) hr)
          rw [if_pos rfl, holding_none, Nat.add_zero]
        | false =>
          rw [if_neg (by simp)]
          refine (conserves_deallocuvm hsz).bind ?_
          rintro ⟨sz, pgdir₂, m₃⟩ hdealloc
          have hcons₃ := hcons₂.trans (hdealloc.frame _)
          by_cases hvalid : Mem.Valid M p
          · refine ((kfree_ensures pgdir₂.holds hvalid).weaken (fun _ ↦ False.elim)).bind ?_
            exact fun m₄ hm₄ ↦ hcons₃.trans hm₄
          · dsimp only
            rw [Mem.kfree, if_neg hvalid]
            trivial

theorem conserves_allocuvm {oldsz newsz : ℕ} :
    Ensures (fun r ↦ Conserves pgdir.holds m r.2.1.holds r.2.2) (fun _ ↦ True)
      (pgdir.allocuvm M oldsz newsz m) := by
  rw [allocuvm]
  split
  · exact .refl
  split
  · exact .refl
  rw [PGROUNDUP_eq (by omega)]
  exact conserves_allocLoop (by omega)

def Separate (pgdir : Pgdir) : Prop :=
  ∀ u v e e', u < 2 ^ 19 → v < 2 ^ 19 → pgdir.tr u = some e → pgdir.tr v = some e' →
    e.ppn = e'.ppn → u = v

theorem holds_pos {e : Pte} (hv : v < 2 ^ 19) (he : pgdir.tr v = some e) : 0 < pgdir.holds e.ppn := by
  have hle : holding (pgdir.userPage v) e.ppn ≤ pgdir.holds e.ppn := le_holds_user hv
  rw [userPage, he, Option.map_some, holding_self] at hle
  exact hle

theorem of_holds_pos (h : 0 < pgdir.holds q) : pgdir.page = q ∨
    (∃ i, i < 1024 ∧ pgdir.tablePage i = some q) ∨ ∃ v, v < 2 ^ 19 ∧ pgdir.userPage v = some q := by
  have hslot {x : Option ℕ} (hx : holding x q ≠ 0) : x = some q := by
    by_contra hno
    exact hx (if_neg hno)
  by_contra hno
  rw [not_or, not_or] at hno
  have hpage : holding (some pgdir.page) q = 0 := if_neg (fun hp ↦ hno.1 (Option.some.inj hp))
  have htables : ∑ i ∈ range 1024, holding (pgdir.tablePage i) q = 0 :=
    sum_eq_zero fun i hi ↦ by_contra fun hx ↦ hno.2.1 ⟨i, mem_range.mp hi, hslot hx⟩
  have husers : ∑ v ∈ range (2 ^ 19), holding (pgdir.userPage v) q = 0 :=
    sum_eq_zero fun v hv ↦ by_contra fun hx ↦ hno.2.2 ⟨v, mem_range.mp hv, hslot hx⟩
  rw [holds, hpage, htables, husers] at h
  exact Nat.lt_irrefl 0 h

/-! Of an address space that was made from pages that were free. -/

theorem not_free {m₀ : Mem} (h : Conserves (fun _ ↦ 0) m₀ pgdir.holds m)
    (hnd : m₀.freelist.Nodup) (hq : 0 < pgdir.holds q) : q ∉ m.freelist := by
  have hone := h.add_le_one hnd (q := q)
  exact List.count_eq_zero.mp (by omega)

theorem separate {m₀ : Mem} (h : Conserves (fun _ ↦ 0) m₀ pgdir.holds m)
    (hnd : m₀.freelist.Nodup) : pgdir.Separate := by
  intro u v e e' hu hv heu hev heq
  by_contra hne
  have htwo := two_le_holds (q := e.ppn) hu hv hne (by rw [userPage, heu]; rfl)
    (by rw [userPage, hev, heq]; rfl)
  have hone := h.add_le_one hnd (q := e.ppn)
  omega

def held : Option Pgdir → ℕ → ℕ
  | none => fun _ ↦ 0
  | some pgdir => pgdir.holds

section Setup

variable {m₀ : Mem} {ks : List Kmap} {data : ℕ} (hvalid : ∀ p ∈ m₀.freelist, Mem.Valid M p)
include hvalid

theorem setupLoop_conserves (h : Conserves (fun _ ↦ 0) m₀ pgdir.holds m)
    (hks : ∀ k ∈ ks, ∃ lo hi ppn, k.Covers lo hi ppn ∧ 2 ^ 19 ≤ lo)
    (hd : ks.Pairwise Kmap.Disjoint) (hn : Unmapped ks pgdir) :
    Ensures (fun r ↦ Conserves (fun _ ↦ 0) m₀ (held r.1) r.2) (fun _ ↦ False)
      (setupLoop M ks pgdir m) := by
  induction ks generalizing pgdir m with
  | nil => exact h
  | cons k ks ih =>
    obtain ⟨hdk, hds⟩ := List.pairwise_cons.mp hd
    obtain ⟨lo, hi, ppn, hk, hlo⟩ := hks k List.mem_cons_self
    refine setupLoop_cons hk hdk hn (fun pgdir₁ m₁ hmap _ _ hn₁ ↦ ?_) (fun pgdir₁ m₁ hmap _ ↦ ?_) <;>
      have h₁ := h.trans ((conserves_mappages hlo hk.lt hk.le).of_ok hmap)
    · exact ih h₁ (fun k' hk' ↦ hks k' (List.mem_cons_of_mem k hk')) hds hn₁
    · refine (freevm_ensures (fun q hq ↦ hvalid q (h₁.mem_of_held hq))).bind (fun m₂ hm₂ ↦ ?_)
      exact h₁.trans hm₂

theorem setupkvm_conserves (hl : Linked data) :
    Ensures (fun r ↦ Conserves (fun _ ↦ 0) m₀ (held r.1) r.2) (fun _ ↦ False)
      (setupkvm M data m₀) := by
  rw [setupkvm]
  cases hk : m₀.kalloc M with
  | mk q m₁ =>
    cases q with
    | none => exact conserves_kalloc_none hk
    | some p =>
      have hempty (v : ℕ) : Pgdir.tr ⟨p, fun _ ↦ none⟩ v = none := rfl
      have hholds (q : ℕ) : Pgdir.holds ⟨p, fun _ ↦ none⟩ q = 0 + holding (some p) q := by
        simp [holds, tablePage, userPage, hempty]
      dsimp only
      rw [if_neg (by decide)]
      refine setupLoop_conserves hvalid ((conserves_kalloc_some hk).congr hholds) (fun k hk ↦ ?_)
        (kmap_disjoint hl) (fun k _ v _ _ ↦ hempty v)
      obtain ⟨lo, hi, ppn, hc, hlo, -⟩ := kmap_covers hl k hk
      exact ⟨lo, hi, ppn, hc, hlo⟩

end Setup

end Pgdir

end Xv6Bfs.Vm

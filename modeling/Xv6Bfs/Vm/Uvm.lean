import Xv6Bfs.Vm.PageTable

namespace Xv6Bfs.Vm

open Lib.Execution Function

variable {M : Machine} {pgdir pgdir' : Pgdir} {m m' : Mem} {u v lo mid hi p k l sz ppn : ℕ}
  {e : Option Pte} {w us : Bool}

def pages (sz : ℕ) : ℕ := (sz + PGSIZE - 1) / PGSIZE

theorem lt_pages : v < pages sz ↔ v * PGSIZE < sz := by
  simp only [pages, PGSIZE]
  omega

theorem pages_mono {sz sz' : ℕ} (h : sz ≤ sz') : pages sz ≤ pages sz' := by
  simp only [pages, PGSIZE]
  omega

theorem PGROUNDUP_eq (h : sz ≤ KERNBASE) : PGROUNDUP sz = pages sz * PGSIZE := by
  rw [PGROUNDUP, pages, Nat.mod_eq_of_lt]
  simp only [PGSIZE, KERNBASE] at h ⊢
  omega

theorem pages_le (h : sz ≤ KERNBASE) : pages sz ≤ 2 ^ 19 := by
  simp only [pages, PGSIZE, KERNBASE] at h ⊢
  omega

theorem next_page (h : v + 1 < 2 ^ 20) : (v * PGSIZE + PGSIZE) % 2 ^ 32 = (v + 1) * PGSIZE := by
  simp only [PGSIZE]
  omega

theorem valid_ne_zero (h : Mem.Valid M p) : p ≠ 0 := by
  rintro rfl
  have := h.1
  have := M.kend_gt
  omega

theorem fill_phys_ne {p q : ℕ} {c : UInt8} (h : q ≠ p) : (m.fill p c).phys q = m.phys q := by
  rw [Mem.fill]
  exact update_of_ne h _ _

namespace Pgdir

def tr (pgdir : Pgdir) (v : ℕ) : Option Pte := (pgdir.walk (v * PGSIZE)).join

theorem PDX_page : PDX (v * PGSIZE) = v / 1024 % 1024 := by
  simp only [PDX, PGSIZE]
  omega

theorem PTX_page : PTX (v * PGSIZE) = v % 1024 := by
  simp only [PTX, PGSIZE]
  omega

theorem walk_page : pgdir.walk (v * PGSIZE) =
    (pgdir.pde (v / 1024 % 1024)).map (fun t ↦ t.pte (v % 1024)) := by
  rw [walk, PDX_page, PTX_page]

def HasTable (pgdir : Pgdir) (v : ℕ) : Prop := pgdir.walk (v * PGSIZE) ≠ none

theorem hasTable_of_tr (h : pgdir.tr v ≠ none) : pgdir.HasTable v := by
  intro hn
  rw [tr, hn] at h
  exact h rfl

theorem tr_of_walk_none (h : pgdir.walk (v * PGSIZE) = none) (hu : u / 1024 = v / 1024) :
    pgdir.tr u = none := by
  rw [walk_page, Option.map_eq_none_iff] at h
  rw [tr, walk_page, hu, h]
  rfl

theorem walk_setPte (hv : v < 2 ^ 20) (hu : u < 2 ^ 20) (h : pgdir.HasTable v) :
    (pgdir.setPte (v * PGSIZE) e).walk (u * PGSIZE) =
      if u = v then some e else pgdir.walk (u * PGSIZE) := by
  rw [HasTable, walk_page] at h
  rw [setPte, PDX_page, PTX_page, walk_page, walk_page]
  cases ht : pgdir.pde (v / 1024 % 1024) with
  | none => simp [ht] at h
  | some t =>
    by_cases hd : u / 1024 % 1024 = v / 1024 % 1024
    · rw [hd, ht]
      simp only [setTable, update_self, Option.map_some]
      by_cases huv : u = v
      · rw [if_pos huv, huv, update_self]
      · rw [if_neg huv, update_of_ne (by omega)]
    · rw [if_neg (fun huv ↦ hd (by rw [huv]))]
      simp only [setTable, update_of_ne hd]

theorem tr_setPte (hv : v < 2 ^ 20) (hu : u < 2 ^ 20) (h : pgdir.HasTable v) :
    (pgdir.setPte (v * PGSIZE) e).tr u = if u = v then e else pgdir.tr u := by
  rw [tr, walk_setPte hv hu h]
  split <;> rfl

theorem hasTable_setPte (h : pgdir.HasTable u) : (pgdir.setPte (v * PGSIZE) e).HasTable u := by
  rw [HasTable, walk_page] at h ⊢
  rw [setPte, PDX_page]
  cases ht : pgdir.pde (v / 1024 % 1024) with
  | none => exact h
  | some t =>
    by_cases hd : u / 1024 % 1024 = v / 1024 % 1024
    · simp [setTable, hd]
    · simpa only [setTable, update_of_ne hd] using h

def tablePage (pgdir : Pgdir) (i : ℕ) : Option ℕ := (pgdir.pde i).map Table.page

theorem tablePage_setPte (i : ℕ) :
    (pgdir.setPte (v * PGSIZE) e).tablePage i = pgdir.tablePage i := by
  rw [setPte, tablePage, tablePage]
  cases ht : pgdir.pde (PDX (v * PGSIZE)) with
  | none => rfl
  | some t =>
    by_cases hi : i = PDX (v * PGSIZE)
    · simp [setTable, hi, ht]
    · simp [setTable, update_of_ne hi]

theorem page_setPte : (pgdir.setPte (v * PGSIZE) e).page = pgdir.page := by
  rw [setPte]
  split <;> rfl

def SameTables (pgdir pgdir' : Pgdir) : Prop :=
  pgdir'.page = pgdir.page ∧ ∀ i, pgdir'.tablePage i = pgdir.tablePage i

def present (pgdir : Pgdir) (lo hi : ℕ) : List ℕ :=
  (List.range' lo (hi - lo)).filterMap (fun v ↦ (pgdir.tr v).map Pte.ppn)

theorem present_skip (hle : lo ≤ mid)
    (hn : ∀ u, lo ≤ u → u < mid → pgdir.tr u = none) : pgdir.present lo hi = pgdir.present mid hi := by
  obtain ⟨k, rfl⟩ := Nat.exists_eq_add_of_le hle
  induction k with
  | zero => rfl
  | succ k ih =>
    rw [ih (Nat.le_add_right lo k) (fun u h1 h2 ↦ hn u h1 (by omega))]
    by_cases hlt : lo + k < hi
    · rw [present, present, show hi - (lo + k) = hi - (lo + (k + 1)) + 1 by omega, List.range'_succ,
        List.filterMap_cons, hn (lo + k) (by omega) (by omega)]
      rfl
    · rw [present, present, show hi - (lo + k) = 0 by omega, show hi - (lo + (k + 1)) = 0 by omega]
      rfl

theorem present_cons {pte : Pte} (hlt : v < hi) (he : pgdir.tr v = some pte) :
    pgdir.present v hi = pte.ppn :: pgdir.present (v + 1) hi := by
  rw [present, present, show hi - v = hi - (v + 1) + 1 by omega, List.range'_succ,
    List.filterMap_cons, he]
  rfl

theorem present_congr (h : ∀ u, lo ≤ u → u < hi → pgdir'.tr u = pgdir.tr u) :
    pgdir'.present lo hi = pgdir.present lo hi := by
  refine List.filterMap_congr (fun u hu ↦ ?_)
  rw [List.mem_range'_1] at hu
  rw [h u hu.1 (by omega)]

def Cleared (pgdir : Pgdir) (lo hi : ℕ) (pgdir' : Pgdir) : Prop :=
  ∀ u, u < 2 ^ 20 → pgdir'.walk (u * PGSIZE) =
    if lo ≤ u ∧ u < hi then (pgdir.walk (u * PGSIZE)).map (fun _ ↦ none) else pgdir.walk (u * PGSIZE)

theorem Cleared.skip (h : Cleared pgdir mid hi pgdir') (hle : lo ≤ mid)
    (hn : ∀ u, lo ≤ u → u < mid → pgdir.tr u = none) : Cleared pgdir lo hi pgdir' := by
  intro u hu
  rw [h u hu]
  by_cases hm : mid ≤ u
  · simp only [hm, Nat.le_trans hle hm, true_and]
  · rw [if_neg (by omega)]
    split
    · have hnone := hn u (by omega) (by omega)
      rw [tr] at hnone
      cases hw : pgdir.walk (u * PGSIZE) with
      | none => rfl
      | some x =>
        rw [hw] at hnone
        cases hnone
        rfl
    · rfl

theorem Cleared.cons (hv : v < 2 ^ 20) (hlt : v < hi) (htable : pgdir.HasTable v)
    (h : Cleared (pgdir.setPte (v * PGSIZE) none) (v + 1) hi pgdir') :
    Cleared pgdir v hi pgdir' := by
  intro u hu
  rw [h u hu, walk_setPte hv hu htable]
  by_cases huv : u = v
  · rw [if_neg (by omega), if_pos huv, if_pos (by omega), huv]
    obtain ⟨x, hx⟩ := Option.ne_none_iff_exists'.mp htable
    rw [hx]
    rfl
  · have hiff : v + 1 ≤ u ∧ u < hi ↔ v ≤ u ∧ u < hi := by omega
    simp only [huv, if_false, hiff]

theorem mem_present :
    p ∈ pgdir.present lo hi ↔ ∃ u e, lo ≤ u ∧ u < hi ∧ pgdir.tr u = some e ∧ e.ppn = p := by
  simp only [present, List.mem_filterMap, List.mem_range'_1, Option.map_eq_some_iff]
  constructor
  · rintro ⟨u, ⟨h1, h2⟩, e, he, hp⟩
    exact ⟨u, e, h1, by omega, he, hp⟩
  · rintro ⟨u, e, h1, h2, he, hp⟩
    exact ⟨u, ⟨h1, by omega⟩, e, he, hp⟩

/-- What the loop of `deallocuvm` has done to the pages from `lo` up to `hi`. -/
structure Freed (pgdir : Pgdir) (m : Mem) (lo hi : ℕ) (pgdir' : Pgdir) (m' : Mem) : Prop where
  cleared : Cleared pgdir lo hi pgdir'
  tables : SameTables pgdir pgdir'
  freelist : m'.freelist = (pgdir.present lo hi).reverse ++ m.freelist
  phys : ∀ p, p ∉ pgdir.present lo hi → m'.phys p = m.phys p

def Freeable (M : Machine) (pgdir : Pgdir) (lo hi : ℕ) : Prop :=
  ∀ u e, lo ≤ u → u < hi → pgdir.tr u = some e → Mem.Valid M e.ppn

theorem Freed.tr (h : Freed pgdir m lo hi pgdir' m') (hu : u < 2 ^ 20) :
    pgdir'.tr u = if lo ≤ u ∧ u < hi then Option.none else pgdir.tr u := by
  rw [Pgdir.tr, h.cleared u hu]
  split
  · cases pgdir.walk (u * PGSIZE) <;> rfl
  · rfl

theorem Freed.none (h : hi ≤ lo) : Freed pgdir m lo hi pgdir m := by
  refine ⟨fun u _ ↦ by rw [if_neg (by omega)], ⟨rfl, fun _ ↦ rfl⟩, ?_, fun _ _ ↦ rfl⟩
  rw [present, show hi - lo = 0 by omega]
  rfl

theorem Freed.skip (h : Freed pgdir m mid hi pgdir' m') (hle : lo ≤ mid)
    (hn : ∀ u, lo ≤ u → u < mid → pgdir.tr u = Option.none) : Freed pgdir m lo hi pgdir' m' := by
  have hpresent : pgdir.present lo hi = pgdir.present mid hi := present_skip hle hn
  exact ⟨h.cleared.skip hle hn, h.tables, by rw [h.freelist, hpresent], by rw [hpresent]; exact h.phys⟩

theorem kfree_ok (h : Mem.Valid M p) :
    m.kfree M p = .ok { m.fill p 1 with freelist := p :: m.freelist } := by
  rw [Mem.kfree, if_pos h]
  rfl

theorem Freed.cons {pte : Pte} (hlt : v < hi) (hhi : hi ≤ 2 ^ 20)
    (he : pgdir.tr v = some pte) (h : Freed (pgdir.setPte (v * PGSIZE) Option.none)
      { m.fill pte.ppn 1 with freelist := pte.ppn :: m.freelist } (v + 1) hi pgdir' m') :
    Freed pgdir m v hi pgdir' m' := by
  have htable : pgdir.HasTable v := hasTable_of_tr (by rw [he]; simp)
  have hpresent : pgdir.present v hi =
      pte.ppn :: (pgdir.setPte (v * PGSIZE) Option.none).present (v + 1) hi := by
    rw [present_cons hlt he]
    refine congrArg _ (present_congr fun u h1 h2 ↦ ?_).symm
    rw [tr_setPte (by omega) (by omega) htable, if_neg (by omega)]
  refine ⟨h.cleared.cons (by omega) hlt htable, ⟨h.tables.1.trans page_setPte, fun i ↦
    (h.tables.2 i).trans (tablePage_setPte i)⟩, ?_, fun p hp ↦ ?_⟩
  · rw [h.freelist, hpresent, List.reverse_cons, List.append_assoc]
    rfl
  · rw [hpresent, List.mem_cons, not_or] at hp
    rw [h.phys p hp.2]
    exact fill_phys_ne hp.1

theorem deallocLoop_ensures {oldsz fuel : ℕ} (hsz : oldsz ≤ KERNBASE)
    (hfuel : pages oldsz - v < fuel) :
    Ensures (fun r ↦ Freed pgdir m v (pages oldsz) r.1 r.2)
      (fun e ↦ e = .kfree ∧ ¬ Freeable M pgdir v (pages oldsz))
      (deallocLoop M oldsz fuel (v * PGSIZE) pgdir m) := by
  have hle := pages_le hsz
  induction fuel generalizing v pgdir m with
  | zero => omega
  | succ fuel ih =>
    -- the rest of the loop when the pages before it are not present
    have hskip {mid : ℕ} (hlt : v < pages oldsz) (h1 : v < mid)
        (hn : ∀ u, v ≤ u → u < mid → pgdir.tr u = none) :
        Ensures (fun r ↦ Freed pgdir m v (pages oldsz) r.1 r.2)
          (fun e ↦ e = .kfree ∧ ¬ Freeable M pgdir v (pages oldsz))
          (deallocLoop M oldsz fuel (mid * PGSIZE) pgdir m) := by
      refine ((ih (by omega)).mono (fun r hr ↦ hr.skip (Nat.le_of_lt h1) hn)).weaken ?_
      rintro e ⟨rfl, hno⟩
      exact ⟨rfl, fun hfree ↦ hno (fun u e h2 ↦ hfree u e (by omega))⟩
    rw [deallocLoop]
    by_cases hlt : v < pages oldsz
    · rw [if_pos (lt_pages.mp hlt)]
      cases hw : pgdir.walk (v * PGSIZE) with
      | none =>
        -- on to the next table
        have hnext : (PDX (v * PGSIZE) + 1) * 2 ^ 22 % 2 ^ 32 = (v / 1024 + 1) * 1024 * PGSIZE := by
          rw [PDX_page, PGSIZE]
          omega
        dsimp only
        rw [hnext]
        exact hskip hlt (by omega) (fun u h1 h2 ↦ tr_of_walk_none hw (by omega))
      | some x =>
        cases x with
        | none =>
          dsimp only
          rw [next_page (by omega)]
          refine hskip hlt (by omega) (fun u h1 h2 ↦ ?_)
          rw [show u = v by omega, tr, hw]
          rfl
        | some pte =>
          have he : pgdir.tr v = some pte := by
            rw [tr, hw]
            rfl
          have htable : pgdir.HasTable v := hasTable_of_tr (by rw [he]; simp)
          dsimp only
          by_cases hvalid : Mem.Valid M pte.ppn
          · rw [if_neg (valid_ne_zero hvalid), kfree_ok hvalid, ok_bind, next_page (by omega)]
            refine ((ih (by omega)).mono (fun r hr ↦ hr.cons hlt (by omega) he)).weaken ?_
            rintro e ⟨rfl, hno⟩
            refine ⟨rfl, fun hfree ↦ hno (fun u e h1 h2 hu ↦ hfree u e (by omega) h2 ?_)⟩
            rwa [tr_setPte (by omega) (by omega) htable, if_neg (by omega)] at hu
          · have hno : ¬ Freeable M pgdir v (pages oldsz) :=
              fun hfree ↦ hvalid (hfree v pte (Nat.le_refl v) hlt he)
            by_cases hzero : pte.ppn = 0
            · rw [if_pos hzero]
              exact ⟨rfl, hno⟩
            · rw [if_neg hzero, Mem.kfree, if_neg hvalid]
              exact ⟨rfl, hno⟩
    · rw [if_neg (fun h ↦ hlt (lt_pages.mpr h))]
      exact .none (by omega)

theorem deallocuvm_cases {oldsz newsz : ℕ} (hsz : oldsz ≤ KERNBASE) (hlt : newsz < oldsz) :
    Ensures (fun r ↦ r.1 = newsz ∧ Freed pgdir m (pages newsz) (pages oldsz) r.2.1 r.2.2)
      (fun e ↦ e = .kfree ∧ ¬ Freeable M pgdir (pages newsz) (pages oldsz))
      (pgdir.deallocuvm M oldsz newsz m) := by
  have hle := pages_le hsz
  rw [deallocuvm, if_neg (by omega), PGROUNDUP_eq (by omega)]
  exact (deallocLoop_ensures hsz (by omega)).bind (fun r hr ↦ ⟨rfl, hr⟩)

theorem deallocuvm_ensures {oldsz newsz : ℕ} (hsz : oldsz ≤ KERNBASE) (hlt : newsz < oldsz)
    (hfree : Freeable M pgdir (pages newsz) (pages oldsz)) :
    Ensures (fun r ↦ r.1 = newsz ∧ Freed pgdir m (pages newsz) (pages oldsz) r.2.1 r.2.2)
      (fun _ ↦ False) (pgdir.deallocuvm M oldsz newsz m) :=
  (deallocuvm_cases hsz hlt).weaken (fun _ h ↦ h.2 hfree)

end Pgdir

structure Draws (k : ℕ) (m m' : Mem) : Prop where
  freelist : m'.freelist <:+ m.freelist
  count : m.freelist.length ≤ m'.freelist.length + k
  phys : ∀ p, p ∉ m.freelist → m'.phys p = m.phys p

theorem Draws.refl : Draws 0 m m := ⟨List.suffix_refl _, Nat.le_refl _, fun _ _ ↦ rfl⟩

theorem Draws.trans {m₁ m₂ m₃ : Mem} (h : Draws k m₁ m₂) (h' : Draws l m₂ m₃) :
    Draws (k + l) m₁ m₃ := by
  refine ⟨h'.freelist.trans h.freelist, ?_, fun p hp ↦ ?_⟩
  · have := h.count
    have := h'.count
    omega
  · rw [h'.phys p (fun hm ↦ hp (h.freelist.subset hm)), h.phys p hp]

theorem Draws.mono (h : Draws k m m') (hle : k ≤ l) : Draws l m m' :=
  ⟨h.freelist, Nat.le_trans h.count (Nat.add_le_add_left hle _), h.phys⟩

/-- There may be no page after `k` pages have been taken. -/
def Short (M : Machine) (m : Mem) (k : ℕ) : Prop :=
  (∃ i, M.fails i = true) ∨ m.freelist.length ≤ k

theorem Short.mono (h : Short M m k) (hle : k ≤ l) : Short M m l :=
  h.imp_right (fun hk ↦ Nat.le_trans hk hle)

theorem Draws.short (hd : Draws k m m') (h : Short M m' l) : Short M m (k + l) := by
  refine h.imp_right (fun hl ↦ ?_)
  have := hd.count
  omega

theorem kalloc_eq_none (h : m.kalloc M = (none, m')) :
    m'.freelist = m.freelist ∧ m'.phys = m.phys ∧ Short M m 0 := by
  rw [Mem.kalloc] at h
  split at h
  · rename_i hf
    cases h
    exact ⟨rfl, rfl, .inl ⟨_, hf⟩⟩
  · split at h
    · rename_i hl
      cases h
      exact ⟨rfl, rfl, .inr (by rw [hl]; exact Nat.le_refl _)⟩
    · cases h

theorem kalloc_eq_some (h : m.kalloc M = (some p, m')) :
    m.freelist = p :: m'.freelist ∧ m'.phys = m.phys := by
  rw [Mem.kalloc] at h
  split at h
  · cases h
  · split at h
    · cases h
    · rename_i hl
      cases h
      exact ⟨hl, rfl⟩

theorem kalloc_none (h : m.kalloc M = (none, m')) : Draws 0 m m' ∧ Short M m 0 := by
  obtain ⟨hfree, hphys, hs⟩ := kalloc_eq_none h
  exact ⟨⟨hfree ▸ List.suffix_refl _, by rw [hfree]; exact Nat.le_refl _, fun p _ ↦ by rw [hphys]⟩, hs⟩

theorem kalloc_some (h : m.kalloc M = (some p, m')) :
    p ∈ m.freelist ∧ ∀ f, Draws 1 m { m' with phys := update m'.phys p f } := by
  obtain ⟨hl, hphys⟩ := kalloc_eq_some h
  rw [hl]
  refine ⟨List.mem_cons_self, fun f ↦ ⟨?_, ?_, fun q hq ↦ ?_⟩⟩
  · rw [hl]
    exact List.suffix_cons _ _
  · rw [hl]
    exact Nat.le_refl _
  · rw [hl, List.mem_cons, not_or] at hq
    rw [← hphys]
    exact update_of_ne hq.1 _ _

namespace Pgdir

def missing (pgdir : Pgdir) (v : ℕ) : ℕ := if (pgdir.walk (v * PGSIZE)).isSome then 0 else 1

theorem missing_le : pgdir.missing v ≤ 1 := by
  rw [missing]
  split <;> omega

theorem missing_of_hasTable (h : pgdir.HasTable v) : pgdir.missing v = 0 := by
  rw [missing, if_pos (Option.isSome_iff_ne_none.mpr h)]

theorem hasTable_group (h : pgdir.HasTable v) (hu : u / 1024 = v / 1024) : pgdir.HasTable u := by
  rw [HasTable, walk_page, ne_eq, Option.map_eq_none_iff] at h ⊢
  rwa [hu]

theorem walkAlloc_none (h : pgdir.walkAlloc M (v * PGSIZE) m = (none, m')) :
    Draws 0 m m' ∧ Short M m 0 := by
  rw [walkAlloc] at h
  split at h
  · cases h
  · cases hk : m.kalloc M with
    | mk q m₁ =>
      rw [hk] at h
      cases q with
      | none =>
        cases h
        exact kalloc_none hk
      | some p => cases h

theorem walkAlloc_some (h : pgdir.walkAlloc M (v * PGSIZE) m = (some pgdir', m')) :
    Draws (pgdir.missing v) m m' ∧ pgdir'.HasTable v ∧ (∀ u, pgdir'.tr u = pgdir.tr u) ∧
      ∀ u, pgdir'.HasTable u → pgdir.HasTable u ∨ u / 1024 % 1024 = v / 1024 % 1024 := by
  rw [walkAlloc, PDX_page] at h
  rw [missing, walk_page]
  cases ht : pgdir.pde (v / 1024 % 1024) with
  | some t =>
    rw [ht] at h
    cases h
    exact ⟨.refl, by simp [HasTable, walk_page, ht], fun _ ↦ rfl, fun _ hu ↦ .inl hu⟩
  | none =>
    rw [ht] at h
    cases hk : m.kalloc M with
    | mk r m₁ =>
      rw [hk] at h
      cases r with
      | none => cases h
      | some p =>
        cases h
        refine ⟨(kalloc_some hk).2 _, by simp [HasTable, walk_page, setTable], fun u ↦ ?_, fun u hu ↦ ?_⟩
        · rw [tr, tr, walk_page, walk_page]
          by_cases hd : u / 1024 % 1024 = v / 1024 % 1024
          · rw [hd, ht]
            simp [setTable]
          · simp only [setTable, update_of_ne hd]
        · by_cases hd : u / 1024 % 1024 = v / 1024 % 1024
          · exact .inr hd
          · rw [HasTable, walk_page] at hu ⊢
            simp only [setTable, update_of_ne hd] at hu
            exact .inl hu

theorem tables_setPte (h : (pgdir.setPte (v * PGSIZE) e).HasTable u) (hv : pgdir.HasTable v) :
    pgdir.HasTable u := by
  rw [HasTable, walk_page] at h hv ⊢
  rw [setPte, PDX_page] at h
  cases ht : pgdir.pde (v / 1024 % 1024) with
  | none => simp [ht] at hv
  | some t =>
    by_cases hd : u / 1024 % 1024 = v / 1024 % 1024
    · simp [hd, ht]
    · rw [ht] at h
      simpa only [setTable, update_of_ne hd] using h

/-- Of the pages from `lo` up to `hi`, those up to `k` have been mapped, from the physical page `ppn`
on. -/
structure Mapped (pgdir : Pgdir) (lo hi ppn : ℕ) (w us : Bool) (k : ℕ) (pgdir' : Pgdir) : Prop where
  le : lo ≤ k ∧ k ≤ hi
  tr : ∀ u, u < 2 ^ 20 →
    pgdir'.tr u = if lo ≤ u ∧ u < k then some ⟨ppn + (u - lo), w, us⟩ else pgdir.tr u
  tables : ∀ u, u < 2 ^ 20 → pgdir'.HasTable u →
    pgdir.HasTable u ∨ lo / 1024 ≤ u / 1024 ∧ u / 1024 ≤ (hi - 1) / 1024

theorem Mapped.cons {pgdir₁ : Pgdir} (hv : v < hi) (hhi : hi ≤ 2 ^ 20)
    (htable : pgdir₁.HasTable v) (htr : ∀ u, pgdir₁.tr u = pgdir.tr u)
    (htables : ∀ u, pgdir₁.HasTable u → pgdir.HasTable u ∨ u / 1024 % 1024 = v / 1024 % 1024)
    (h : Mapped (pgdir₁.setPte (v * PGSIZE) (some ⟨ppn, w, us⟩)) (v + 1) hi (ppn + 1) w us k pgdir') :
    Mapped pgdir v hi ppn w us k pgdir' := by
  have hle := h.le
  refine ⟨by omega, fun u hu ↦ ?_, fun u hu hut ↦ ?_⟩
  · rw [h.tr u hu, tr_setPte (by omega) hu htable, htr u]
    by_cases huv : u = v
    · rw [if_neg (by omega), if_pos huv, if_pos (by omega), huv, Nat.sub_self]
      rfl
    · rw [if_neg huv]
      by_cases hin : v + 1 ≤ u ∧ u < k
      · rw [if_pos hin, if_pos (by omega), show ppn + 1 + (u - (v + 1)) = ppn + (u - v) by omega]
      · rw [if_neg hin, if_neg (by omega)]
  · rcases h.tables u hu hut with hut | hut
    · rcases htables u (tables_setPte hut htable) with hut | hut
      · exact .inl hut
      · exact .inr (by omega)
    · exact .inr (by omega)

theorem mapLoop_ensures {hi ppn fuel : ℕ} (hv : v < hi) (hhi : hi ≤ 2 ^ 20)
    (hn : ∀ u, v ≤ u → u < hi → pgdir.tr u = none) (hfuel : hi - v ≤ fuel) :
    Ensures (fun r ↦ Draws ((hi - 1) / 1024 - v / 1024 + pgdir.missing v) m r.2.2 ∧
        ∃ k, Mapped pgdir v hi ppn w us k r.2.1 ∧ ((r.1 = true ∧ k = hi) ∨
          r.1 = false ∧ k < hi ∧ Short M m ((hi - 1) / 1024 - v / 1024 + pgdir.missing v)))
      (fun _ ↦ False) (mapLoop M ((hi - 1) * PGSIZE) w us fuel (v * PGSIZE) ppn pgdir m) := by
  induction fuel generalizing v ppn pgdir m with
  | zero => omega
  | succ fuel ih =>
    rw [mapLoop]
    cases hw : pgdir.walkAlloc M (v * PGSIZE) m with
    | mk r m₁ =>
      cases r with
      | none =>
        obtain ⟨hd, hs⟩ := walkAlloc_none hw
        refine ⟨hd.mono (Nat.zero_le _), v, ⟨by omega, fun u _ ↦ ?_, fun u _ h ↦ .inl h⟩,
          .inr ⟨rfl, hv, hs.mono (Nat.zero_le _)⟩⟩
        rw [if_neg (by omega)]
      | some pgdir₁ =>
        obtain ⟨hd, htable, htr, htables⟩ := walkAlloc_some hw
        dsimp only
        have hnone : (pgdir₁.walk (v * PGSIZE)).join = none :=
          (htr v).trans (hn v (Nat.le_refl v) hv)
        rw [hnone, if_neg (by simp)]
        by_cases hlast : v = hi - 1
        · rw [hlast, if_pos rfl, ← hlast]
          refine ⟨hd.mono (by omega), hi, Mapped.cons hv hhi htable htr htables ⟨by omega, fun u _ ↦ ?_,
            fun u _ h ↦ .inl h⟩, .inl ⟨rfl, rfl⟩⟩
          rw [if_neg (by omega)]
        · have hne : v * PGSIZE ≠ (hi - 1) * PGSIZE := by
            simp only [PGSIZE]
            omega
          rw [if_neg hne, next_page (by omega)]
          -- the table that has just been made serves the whole group
          have hcount : pgdir.missing v + ((hi - 1) / 1024 - (v + 1) / 1024 +
              (pgdir₁.setPte (v * PGSIZE) (some ⟨ppn, w, us⟩)).missing (v + 1)) ≤
              (hi - 1) / 1024 - v / 1024 + pgdir.missing v := by
            by_cases hg : (v + 1) / 1024 = v / 1024
            · rw [missing_of_hasTable (hasTable_setPte (hasTable_group htable hg))]
              omega
            · have hle : (pgdir₁.setPte (v * PGSIZE) (some ⟨ppn, w, us⟩)).missing (v + 1) ≤ 1 :=
                missing_le
              omega
          refine (ih (by omega) (fun u h1 h2 ↦ ?_) (by omega)).mono ?_
          · rw [tr_setPte (by omega) (by omega) htable, if_neg (by omega), htr u]
            exact hn u (by omega) h2
          · rintro r ⟨hd', k, hk, hr⟩
            refine ⟨(hd.trans hd').mono hcount, k, .cons hv hhi htable htr htables hk, ?_⟩
            refine hr.imp_right (fun ⟨h1, h2, h3⟩ ↦ ⟨h1, h2, ?_⟩)
            exact (hd.short h3).mono hcount

/-- How many tables may be needed for the pages from `lo` up to `hi`. -/
def tablesFor (lo hi : ℕ) : ℕ := (hi - 1) / 1024 - lo / 1024 + 1

theorem mappages_pages (hlt : lo < hi) (hhi : hi ≤ 2 ^ 20) :
    pgdir.mappages M (lo * PGSIZE) ((hi - lo) * PGSIZE) ppn w us m =
      mapLoop M ((hi - 1) * PGSIZE) w us (2 ^ 20) (lo * PGSIZE) ppn pgdir m := by
  have hfirst : PGROUNDDOWN (lo * PGSIZE) = lo * PGSIZE := by
    simp only [PGROUNDDOWN, PGSIZE]
    omega
  have hlast : PGROUNDDOWN ((lo * PGSIZE + (hi - lo) * PGSIZE - 1) % 2 ^ 32) = (hi - 1) * PGSIZE := by
    simp only [PGROUNDDOWN, PGSIZE]
    omega
  rw [mappages, hfirst, hlast]

theorem mappages_ensures (hlt : lo < hi) (hhi : hi ≤ 2 ^ 20)
    (hn : ∀ u, lo ≤ u → u < hi → pgdir.tr u = none) :
    Ensures (fun r ↦ Draws (tablesFor lo hi) m r.2.2 ∧
        ∃ k, Mapped pgdir lo hi ppn w us k r.2.1 ∧ ((r.1 = true ∧ k = hi) ∨
          r.1 = false ∧ k < hi ∧ Short M m (tablesFor lo hi)))
      (fun _ ↦ False) (pgdir.mappages M (lo * PGSIZE) ((hi - lo) * PGSIZE) ppn w us m) := by
  rw [mappages_pages hlt hhi]
  have hle : (hi - 1) / 1024 - lo / 1024 + pgdir.missing lo ≤ tablesFor lo hi :=
    Nat.add_le_add_left missing_le _
  refine (mapLoop_ensures hlt hhi hn (by omega)).mono ?_
  rintro r ⟨hd, k, hk, hr⟩
  exact ⟨hd.mono hle, k, hk, hr.imp_right (fun ⟨h1, h2, h3⟩ ↦ ⟨h1, h2, h3.mono hle⟩)⟩

theorem mappage_ensures (hv : v < 2 ^ 20) (hn : pgdir.tr v = none) :
    Ensures (fun r ↦ Draws 1 m r.2.2 ∧
        (∀ u, u < 2 ^ 20 → r.2.1.HasTable u → pgdir.HasTable u ∨ u / 1024 = v / 1024) ∧
        ((r.1 = true ∧ ∀ u, u < 2 ^ 20 →
            r.2.1.tr u = if u = v then some ⟨ppn, w, us⟩ else pgdir.tr u) ∨
          r.1 = false ∧ (∀ u, u < 2 ^ 20 → r.2.1.tr u = pgdir.tr u) ∧ Short M m 1))
      (fun _ ↦ False) (pgdir.mappages M (v * PGSIZE) PGSIZE ppn w us m) := by
  have hone : tablesFor v (v + 1) = 1 := by
    simp [tablesFor]
  have hnone (u : ℕ) (h1 : v ≤ u) (h2 : u < v + 1) : pgdir.tr u = none := by
    rw [show u = v by omega]
    exact hn
  have hmap : Ensures _ _ (pgdir.mappages M (v * PGSIZE) ((v + 1 - v) * PGSIZE) ppn w us m) :=
    mappages_ensures (Nat.lt_succ_self v) hv hnone
  rw [Nat.add_sub_cancel_left, Nat.one_mul, hone] at hmap
  refine hmap.mono ?_
  rintro r ⟨hd, k, hk, hr⟩
  refine ⟨hd, fun u hu hut ↦ (hk.tables u hu hut).imp_right (by omega), ?_⟩
  refine hr.imp (fun ⟨h1, hkv⟩ ↦ ⟨h1, fun u hu ↦ ?_⟩) (fun ⟨h1, hkv, hs⟩ ↦ ⟨h1, fun u hu ↦ ?_, hs⟩)
  · rw [hk.tr u hu, hkv]
    by_cases huv : u = v
    · rw [if_pos (by omega), if_pos huv, huv, Nat.sub_self]
      rfl
    · rw [if_neg (by omega), if_neg huv]
  · rw [hk.tr u hu, if_neg (by omega)]

/-- The pages from `lo` up to `hi` are mapped to pages of zeroes that were free, each to another
one. -/
structure FreshZeroed (m : Mem) (lo hi : ℕ) (pgdir' : Pgdir) (m' : Mem) : Prop where
  page : ∀ u, lo ≤ u → u < hi → ∃ p, pgdir'.tr u = some ⟨p, true, true⟩ ∧
    p ∈ m.freelist ∧ p ∉ m'.freelist ∧ m'.phys p = fun _ ↦ 0
  distinct : ∀ u v e e', lo ≤ u → u < hi → lo ≤ v → v < hi → u ≠ v → pgdir'.tr u = some e →
    pgdir'.tr v = some e' → e.ppn ≠ e'.ppn

theorem FreshZeroed.snoc {m₀ : Mem} (h : FreshZeroed m₀ lo v pgdir m) (hv : v < 2 ^ 19)
    (hp₀ : p ∈ m₀.freelist) (hp : p ∈ m.freelist) (hp' : p ∉ m'.freelist)
    (hzero : m'.phys p = fun _ ↦ 0) (hsub : m'.freelist ⊆ m.freelist)
    (hphys : ∀ q, q ∉ m.freelist → m'.phys q = m.phys q)
    (htr : ∀ u, u < 2 ^ 20 → pgdir'.tr u = if u = v then some ⟨p, true, true⟩ else pgdir.tr u) :
    FreshZeroed m₀ lo (v + 1) pgdir' m' := by
  have hself : pgdir'.tr v = some ⟨p, true, true⟩ := by rw [htr v (by omega), if_pos rfl]
  have hold (u : ℕ) (hu : u < v) : pgdir'.tr u = pgdir.tr u := by
    rw [htr u (by omega), if_neg (by omega)]
  -- an older page is not free, so it is not the new one
  have hne (u : ℕ) (e : Pte) (h1 : lo ≤ u) (hu : u < v) (he : pgdir'.tr u = some e) : e.ppn ≠ p := by
    obtain ⟨q, hq, -, hfree, -⟩ := h.page u h1 hu
    rw [hold u hu, hq] at he
    cases he
    rintro rfl
    exact hfree hp
  refine ⟨fun u h1 h2 ↦ ?_, fun u u' e e' h1 h2 h3 h4 huu he he' ↦ ?_⟩
  · by_cases huv : u = v
    · rw [huv]
      exact ⟨p, hself, hp₀, hp', hzero⟩
    · obtain ⟨q, hq, hq₀, hfree, hz⟩ := h.page u h1 (by omega)
      refine ⟨q, by rw [hold u (by omega), hq], hq₀, fun hq' ↦ hfree (hsub hq'), ?_⟩
      rw [hphys q hfree, hz]
  · by_cases huv : u = v
    · rw [huv, hself] at he
      cases he
      exact (hne u' e' h3 (by omega) he').symm
    · by_cases huv' : u' = v
      · rw [huv', hself] at he'
        cases he'
        exact hne u e h1 (by omega) he
      · rw [hold u (by omega)] at he
        rw [hold u' (by omega)] at he'
        exact h.distinct u u' e e' h1 (by omega) h3 (by omega) huu he he'

structure Grown (pgdir : Pgdir) (m : Mem) (lo hi : ℕ) (pgdir' : Pgdir) (m' : Mem) : Prop where
  new : ∀ u, lo ≤ u → u < hi → ∃ p ∈ m.freelist, pgdir'.tr u = some ⟨p, true, true⟩
  old : ∀ u, u < 2 ^ 20 → ¬ (lo ≤ u ∧ u < hi) → pgdir'.tr u = pgdir.tr u
  tables : ∀ u, u < 2 ^ 20 → pgdir'.HasTable u → pgdir.HasTable u ∨ u < 2 ^ 19
  draws : Draws (2 * (hi - lo)) m m'
  zeroed : m.freelist.Nodup → FreshZeroed m lo hi pgdir' m'

structure Restored (pgdir : Pgdir) (m : Mem) (pgdir' : Pgdir) (m' : Mem) : Prop where
  tr : ∀ u, u < 2 ^ 20 → pgdir'.tr u = pgdir.tr u
  phys : ∀ p, p ∉ m.freelist → m'.phys p = m.phys p
  freelist : ∀ p ∈ m'.freelist, p ∈ m.freelist

theorem Grown.snoc {pgdir₀ : Pgdir} {m₀ : Mem} (h : Grown pgdir₀ m₀ lo v pgdir m) (hlo : lo ≤ v)
    (hv : v < 2 ^ 19) (hp : p ∈ m.freelist) (hd : Draws 2 m m')
    (hz : m.freelist.Nodup → p ∉ m'.freelist ∧ m'.phys p = fun _ ↦ 0)
    (htr : ∀ u, u < 2 ^ 20 → pgdir'.tr u = if u = v then some ⟨p, true, true⟩ else pgdir.tr u)
    (htables : ∀ u, u < 2 ^ 20 → pgdir'.HasTable u → pgdir.HasTable u ∨ u / 1024 = v / 1024) :
    Grown pgdir₀ m₀ lo (v + 1) pgdir' m' := by
  have hp₀ := h.draws.freelist.subset hp
  refine ⟨fun u h1 h2 ↦ ?_, fun u hu hno ↦ ?_, fun u hu hut ↦ ?_, (h.draws.trans hd).mono (by omega),
    fun hnd ↦ ?_⟩
  · rw [htr u (by omega)]
    split
    · exact ⟨p, hp₀, rfl⟩
    · exact h.new u h1 (by omega)
  · rw [htr u hu, if_neg (by omega)]
    exact h.old u hu (by omega)
  · rcases htables u hu hut with hut | hut
    · exact h.tables u hu hut
    · exact .inr (by omega)
  · obtain ⟨hp', hzero⟩ := hz (h.draws.freelist.sublist.nodup hnd)
    exact (h.zeroed hnd).snoc hv hp₀ hp hp' hzero hd.freelist.subset hd.phys htr

section Alloc

variable {pgdir₀ : Pgdir} {m₀ : Mem} {oldsz newsz : ℕ} (hsz : newsz < KERNBASE)
  (hvalid : ∀ p ∈ m₀.freelist, Mem.Valid M p)
  (hfree : ∀ u, pages oldsz ≤ u → u < pages newsz → pgdir₀.tr u = none)
include hsz hvalid hfree

theorem Grown.undo (hlt : oldsz < newsz) (h : Grown pgdir₀ m₀ (pages oldsz) v pgdir m)
    (hv : v ≤ pages newsz) (htr : ∀ u, u < 2 ^ 20 → pgdir'.tr u = pgdir.tr u) (hd : Draws k m m') :
    Ensures (fun r ↦ Restored pgdir₀ m₀ r.2.1 r.2.2) (fun _ ↦ False)
      (pgdir'.deallocuvm M newsz oldsz m') := by
  have hle := pages_le (Nat.le_of_lt hsz)
  have hmapped (u : ℕ) (e : Pte) (h1 : pages oldsz ≤ u) (h2 : u < pages newsz)
      (he : pgdir'.tr u = some e) : e.ppn ∈ m₀.freelist := by
    rw [htr u (by omega)] at he
    by_cases huv : u < v
    · obtain ⟨p, hp, hu⟩ := h.new u h1 huv
      rw [hu] at he
      cases he
      exact hp
    · rw [h.old u (by omega) (by omega), hfree u h1 h2] at he
      cases he
  have hpresent (p : ℕ) (hp : p ∈ pgdir'.present (pages oldsz) (pages newsz)) : p ∈ m₀.freelist := by
    obtain ⟨u, e, h1, h2, he, rfl⟩ := mem_present.mp hp
    exact hmapped u e h1 h2 he
  have hdraws := h.draws.trans hd
  refine (deallocuvm_ensures (Nat.le_of_lt hsz) hlt
    (fun u e h1 h2 he ↦ hvalid _ (hmapped u e h1 h2 he))).mono
    (fun r ⟨_, hr⟩ ↦ ⟨fun u hu ↦ ?_, fun p hp ↦ ?_, fun p hp ↦ ?_⟩)
  · rw [hr.tr hu]
    split
    · exact (hfree u (by omega) (by omega)).symm
    · rw [htr u hu]
      exact h.old u hu (by omega)
  · rw [hr.phys p (fun hm ↦ hp (hpresent p hm))]
    exact hdraws.phys p hp
  · rw [hr.freelist, List.mem_append, List.mem_reverse] at hp
    exact hp.elim (hpresent p) (hdraws.freelist.subset ·)

theorem allocLoop_ensures {fuel : ℕ} (h : Grown pgdir₀ m₀ (pages oldsz) v pgdir m)
    (hlo : pages oldsz ≤ v) (hv : v ≤ pages newsz) (hfuel : pages newsz - v < fuel) :
    Ensures (fun r ↦ (r.1 = newsz ∧ Grown pgdir₀ m₀ (pages oldsz) (pages newsz) r.2.1 r.2.2) ∨
        r.1 = 0 ∧ Restored pgdir₀ m₀ r.2.1 r.2.2 ∧ Short M m₀ (2 * (pages newsz - pages oldsz)))
      (fun _ ↦ False) (allocLoop M oldsz newsz fuel (v * PGSIZE) pgdir m) := by
  have hle := pages_le (Nat.le_of_lt hsz)
  induction fuel generalizing v pgdir m with
  | zero => omega
  | succ fuel ih =>
    rw [allocLoop]
    by_cases hlt : v < pages newsz
    · rw [if_pos (lt_pages.mp hlt)]
      have hgrow : oldsz < newsz := by
        by_contra hno
        have := pages_mono (Nat.le_of_not_lt hno)
        omega
      cases hk : m.kalloc M with
      | mk q m₁ =>
        cases q with
        | none =>
          obtain ⟨hd, hs⟩ := kalloc_none hk
          refine (h.undo hsz hvalid hfree hgrow hv (fun _ _ ↦ rfl) hd).bind (fun r hr ↦ ?_)
          exact .inr ⟨rfl, hr, (h.draws.short hs).mono (by omega)⟩
        | some p =>
          obtain ⟨hp, hdraws⟩ := kalloc_some hk
          have hp₀ : p ∈ m₀.freelist := h.draws.freelist.subset hp
          have hnone : pgdir.tr v = none := by
            rw [h.old v (by omega) (by omega), hfree v hlo hlt]
          refine (mappage_ensures (by omega) hnone).bind ?_
          rintro ⟨mapped, pgdir₁, m₂⟩ ⟨hd, htables, hr⟩
          have hd₂ : Draws 2 m m₂ := (hdraws _).trans hd
          rcases hr with ⟨rfl, htr⟩ | ⟨rfl, htr, hs⟩
          · dsimp only at htr ⊢
            rw [if_pos rfl, next_page (by omega)]
            have hz (hnd : m.freelist.Nodup) : p ∉ m₂.freelist ∧ m₂.phys p = fun _ ↦ 0 := by
              rw [(kalloc_eq_some hk).1, List.nodup_cons] at hnd
              refine ⟨fun hp ↦ hnd.1 (hd.freelist.subset hp), ?_⟩
              rw [hd.phys p hnd.1]
              exact update_self _ _ _
            exact ih (h.snoc hlo (by omega) hp hd₂ hz htr htables) (by omega) hlt (by omega)
          · dsimp only
            rw [if_neg (by simp)]
            refine (h.undo hsz hvalid hfree hgrow hv htr hd₂).bind (fun r hr ↦ ?_)
            rw [kfree_ok (hvalid p hp₀), ok_bind]
            have hshort : Short M m₀ (2 * (pages newsz - pages oldsz)) :=
              ((h.draws.trans (hdraws _)).short hs).mono (by omega)
            refine .inr ⟨rfl, ⟨hr.tr, fun q hq ↦ ?_, fun q hq ↦ ?_⟩, hshort⟩
            · rw [← hr.phys q hq]
              exact fill_phys_ne (fun he ↦ hq (he ▸ hp₀))
            · rcases List.mem_cons.mp hq with rfl | hq
              · exact hp₀
              · exact hr.freelist q hq
    · rw [if_neg (fun hs ↦ hlt (lt_pages.mpr hs))]
      rw [show v = pages newsz by omega] at h
      exact .inl ⟨rfl, h⟩

theorem allocuvm_ensures (hle : oldsz ≤ newsz) :
    Ensures (fun r ↦ (r.1 = newsz ∧ Grown pgdir₀ m₀ (pages oldsz) (pages newsz) r.2.1 r.2.2) ∨
        r.1 = 0 ∧ Restored pgdir₀ m₀ r.2.1 r.2.2 ∧ Short M m₀ (2 * (pages newsz - pages oldsz)))
      (fun _ ↦ False) (pgdir₀.allocuvm M oldsz newsz m₀) := by
  have hpages := pages_le (Nat.le_of_lt hsz)
  rw [allocuvm, if_neg (by omega), if_neg (by omega), PGROUNDUP_eq (by omega)]
  exact allocLoop_ensures hsz hvalid hfree
    ⟨fun u h1 h2 ↦ absurd h2 (by omega), fun u _ _ ↦ rfl, fun u _ hu ↦ .inl hu, Draws.refl.mono (by omega),
      fun _ ↦ ⟨fun u h1 h2 ↦ absurd h2 (by omega), fun u v e e' h1 h2 ↦ absurd h2 (by omega)⟩⟩
    (Nat.le_refl _) (pages_mono hle) (by omega)

end Alloc

end Pgdir

end Xv6Bfs.Vm

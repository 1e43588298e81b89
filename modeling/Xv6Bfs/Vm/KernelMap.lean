import Xv6Bfs.Vm.Kvm

namespace Xv6Bfs.Vm

open Lib.Execution Function

variable {M : Machine} {pgdir pgdir' : Pgdir} {m m' : Mem} {v data : ℕ}

structure Linked (data : ℕ) : Prop where
  aligned : data % PGSIZE = 0
  text : KERNLINK < data
  top : V2P data < PHYSTOP

namespace Kmap

def size (k : Kmap) : ℕ := sub32 k.physEnd k.physStart

def entry (k : Kmap) (v : ℕ) : Option Pte :=
  if k.virt ≤ v * PGSIZE ∧ v * PGSIZE < k.virt + k.size then
    some ⟨(k.physStart + (v * PGSIZE - k.virt)) / PGSIZE, k.perm, false⟩
  else none

def tables (k : Kmap) : ℕ := Pgdir.tablesFor (k.virt / PGSIZE) ((k.virt + k.size) / PGSIZE)

structure Covers (k : Kmap) (lo hi ppn : ℕ) : Prop where
  virt : k.virt = lo * PGSIZE
  size : k.size = (hi - lo) * PGSIZE
  phys : k.physStart = ppn * PGSIZE
  lt : lo < hi
  le : hi ≤ 2 ^ 20

variable {k : Kmap} {lo hi ppn : ℕ}

theorem Covers.entry (h : k.Covers lo hi ppn) :
    k.entry v = if lo ≤ v ∧ v < hi then some ⟨ppn + (v - lo), k.perm, false⟩ else none := by
  have hlt := h.lt
  have hin : lo * PGSIZE ≤ v * PGSIZE ∧ v * PGSIZE < lo * PGSIZE + (hi - lo) * PGSIZE ↔
      lo ≤ v ∧ v < hi := by
    simp only [PGSIZE]
    omega
  have hppn : (ppn * PGSIZE + (v * PGSIZE - lo * PGSIZE)) / PGSIZE = ppn + (v - lo) := by
    simp only [PGSIZE]
    omega
  rw [Kmap.entry, h.virt, h.size, h.phys, hppn]
  simp only [hin]

theorem Covers.tables (h : k.Covers lo hi ppn) : k.tables = Pgdir.tablesFor lo hi := by
  have hlt := h.lt
  rw [Kmap.tables, h.virt, h.size]
  simp only [PGSIZE]
  rw [show lo * 4096 / 4096 = lo by omega, show (lo * 4096 + (hi - lo) * 4096) / 4096 = hi by omega]

def Disjoint (k k' : Kmap) : Prop := ∀ v, k.entry v = none ∨ k'.entry v = none

theorem Covers.disjoint {k' : Kmap} {lo' hi' ppn' : ℕ} (h : k.Covers lo hi ppn)
    (h' : k'.Covers lo' hi' ppn') (hle : hi ≤ lo') : k.Disjoint k' := by
  intro v
  rw [h.entry, h'.entry]
  by_cases hv : v < hi
  · exact .inr (if_neg (by omega))
  · exact .inl (if_neg (by omega))

theorem entry_user {e : Pte} (h : k.entry v = some e) : e.u = false := by
  rw [Kmap.entry] at h
  split at h
  · cases h
    rfl
  · cases h

end Kmap

section Kmap

theorem covers_io : Kmap.Covers ⟨KERNBASE, 0, EXTMEM, true⟩ 0x80000 0x80100 0 := by
  constructor <;> decide

theorem covers_devices : Kmap.Covers ⟨DEVSPACE, DEVSPACE, 0, true⟩ 0xFE000 0x100000 0xFE000 := by
  constructor <;> decide

variable (hl : Linked data)
include hl

theorem Linked.page : 0x80100 < data / PGSIZE ∧ data / PGSIZE < 0x8E000 := by
  obtain ⟨h1, h2, h3⟩ := hl
  simp only [KERNLINK, KERNBASE, EXTMEM, V2P, PHYSTOP, PGSIZE] at *
  omega

theorem covers_text :
    Kmap.Covers ⟨KERNLINK, V2P KERNLINK, V2P data, false⟩ 0x80100 (data / PGSIZE) 0x100 := by
  obtain ⟨h1, h2⟩ := hl.page
  obtain ⟨h3, h4, h5⟩ := hl
  constructor <;> simp only [Kmap.size, sub32, KERNLINK, KERNBASE, EXTMEM, V2P, PHYSTOP, PGSIZE] at * <;>
    omega

theorem covers_memory :
    Kmap.Covers ⟨data, V2P data, PHYSTOP, true⟩ (data / PGSIZE) 0x8E000 (data / PGSIZE - 0x80000) := by
  obtain ⟨h1, h2⟩ := hl.page
  obtain ⟨h3, h4, h5⟩ := hl
  constructor <;> simp only [Kmap.size, sub32, KERNLINK, KERNBASE, EXTMEM, V2P, PHYSTOP, PGSIZE] at * <;>
    omega

theorem kmap_covers : ∀ k ∈ kmap data, ∃ lo hi ppn, k.Covers lo hi ppn ∧
    0x80000 ≤ lo ∧ (hi ≤ 0x8E000 ∨ 0xFE000 ≤ lo) := by
  obtain ⟨h1, h2⟩ := hl.page
  simp only [kmap, List.forall_mem_cons]
  exact ⟨⟨_, _, _, covers_io, by decide⟩, ⟨_, _, _, covers_text hl, by omega⟩,
    ⟨_, _, _, covers_memory hl, by omega⟩, ⟨_, _, _, covers_devices, by decide⟩, by simp⟩

theorem kmap_disjoint : (kmap data).Pairwise Kmap.Disjoint := by
  obtain ⟨h1, h2⟩ := hl.page
  have htext := covers_text hl
  have hmem := covers_memory hl
  simp only [kmap, List.pairwise_cons, List.forall_mem_cons]
  exact ⟨⟨covers_io.disjoint htext (by omega), covers_io.disjoint hmem (by omega),
      covers_io.disjoint covers_devices (by omega), by simp⟩,
    ⟨htext.disjoint hmem (by omega), htext.disjoint covers_devices (by omega), by simp⟩,
    ⟨hmem.disjoint covers_devices (by omega), by simp⟩, by simp⟩

theorem kmap_pages {k : Kmap} (hk : k ∈ kmap data) (he : k.entry v ≠ none) :
    0x80000 ≤ v ∧ (v < 0x8E000 ∨ 0xFE000 ≤ v) := by
  obtain ⟨lo, hi, ppn, hc, hlo, hhi⟩ := kmap_covers hl k hk
  rw [hc.entry] at he
  have hin : lo ≤ v ∧ v < hi := by
    by_contra hno
    exact he (if_neg hno)
  omega

end Kmap

def kernelEntry (data v : ℕ) : Option Pte := (kmap data).findSome? (fun k ↦ k.entry v)

theorem kernelEntry_none (hl : Linked data) (h : v < 0x80000 ∨ 0x8E000 ≤ v ∧ v < 0xFE000) :
    kernelEntry data v = none := by
  rw [kernelEntry, List.findSome?_eq_none_iff]
  intro k hk
  by_contra he
  have := kmap_pages hl hk he
  omega

theorem kernelEntry_user {e : Pte} (h : kernelEntry data v = some e) : e.u = false := by
  obtain ⟨k, -, hk⟩ := List.exists_of_findSome?_eq_some h
  exact Kmap.entry_user hk

def kernelTables (ks : List Kmap) : ℕ := ks.foldr (fun k n ↦ k.tables + n) 0

def InGroup (ks : List Kmap) (v : ℕ) : Prop :=
  ∃ k ∈ ks, ∃ u, k.entry u ≠ none ∧ u / 1024 = v / 1024

namespace Pgdir

structure SetUp (ks : List Kmap) (pgdir : Pgdir) (m : Mem) (pgdir' : Pgdir) (m' : Mem) : Prop where
  tr : ∀ v, v < 2 ^ 20 → pgdir'.tr v = (ks.findSome? (fun k ↦ k.entry v)).or (pgdir.tr v)
  tables : ∀ v, v < 2 ^ 20 → pgdir'.HasTable v → pgdir.HasTable v ∨ InGroup ks v
  draws : Draws (kernelTables ks) m m'

theorem SetUp.cons {k : Kmap} {ks : List Kmap} {lo hi ppn : ℕ} {pgdir₁ : Pgdir} {m₁ : Mem}
    (hk : k.Covers lo hi ppn) (hd : ∀ k' ∈ ks, k.Disjoint k')
    (h₁ : Mapped pgdir lo hi ppn k.perm false hi pgdir₁) (hdraws : Draws (tablesFor lo hi) m m₁)
    (h : SetUp ks pgdir₁ m₁ pgdir' m') : SetUp (k :: ks) pgdir m pgdir' m' := by
  refine ⟨fun v hv ↦ ?_, fun v hv ht ↦ ?_, ?_⟩
  · rw [h.tr v hv, h₁.tr v hv, List.findSome?_cons, hk.entry]
    by_cases hin : lo ≤ v ∧ v < hi
    · have hnone : ks.findSome? (fun k ↦ k.entry v) = none := by
        rw [List.findSome?_eq_none_iff]
        intro k' hk'
        have := hd k' hk' v
        rw [hk.entry, if_pos hin] at this
        simpa using this
      rw [hnone]
      simp only [if_pos hin]
      rfl
    · simp only [if_neg hin]
  · rcases h.tables v hv ht with ht | ⟨k', hk', u, hu, hg⟩
    · rcases h₁.tables v hv ht with ht | ⟨hlo, hhi⟩
      · exact .inl ht
      · have hlt := hk.lt
        have hne (u : ℕ) (h1 : lo ≤ u) (h2 : u < hi) : k.entry u ≠ none := by
          rw [hk.entry, if_pos ⟨h1, h2⟩]
          simp
        refine .inr ⟨k, List.mem_cons_self, ?_⟩
        -- a page of the range in the group of `v`
        by_cases hvl : v < lo
        · exact ⟨lo, hne lo (by omega) hlt, by omega⟩
        · by_cases hvh : v < hi
          · exact ⟨v, hne v (by omega) hvh, rfl⟩
          · exact ⟨hi - 1, hne (hi - 1) (by omega) (by omega), by omega⟩
    · exact .inr ⟨k', List.mem_cons_of_mem k hk', u, hu, hg⟩
  · rw [← hk.tables] at hdraws
    exact hdraws.trans h.draws

/-- No page of the mappings has been mapped. -/
def Unmapped (ks : List Kmap) (pgdir : Pgdir) : Prop :=
  ∀ k ∈ ks, ∀ v, v < 2 ^ 20 → k.entry v ≠ none → pgdir.tr v = none

theorem setupLoop_cons {k : Kmap} {ks : List Kmap} {lo hi ppn : ℕ} {post : Option Pgdir × Mem → Prop}
    {err : Panic → Prop} (hk : k.Covers lo hi ppn) (hd : ∀ k' ∈ ks, k.Disjoint k')
    (hn : Unmapped (k :: ks) pgdir)
    (hrest : ∀ pgdir₁ m₁,
      pgdir.mappages M (lo * PGSIZE) ((hi - lo) * PGSIZE) ppn k.perm false m = .ok (true, pgdir₁, m₁) →
      Mapped pgdir lo hi ppn k.perm false hi pgdir₁ → Draws (tablesFor lo hi) m m₁ →
      Unmapped ks pgdir₁ → Ensures post err (setupLoop M ks pgdir₁ m₁))
    (hfail : ∀ pgdir₁ m₁,
      pgdir.mappages M (lo * PGSIZE) ((hi - lo) * PGSIZE) ppn k.perm false m = .ok (false, pgdir₁, m₁) →
      Short M m (tablesFor lo hi) →
      Ensures post err (pgdir₁.freevm M m₁ >>= fun m ↦ .ok (none, m))) :
    Ensures post err (setupLoop M (k :: ks) pgdir m) := by
  have hphys : k.physStart / PGSIZE = ppn := by
    rw [hk.phys]
    exact Nat.mul_div_cancel _ (by decide)
  have hfree (u : ℕ) (h1 : lo ≤ u) (h2 : u < hi) : pgdir.tr u = none := by
    have hle := hk.le
    refine hn k List.mem_cons_self u (by omega) ?_
    rw [hk.entry, if_pos ⟨h1, h2⟩]
    simp
  obtain ⟨⟨mapped, pgdir₁, m₁⟩, hmap, hdraws, j, hj, hr⟩ : ∃ r,
      pgdir.mappages M (lo * PGSIZE) ((hi - lo) * PGSIZE) ppn k.perm false m = .ok r ∧ _ :=
    (mappages_ensures hk.lt hk.le hfree).exists_ok
  rw [setupLoop, hphys, hk.virt]
  change Ensures _ _ (mappages M pgdir _ k.size _ _ _ _ >>= _)
  rw [hk.size, hmap, ok_bind]
  rcases hr with ⟨rfl, rfl⟩ | ⟨rfl, -, hs⟩
  · refine hrest pgdir₁ m₁ hmap hj hdraws (fun k' hk' v hv he ↦ ?_)
    rw [hj.tr v hv, ← hn k' (List.mem_cons_of_mem k hk') v hv he, if_neg]
    intro hin
    rcases hd k' hk' v with h | h
    · rw [hk.entry, if_pos hin] at h
      cases h
    · exact he h
  · exact hfail pgdir₁ m₁ hmap hs

theorem setupLoop_ensures {ks : List Kmap} (hks : ∀ k ∈ ks, ∃ lo hi ppn, k.Covers lo hi ppn)
    (hd : ks.Pairwise Kmap.Disjoint) (hn : Unmapped ks pgdir) :
    Ensures (fun r ↦ match r.1 with
        | none => Short M m (kernelTables ks)
        | some pgdir' => SetUp ks pgdir m pgdir' r.2)
      (fun _ ↦ Short M m (kernelTables ks)) (setupLoop M ks pgdir m) := by
  induction ks generalizing pgdir m with
  | nil => exact ⟨fun v _ ↦ rfl, fun v _ ht ↦ .inl ht, .refl⟩
  | cons k ks ih =>
    obtain ⟨hdk, hds⟩ := List.pairwise_cons.mp hd
    obtain ⟨lo, hi, ppn, hk⟩ := hks k List.mem_cons_self
    have hneed : kernelTables (k :: ks) = tablesFor lo hi + kernelTables ks := by
      rw [← hk.tables]
      rfl
    rw [hneed]
    refine setupLoop_cons hk hdk hn (fun pgdir₁ m₁ _ hj hdraws hn₁ ↦ ?_) (fun pgdir₁ m₁ _ hs ↦ ?_)
    · refine ((ih (fun k' hk' ↦ hks k' (List.mem_cons_of_mem k hk')) hds hn₁).mono ?_).weaken
        (fun _ h ↦ hdraws.short h)
      rintro ⟨r, m₂⟩ hr
      cases r with
      | none => exact hdraws.short hr
      | some pgdir₂ => exact .cons hk hdk hj hdraws hr
    · have hs' := hs.mono (Nat.le_add_right _ (kernelTables ks))
      exact ((ensures_true _).weaken (fun _ _ ↦ hs')).bind (fun _ _ ↦ hs')

structure Kernel (data : ℕ) (m : Mem) (pgdir : Pgdir) (m' : Mem) : Prop where
  tr : ∀ v, v < 2 ^ 20 → pgdir.tr v = kernelEntry data v
  hole : ∀ v, 0x8E000 ≤ v → v < 0xFE000 → ¬ pgdir.HasTable v
  draws : Draws (1 + kernelTables (kmap data)) m m'

theorem setupkvm_ensures (hl : Linked data) :
    Ensures (fun r ↦ match r.1 with
        | none => Short M m (1 + kernelTables (kmap data))
        | some pgdir => Kernel data m pgdir r.2)
      (fun _ ↦ Short M m (1 + kernelTables (kmap data))) (setupkvm M data m) := by
  rw [setupkvm]
  cases hk : m.kalloc M with
  | mk q m₁ =>
    cases q with
    | none => exact (kalloc_none hk).2.mono (Nat.zero_le _)
    | some p =>
      have hd := (kalloc_some hk).2 (fun _ ↦ 0)
      have hempty (v : ℕ) : ¬ Pgdir.HasTable ⟨p, fun _ ↦ none⟩ v := by
        simp [HasTable, walk]
      have hnone (v : ℕ) : Pgdir.tr ⟨p, fun _ ↦ none⟩ v = none := by
        by_contra hno
        exact hempty v (hasTable_of_tr hno)
      dsimp only
      rw [if_neg (by decide)]
      refine ((setupLoop_ensures (fun k hk ↦ ?_) (kmap_disjoint hl) (fun k _ v _ _ ↦ hnone v)).mono
        ?_).weaken (fun _ h ↦ hd.short h)
      · obtain ⟨lo, hi, ppn, hc, -⟩ := kmap_covers hl k hk
        exact ⟨lo, hi, ppn, hc⟩
      · rintro ⟨r, m₂⟩ hr
        cases r with
        | none => exact hd.short hr
        | some pgdir =>
          refine ⟨fun v hv ↦ ?_, fun v h1 h2 ht ↦ ?_, hd.trans hr.draws⟩
          · rw [hr.tr v hv, hnone, Option.or_none]
            rfl
          · rcases hr.tables v (by omega) ht with ht | ⟨k, hk, u, hu, hg⟩
            · exact hempty v ht
            · have := kmap_pages hl hk hu
              omega

end Pgdir

end Xv6Bfs.Vm

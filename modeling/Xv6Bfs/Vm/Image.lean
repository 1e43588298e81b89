import Xv6Bfs.Vm.Exec

namespace Xv6Bfs.Vm

open Lib.Execution

variable {M : Machine} {pgdir : Pgdir} {m : Mem} {data sz newsz : ℕ}

structure Loaded (M : Machine) (data sz : ℕ) (pgdir : Pgdir) (m : Mem) : Prop where
  le : sz ≤ KERNBASE
  mapped : ∀ v, v < pages sz → ∃ p, pgdir.tr v = some ⟨p, true, true⟩
  rest : ∀ v, pages sz ≤ v → v < 2 ^ 20 → pgdir.tr v = kernelEntry data v
  free : ∀ p ∈ m.freelist, Mem.Valid M p

theorem Loaded.of_freelist {m' : Mem} (h : Loaded M data sz pgdir m)
    (hf : m'.freelist = m.freelist) : Loaded M data sz pgdir m' :=
  ⟨h.le, h.mapped, h.rest, by rw [hf]; exact h.free⟩

theorem pages_PGROUNDUP (h : sz ≤ KERNBASE) : pages (PGROUNDUP sz) = pages sz := by
  rw [PGROUNDUP_eq h]
  simp only [pages, PGSIZE]
  omega

theorem Loaded.round (h : Loaded M data sz pgdir m) : Loaded M data (PGROUNDUP sz) pgdir m := by
  have hpages := pages_PGROUNDUP h.le
  refine ⟨?_, fun v hv ↦ h.mapped v (hpages ▸ hv), fun v hv ↦ h.rest v (hpages ▸ hv), h.free⟩
  have hle := pages_le h.le
  rw [PGROUNDUP_eq h.le]
  simp only [PGSIZE, KERNBASE]
  omega

theorem Loaded.of_kernel {m₀ : Mem} (hfree : ∀ p ∈ m₀.freelist, Mem.Valid M p)
    (h : Pgdir.Kernel data m₀ pgdir m) : Loaded M data 0 pgdir m :=
  ⟨Nat.zero_le _, fun v hv ↦ absurd hv (Nat.not_lt_zero v), fun v _ ↦ h.tr v,
    fun p hp ↦ hfree p (h.draws.freelist.subset hp)⟩

theorem Loaded.grown {pgdir' : Pgdir} {m' : Mem} (h : Loaded M data sz pgdir m)
    (hsz : newsz < KERNBASE) (hle : sz ≤ newsz)
    (hg : pgdir.Grown m (pages sz) (pages newsz) pgdir' m') : Loaded M data newsz pgdir' m' := by
  have hpages := pages_le (Nat.le_of_lt hsz)
  have hmono := pages_mono hle
  refine ⟨Nat.le_of_lt hsz, fun v hv ↦ ?_, fun v h1 h2 ↦ ?_,
    fun p hp ↦ h.free p (hg.draws.freelist.subset hp)⟩
  · by_cases hlo : v < pages sz
    · rw [hg.old v (by omega) (by omega)]
      exact h.mapped v hlo
    · obtain ⟨p, -, hp⟩ := hg.new v (by omega) hv
      exact ⟨p, hp⟩
  · rw [hg.old v h2 (by omega)]
    exact h.rest v (by omega) h2

section

variable (hl : Linked data)
include hl

theorem Loaded.unmapped (h : Loaded M data sz pgdir m) (hsz : newsz < KERNBASE) (v : ℕ)
    (h1 : pages sz ≤ v) (h2 : v < pages newsz) : pgdir.tr v = none := by
  have hle := pages_le (Nat.le_of_lt hsz)
  rw [h.rest v h1 (by omega)]
  exact kernelEntry_none hl (.inl (by omega))

theorem Loaded.allocuvm (h : Loaded M data sz pgdir m) :
    Ensures (fun r ↦ r.1 = 0 ∨ Loaded M data r.1 r.2.1 r.2.2 ∧ (sz ≤ newsz → r.1 = newsz ∧ newsz < KERNBASE))
      (fun _ ↦ False) (pgdir.allocuvm M sz newsz m) := by
  by_cases hbig : newsz ≥ KERNBASE
  · rw [Pgdir.allocuvm, if_pos hbig]
    exact .inl rfl
  · have hlt := Nat.lt_of_not_le hbig
    by_cases hle : sz ≤ newsz
    · refine (Pgdir.allocuvm_ensures hlt h.free (h.unmapped hl hlt) hle).mono ?_
      rintro ⟨r, pgdir', m'⟩ (⟨rfl, hr⟩ | ⟨rfl, -⟩)
      · exact .inr ⟨h.grown hlt hle hr, fun _ ↦ ⟨rfl, hlt⟩⟩
      · exact .inl rfl
    · rw [Pgdir.allocuvm, if_neg hbig, if_pos (by omega)]
      exact .inr ⟨h, fun hno ↦ absurd hno hle⟩

end

theorem loaduvm_freelist {ip : Inode} {addr offset n : ℕ} :
    Ensures (fun r ↦ r.2.freelist = m.freelist) (fun _ ↦ True)
      (pgdir.loaduvm addr ip offset n m) := by
  have hloop (fuel i : ℕ) (m' : Mem) (hm : m'.freelist = m.freelist) :
      Ensures (fun r ↦ r.2.freelist = m.freelist) (fun _ ↦ True)
        (pgdir.loadLoop addr ip offset n fuel i m') := by
    induction fuel generalizing i m' with
    | zero => trivial
    | succ fuel ih =>
      rw [Pgdir.loadLoop]
      split
      · split
        · trivial
        · dsimp only
          generalize (if n - i < PGSIZE then n - i else PGSIZE) = k
          split
          · exact hm
          · exact ih _ _ hm
      · exact hm
  rw [Pgdir.loaduvm]
  split
  · trivial
  · exact hloop _ _ m rfl

theorem loadSegments_ensures (hl : Linked data) {ip : Inode} {n off : ℕ}
    (h : Loaded M data sz pgdir m) :
    Ensures (fun r ↦ ∀ sz', r.1 = some sz' → Loaded M data sz' r.2.1 r.2.2) (fun _ ↦ True)
      (loadSegments M ip n off sz pgdir m) := by
  have hbad (pgdir' : Pgdir) (m' : Mem) : Ensures
      (fun r ↦ ∀ sz', r.1 = some sz' → Loaded M data sz' r.2.1 r.2.2) (fun _ ↦ True)
      (.ok (none, pgdir', m') : Except Panic (Option ℕ × Pgdir × Mem)) := by
    intro sz' hsz
    cases hsz
  induction n generalizing off sz pgdir m with
  | zero =>
    intro sz' hsz
    cases hsz
    exact h
  | succ n ih =>
    rw [loadSegments]
    dsimp only
    split
    · exact hbad _ _
    split
    · exact ih h
    split
    · exact hbad _ _
    split
    · exact hbad _ _
    refine (h.allocuvm hl).anyError.bind ?_
    rintro ⟨sz₁, pgdir₁, m₁⟩ hr
    dsimp only
    split
    · exact hbad _ _
    split
    · exact hbad _ _
    have h₁ := (hr.resolve_left ‹_›).1
    refine loaduvm_freelist.bind ?_
    rintro ⟨loaded, m₂⟩ hm
    dsimp only
    split
    · exact ih (h₁.of_freelist hm)
    · exact hbad _ _

/-- An image of `n` pages, the last but one of which is the guard page. -/
structure IsImage (data n : ℕ) (img : Image) : Prop where
  sz : img.sz = n * PGSIZE
  two_le : 2 ≤ n
  lt : n < 2 ^ 19
  user : ∀ v, v < n → ∃ p, img.pgdir.tr v = some ⟨p, true, decide (v + 2 ≠ n)⟩
  rest : ∀ v, n ≤ v → v < 2 ^ 20 → img.pgdir.tr v = kernelEntry data v

theorem clearpteu_ensures {v : ℕ} {e : Pte} (hv : v < 2 ^ 20) (he : pgdir.tr v = some e) :
    Ensures (fun pgdir' ↦ (∀ u, u < 2 ^ 20 →
        pgdir'.tr u = if u = v then some { e with u := false } else pgdir.tr u) ∧
        ∀ u, pgdir'.HasTable u → pgdir.HasTable u)
      (fun _ ↦ False) (pgdir.clearpteu (v * PGSIZE)) := by
  have htable : pgdir.HasTable v := Pgdir.hasTable_of_tr (by rw [he]; simp)
  rw [Pgdir.clearpteu]
  cases hw : pgdir.walk (v * PGSIZE) with
  | none => exact absurd hw htable
  | some x =>
    rw [Pgdir.tr, hw] at he
    cases he
    exact ⟨fun u hu ↦ Pgdir.tr_setPte hv hu htable, fun u hu ↦ Pgdir.tables_setPte hu htable⟩

theorem guard_page {n : ℕ} (hsz : sz = n * PGSIZE) (h2 : 2 ≤ n) (hlt : n < 2 ^ 19) :
    sub32 sz (2 * PGSIZE) = (n - 2) * PGSIZE ∧ pages sz = n := by
  simp only [sub32, pages, hsz, PGSIZE]
  omega

theorem Loaded.stack (h : Loaded M data sz pgdir m) (n : ℕ) (hsz : sz = n * PGSIZE)
    (h2 : 2 ≤ n) (hlt : n < 2 ^ 19) :
    Ensures (fun pgdir' ↦ (∀ entry, IsImage data n ⟨entry, sz, pgdir'⟩) ∧
        ∀ u, pgdir'.HasTable u → pgdir.HasTable u) (fun _ ↦ False)
      (pgdir.clearpteu (sub32 sz (2 * PGSIZE))) := by
  obtain ⟨hguard, hpages⟩ := guard_page hsz h2 hlt
  obtain ⟨p, hp⟩ := h.mapped (n - 2) (by omega)
  rw [hguard]
  refine (clearpteu_ensures (by omega) hp).mono ?_
  rintro pgdir' ⟨hr, ht⟩
  refine ⟨fun entry ↦ ?_, ht⟩
  refine ⟨hsz, h2, hlt, fun v hv ↦ ?_, fun v h1 h3 ↦ ?_⟩
  · rw [hr v (by omega)]
    by_cases hg : v = n - 2
    · refine ⟨p, ?_⟩
      rw [if_pos hg, decide_eq_false (by omega)]
    · rw [if_neg hg, decide_eq_true (by omega)]
      exact h.mapped v (by omega)
  · rw [hr v h3, if_neg (by omega)]
    exact h.rest v (by omega) h3

theorem loadImage_ensures (hl : Linked data) {ip : Inode} (hfree : ∀ p ∈ m.freelist, Mem.Valid M p) :
    Ensures (fun r ↦ ∀ img, r.1 = some img → ∃ n, IsImage data n img) (fun _ ↦ True)
      (loadImage M data ip m) := by
  have hbad (pgdir' : Pgdir) (m' : Mem) : Ensures
      (fun r ↦ ∀ img, r.1 = some img → ∃ n, IsImage data n img) (fun _ ↦ True)
      (bad M pgdir' m' : Except Panic (Option Image × Mem)) := by
    refine (ensures_true _).bind (fun m₁ _ img himg ↦ ?_)
    cases himg
  rw [loadImage]
  dsimp only
  split
  · intro img himg
    cases himg
  split
  · intro img himg
    cases himg
  refine (Pgdir.setupkvm_ensures hl).anyError.bind ?_
  rintro ⟨r, m₁⟩ hr
  cases r with
  | none =>
    intro img himg
    cases himg
  | some pgdir₁ =>
    refine (loadSegments_ensures hl (.of_kernel hfree hr)).bind ?_
    rintro ⟨sz₁, pgdir₂, m₂⟩ hload
    cases sz₁ with
    | none => exact hbad _ _
    | some sz₁ =>
      have h₁ := hload sz₁ rfl
      dsimp only at h₁ ⊢
      refine (h₁.round.allocuvm hl).anyError.bind ?_
      rintro ⟨sz₂, pgdir₃, m₃⟩ h₂
      dsimp only at h₂ ⊢
      split
      · exact hbad _ _
      · obtain ⟨h₂, hsz₂⟩ := h₂.resolve_left ‹_›
        have hle := pages_le h₁.le
        have hnew : (pages sz₁ * PGSIZE + 2 * PGSIZE) % 2 ^ 32 = (pages sz₁ + 2) * PGSIZE := by
          simp only [PGSIZE]
          omega
        rw [PGROUNDUP_eq h₁.le, hnew] at hsz₂
        obtain ⟨hsz, hlt⟩ := hsz₂ (Nat.mul_le_mul_right _ (Nat.le_add_right _ 2))
        have hn : pages sz₁ + 2 < 2 ^ 19 := by
          simp only [PGSIZE, KERNBASE] at hlt
          omega
        refine (h₂.stack _ hsz (by omega) hn).anyError.bind ?_
        intro pgdir₄ h₄ img himg
        cases himg
        exact ⟨_, h₄.1 _⟩

theorem loadImage_bare (hl : Linked data) {ip : Inode} (hfree : ∀ p ∈ m.freelist, Mem.Valid M p)
    (hlen : (ip.readi 0 sizeofElfhdr).length = sizeofElfhdr)
    (hmagic : (elfhdr (ip.readi 0 sizeofElfhdr)).magic = ELF_MAGIC)
    (hphnum : (elfhdr (ip.readi 0 sizeofElfhdr)).phnum = 0)
    (hplenty : ¬ Short M m (1 + kernelTables (kmap data) + 4)) :
    ∃ img m', loadImage M data ip m = .ok (some img, m') ∧ IsImage data 2 img ∧
      ∀ v, 0x8E000 ≤ v → v < 0xFE000 → ¬ img.pgdir.HasTable v := by
  suffices h : Ensures (fun r ↦ ∃ img, r.1 = some img ∧ IsImage data 2 img ∧
      ∀ v, 0x8E000 ≤ v → v < 0xFE000 → ¬ img.pgdir.HasTable v)
      (fun _ ↦ False) (loadImage M data ip m) by
    obtain ⟨⟨r, m'⟩, hr, img, rfl, himg⟩ := h.exists_ok
    exact ⟨img, m', hr, himg⟩
  have hround : PGROUNDUP 0 = 0 := by decide
  have hnew : (0 + 2 * PGSIZE) % 2 ^ 32 = 2 * PGSIZE := by decide
  rw [loadImage]
  dsimp only
  rw [if_neg (not_not.mpr hlen), if_neg (not_not.mpr hmagic), hphnum]
  refine ((Pgdir.setupkvm_ensures hl).weaken (fun _ hs ↦ hplenty (hs.mono (by omega)))).bind ?_
  rintro ⟨r, m₁⟩ hr
  cases r with
  | none => exact (hplenty (Short.mono hr (by omega))).elim
  | some pgdir₁ =>
    have h₁ : Loaded M data 0 pgdir₁ m₁ := .of_kernel hfree hr
    have hlt : 2 * PGSIZE < KERNBASE := by decide
    dsimp only
    rw [loadSegments, ok_bind]
    dsimp only
    rw [hround, hnew]
    refine (Pgdir.allocuvm_ensures hlt h₁.free (h₁.unmapped hl hlt) (Nat.zero_le _)).bind ?_
    rintro ⟨sz₂, pgdir₂, m₂⟩ (⟨rfl, hg⟩ | ⟨-, -, hs⟩)
    · dsimp only at hg ⊢
      rw [if_neg (by decide)]
      have h₂ := h₁.grown hlt (Nat.zero_le _) hg
      refine (h₂.stack 2 rfl (Nat.le_refl 2) (by decide)).bind ?_
      rintro pgdir₃ ⟨himg, ht⟩
      refine ⟨_, rfl, himg _, fun v h3 h4 htable ↦ ?_⟩
      rcases hg.tables v (by omega) (ht v htable) with h | h
      · exact hr.hole v h3 h4 h
      · omega
    · exact (hplenty (hr.draws.short (hs.mono (by decide)))).elim

end Xv6Bfs.Vm

import Xv6Bfs.Vm.Copyuvm

namespace Xv6Bfs.Vm

open Lib.Execution Function

/-- `deallocuvm` clears the entries of its range and frees their pages, each once, or there is a page
that `kfree` does not take; `allocuvm` fills its range with pages of zeroes, or there may be no page and it
changes no mapping. -/
theorem uvm_acts_on_range {M : Machine} {pgdir : Pgdir} {m : Mem} {oldsz newsz : ℕ} :
    (newsz < oldsz → oldsz ≤ KERNBASE →
      Ensures (fun r ↦ r.1 = newsz ∧ pgdir.Cleared (pages newsz) (pages oldsz) r.2.1 ∧
          r.2.2.freelist = (pgdir.present (pages newsz) (pages oldsz)).reverse ++ m.freelist)
        (fun e ↦ e = .kfree ∧ ¬ pgdir.Freeable M (pages newsz) (pages oldsz))
        (pgdir.deallocuvm M oldsz newsz m)) ∧
    (Maps oldsz pgdir → Owns M pgdir m → m.freelist.Nodup → oldsz ≤ newsz → newsz < KERNBASE →
      ∃ sz pgdir' m', pgdir.allocuvm M oldsz newsz m = .ok (sz, pgdir', m') ∧
        ((sz = newsz ∧ Pgdir.FreshZeroed m (pages oldsz) (pages newsz) pgdir' m' ∧
            ∀ u, u < 2 ^ 20 → ¬ (pages oldsz ≤ u ∧ u < pages newsz) → pgdir'.tr u = pgdir.tr u) ∨
          sz = 0 ∧ Short M m (2 * (pages newsz - pages oldsz)) ∧
            ∀ u, u < 2 ^ 20 → pgdir'.tr u = pgdir.tr u)) := by
  constructor
  · intro hlt hsz
    exact (Pgdir.deallocuvm_cases hsz hlt).mono (fun r ⟨h, hr⟩ ↦ ⟨h, hr.cleared, hr.freelist⟩)
  · intro hm ho hnd hle hsz
    rw [Maps.iff (by omega)] at hm
    have hpages := pages_le (Nat.le_of_lt hsz)
    have hfree (u : ℕ) (h1 : pages oldsz ≤ u) (h2 : u < pages newsz) : pgdir.tr u = none := by
      by_contra hno
      have := (hm u (by omega)).mp hno
      omega
    obtain ⟨⟨sz, pgdir', m'⟩, hr, hpost⟩ := (Pgdir.allocuvm_ensures hsz ho.free hfree hle).exists_ok
    refine ⟨sz, pgdir', m', hr, hpost.imp ?_ ?_⟩
    · rintro ⟨h1, hg⟩
      exact ⟨h1, hg.zeroed hnd, hg.old⟩
    · rintro ⟨h1, hrest, hs⟩
      exact ⟨h1, hs, hrest.tr⟩

theorem uvm_acts_on_range_onePage :
    Ensures (fun r ↦ r.1 = 0 ∧ onePage.pgdir.Cleared (pages 0) (pages onePage.sz) r.2.1 ∧
        r.2.2.freelist =
          (onePage.pgdir.present (pages 0) (pages onePage.sz)).reverse ++ manyPages.freelist)
      (fun _ ↦ False) (onePage.pgdir.deallocuvm smallMachine onePage.sz 0 manyPages) ∧
    ∃ pgdir' m', onePage.pgdir.allocuvm smallMachine onePage.sz 8192 manyPages =
        .ok (8192, pgdir', m') ∧
      Pgdir.FreshZeroed manyPages (pages onePage.sz) (pages 8192) pgdir' m' ∧
      ∀ u, u < 2 ^ 20 → ¬ (pages onePage.sz ≤ u ∧ u < pages 8192) →
        pgdir'.tr u = onePage.pgdir.tr u := by
  have hdealloc : Ensures (fun _ ↦ True) (fun _ ↦ False)
      (onePage.pgdir.deallocuvm smallMachine onePage.sz 0 manyPages) := by decide +kernel
  obtain ⟨sz, pgdir', m', hrun, ⟨rfl, hz, hrest⟩ | ⟨-, hs, -⟩⟩ := uvm_acts_on_range.2 onePage_maps
    onePage_owns_manyPages manyPages_nodup (show onePage.sz ≤ 8192 by decide) (by decide)
  · exact ⟨((uvm_acts_on_range.1 (by decide) (by decide)).and hdealloc).mono (fun r hr ↦ hr.1) |>.weaken
      (fun _ h ↦ h.2), pgdir', m', hrun, hz, hrest⟩
  · exact absurd hs (manyPages_plenty (by decide))

end Xv6Bfs.Vm

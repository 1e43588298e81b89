import Xv6Bfs.Vm.Holdings
import Xv6Bfs.Vm.ArgStack

namespace Xv6Bfs.Vm

open Lib.Execution Function

variable {M : Machine} {pgdir d : Pgdir} {m m₀ : Mem} {sz v data : ℕ}

structure CopiedTo (data : ℕ) (pgdir : Pgdir) (m₀ : Mem) (n : ℕ) (d : Pgdir) (m : Mem) : Prop where
  copy : ∀ v, v < n → ∃ e p, pgdir.tr v = some e ∧ d.tr v = some ⟨p, e.w, e.u⟩ ∧
    p ∈ m₀.freelist ∧ m.phys p = m₀.phys e.ppn
  rest : ∀ v, n ≤ v → v < 2 ^ 20 → d.tr v = kernelEntry data v
  conserves : Conserves (fun _ ↦ 0) m₀ d.holds m
  draws : Draws (1 + kernelTables (kmap data) + 2 * n) m₀ m

namespace CopiedTo

theorem held {n : ℕ} {e : Pte} (h : CopiedTo data pgdir m₀ n d m) (hv : v < 2 ^ 19)
    (he : d.tr v = some e) (hnd : m₀.freelist.Nodup) : e.ppn ∉ m.freelist :=
  Pgdir.not_free h.conserves hnd (Pgdir.holds_pos hv he)

theorem snoc {d' : Pgdir} {m' : Mem} {e : Pte} {p : ℕ} (h : CopiedTo data pgdir m₀ v d m)
    (hnd : m₀.freelist.Nodup) (hv : v < 2 ^ 19) (he : pgdir.tr v = some e) (hp : p ∈ m₀.freelist)
    (hcopy : m'.phys p = m₀.phys e.ppn) (hdraws : Draws 2 m m')
    (htr : ∀ u, u < 2 ^ 20 → d'.tr u = if u = v then some ⟨p, e.w, e.u⟩ else d.tr u)
    (hcons : Conserves (fun _ ↦ 0) m₀ d'.holds m') : CopiedTo data pgdir m₀ (v + 1) d' m' := by
  refine ⟨fun u hu ↦ ?_, fun u h1 h2 ↦ ?_, hcons, (h.draws.trans hdraws).mono (by omega)⟩
  · rw [htr u (by omega)]
    by_cases huv : u = v
    · rw [if_pos huv, huv]
      exact ⟨e, p, he, rfl, hp, hcopy⟩
    · rw [if_neg huv]
      obtain ⟨e', p', he', hd, hp', hphys'⟩ := h.copy u (by omega)
      refine ⟨e', p', he', hd, hp', ?_⟩
      rw [hdraws.phys p' (h.held (by omega) hd hnd), hphys']
  · rw [htr u h2, if_neg (by omega)]
    exact h.rest u (by omega) h2

end CopiedTo

/-- `copyuvm` gives the copy, or there may be no page and it gives all its pages back. -/
def CopyResult (M : Machine) (data sz : ℕ) (pgdir : Pgdir) (m₀ : Mem) (r : Option Pgdir × Mem) : Prop :=
  match r.1 with
  | some d => CopiedTo data pgdir m₀ (pages sz) d r.2
  | none => Conserves (fun _ ↦ 0) m₀ (fun _ ↦ 0) r.2 ∧
    Short M m₀ (1 + kernelTables (kmap data) + 2 * pages sz)

section

variable (hl : Linked data) (hsz : sz ≤ KERNBASE) (ho : Owns M pgdir m₀) (hnd : m₀.freelist.Nodup)
include hl hsz ho hnd

theorem copyLoop_cases {fuel : ℕ} (h : CopiedTo data pgdir m₀ v d m) (hv : v ≤ pages sz)
    (hfuel : pages sz - v < fuel) :
    Ensures (CopyResult M data sz pgdir m₀) (fun e ↦ e = .copyuvm ∧ ∃ v, v < pages sz ∧ pgdir.tr v = none)
      (Pgdir.copyLoop M pgdir sz fuel (v * PGSIZE) d m) := by
  have hle := pages_le hsz
  induction fuel generalizing v d m with
  | zero => omega
  | succ fuel ih =>
    have hvalid : ∀ q, 0 < d.holds q → Mem.Valid M q :=
      fun q hq ↦ ho.free q (h.conserves.mem_of_held hq)
    rw [Pgdir.copyLoop]
    by_cases hlt : v < pages sz
    · cases he : pgdir.tr v with
      | none =>
        have hwalk : (pgdir.walk (v * PGSIZE)).join = none := he
        rw [if_pos (lt_pages.mp hlt), hwalk]
        exact ⟨rfl, v, hlt, he⟩
      | some e =>
        have hwalk : (pgdir.walk (v * PGSIZE)).join = some e := he
        have hsrc : e.ppn ∉ m₀.freelist := (ho.mapped v e (user_page.mpr (by omega)) he).2
        rw [if_pos (lt_pages.mp hlt), hwalk]
        dsimp only
        cases hk : m.kalloc M with
        | mk q m₁ =>
          cases q with
          | none =>
            have hcons := h.conserves.trans (conserves_kalloc_none hk)
            have hs : Short M m₀ (1 + kernelTables (kmap data) + 2 * pages sz) :=
              (h.draws.short (kalloc_none hk).2).mono (by omega)
            exact ((Pgdir.freevm_ensures hvalid).weaken (fun _ ↦ False.elim)).bind
              (fun m₂ hm₂ ↦ ⟨hcons.trans hm₂, hs⟩)
          | some p =>
            have hcons : Conserves (fun _ ↦ 0) m₀ (fun q ↦ d.holds q + holding (some p) q)
                (m₁.copy e.ppn p) := h.conserves.trans (conserves_kalloc_some hk)
            obtain ⟨hmem, hdraw⟩ := kalloc_some hk
            have hp₀ : p ∈ m₀.freelist := h.conserves.mem_of_mem hmem
            have hp : p ∉ (m₁.copy e.ppn p).freelist := by
              have hone := hcons.add_le_one hnd (q := p)
              rw [holding_self] at hone
              exact List.count_eq_zero.mp (by omega)
            have hnone : d.tr v = none := by
              rw [h.rest v (Nat.le_refl v) (by omega)]
              exact kernelEntry_none hl (.inl (by omega))
            dsimp only
            refine (((Pgdir.mappage_ensures (by omega) hnone).and
              (Pgdir.conserves_mappage (by omega))).weaken (fun _ h ↦ h.1.elim)).bind ?_
            rintro ⟨mapped, d', m₂⟩ ⟨⟨hdraws, -, hr⟩, hc⟩
            have hdraws₂ : Draws 2 m m₂ := (hdraw _).trans hdraws
            rcases hr with ⟨rfl, htr⟩ | ⟨rfl, htr, hs⟩
            · dsimp only at hdraws htr hc ⊢
              rw [if_pos rfl, next_page (by omega)]
              refine ih (h.snoc hnd (by omega) he hp₀ ?_ hdraws₂ htr ?_) hlt (by omega)
              · rw [hdraws.phys p hp]
                change update m₁.phys p (m₁.phys e.ppn) p = _
                rw [update_self, (kalloc_eq_some hk).2, h.conserves.phys_of_not_mem hsrc]
              · refine (hcons.trans hc).congr (fun q ↦ ?_)
                rw [if_pos rfl, holding_none, Nat.add_zero]
            · dsimp only at hc ⊢
              rw [if_neg (by simp)]
              refine ((kfree_ensures d'.holds (ho.free p hp₀)).weaken
                (fun _ ↦ False.elim)).bind (fun m₃ hm₃ ↦ ?_)
              have hcons₃ := (hcons.trans hc).trans hm₃
              refine ((Pgdir.freevm_ensures (fun q hq ↦ ho.free q (hcons₃.mem_of_held hq))).weaken
                (fun _ ↦ False.elim)).bind (fun m₄ hm₄ ↦ ⟨hcons₃.trans hm₄, ?_⟩)
              exact ((h.draws.trans (hdraw _)).short hs).mono (by omega)
    · rw [if_neg (fun hs ↦ hlt (lt_pages.mpr hs))]
      rw [show v = pages sz by omega] at h
      exact h

theorem copyuvm_ensures :
    Ensures (CopyResult M data sz pgdir m₀) (fun e ↦ e = .copyuvm ∧ ∃ v, v < pages sz ∧ pgdir.tr v = none)
      (Pgdir.copyuvm M data pgdir sz m₀) := by
  have hle := pages_le hsz
  refine ((((Pgdir.setupkvm_conserves ho.free hl).and (Pgdir.setupkvm_ensures hl))).weaken
    (fun _ h ↦ h.1.elim)).bind ?_
  rintro ⟨r, m₁⟩ ⟨hcons, hkernel⟩
  cases r with
  | none => exact ⟨hcons, hkernel.mono (Nat.le_add_right _ _)⟩
  | some d =>
    have hstart : CopiedTo data pgdir m₀ 0 d m₁ :=
      ⟨fun v hv ↦ absurd hv (Nat.not_lt_zero v), fun v _ hv ↦ hkernel.tr v hv, hcons,
        hkernel.draws.mono (Nat.le_add_right _ _)⟩
    rw [← Nat.zero_mul PGSIZE]
    exact copyLoop_cases hl hsz ho hnd hstart (Nat.zero_le _) (by omega)

end

/-- The user half of a page directory and its contents are copied to other pages. -/
structure IndependentCopy (pgdir : Pgdir) (m : Mem) (d : Pgdir) (m' : Mem) : Prop where
  flags : ∀ v, v < 2 ^ 19 → (d.tr v).map (fun e ↦ (e.w, e.u)) = (pgdir.tr v).map (fun e ↦ (e.w, e.u))
  contents : ∀ v e e', v < 2 ^ 19 → pgdir.tr v = some e → d.tr v = some e' →
    m'.phys e'.ppn = m.phys e.ppn
  fresh : ∀ v e, v < 2 ^ 19 → d.tr v = some e → e.ppn ∈ m.freelist ∧ e.ppn ∉ m'.freelist
  distinct : ∀ u v e e', u < 2 ^ 19 → v < 2 ^ 19 → u ≠ v → d.tr u = some e → d.tr v = some e' →
    e.ppn ≠ e'.ppn
  unchanged : ∀ q, q ∉ m.freelist → m'.phys q = m.phys q

theorem CopiedTo.independent (hl : Linked data) (hsz : sz ≤ KERNBASE) (hm : Maps sz pgdir)
    (hnd : m₀.freelist.Nodup) (h : CopiedTo data pgdir m₀ (pages sz) d m) :
    IndependentCopy pgdir m₀ d m := by
  rw [Maps.iff hsz] at hm
  have hrest (v : ℕ) (hv : v < 2 ^ 19) (hn : ¬ v < pages sz) :
      pgdir.tr v = none ∧ d.tr v = none := by
    refine ⟨by_contra (fun hno ↦ hn ((hm v hv).mp hno)), ?_⟩
    rw [h.rest v (by omega) (by omega)]
    exact kernelEntry_none hl (.inl (by omega))
  refine ⟨fun v hv ↦ ?_, fun v e e' hv he he' ↦ ?_, fun v e hv he ↦ ⟨?_, h.held hv he hnd⟩,
    fun u v e e' hu hv hne heu hev heq ↦ ?_, fun q hq ↦ h.conserves.phys_of_not_mem hq⟩
  · by_cases hn : v < pages sz
    · obtain ⟨e, p, he, hd, -⟩ := h.copy v hn
      rw [he, hd]
      rfl
    · rw [(hrest v hv hn).1, (hrest v hv hn).2]
  · by_cases hn : v < pages sz
    · obtain ⟨e₁, p, he₁, hd, -, hphys⟩ := h.copy v hn
      rw [he₁] at he
      rw [hd] at he'
      cases he
      cases he'
      exact hphys
    · rw [(hrest v hv hn).1] at he
      cases he
  · exact h.conserves.mem_of_held (Pgdir.holds_pos hv he)
  · exact hne (Pgdir.separate h.conserves hnd u v e e' hu hv heu hev heq)

/-- `copyuvm` gives an independent copy, or 0 with all pages free that were free before; and 0 only
when there may be too few of them. -/
theorem copyuvm_copies_or_nothing {M : Machine} {data sz : ℕ} {pgdir : Pgdir} {m : Mem}
    (hl : Linked data) (hsz : sz ≤ KERNBASE) (hm : Maps sz pgdir) (ho : Owns M pgdir m)
    (hnd : m.freelist.Nodup) :
    ∃ r m', Pgdir.copyuvm M data pgdir sz m = .ok (r, m') ∧
      match r with
      | some d => IndependentCopy pgdir m d m'
      | none => m'.freelist.Perm m.freelist ∧
        Short M m (1 + kernelTables (kmap data) + 2 * pages sz) := by
  have hle := pages_le hsz
  have hmapped := (Maps.iff hsz).mp hm
  have h : Ensures (CopyResult M data sz pgdir m) (fun _ ↦ False) (Pgdir.copyuvm M data pgdir sz m) :=
    (copyuvm_ensures hl hsz ho hnd).weaken
      (fun _ ⟨_, u, hu, hnone⟩ ↦ (hmapped u (by omega)).mpr hu hnone)
  obtain ⟨⟨r, m'⟩, hr, hpost⟩ := h.exists_ok
  refine ⟨r, m', hr, ?_⟩
  cases r with
  | none => exact hpost.imp_left Conserves.perm
  | some d => exact CopiedTo.independent hl hsz hm hnd hpost

theorem onePage_owns_manyPages : Owns smallMachine onePage.pgdir manyPages := by
  refine ⟨manyPages_valid, fun v e hv he ↦ ?_⟩
  rw [onePage_tr (user_page.mp hv)] at he
  split at he
  · cases he
    decide
  · cases he

theorem manyPages_nodup : manyPages.freelist.Nodup := List.nodup_range'

theorem manyPages_plenty {k : ℕ} (hk : k < 100) : ¬ Short smallMachine manyPages k := by
  rintro (⟨i, hi⟩ | hlen)
  · cases hi
  · simp only [manyPages, List.length_range'] at hlen
    omega

theorem copyuvm_copies_or_nothing_onePage :
    ∃ d m', Pgdir.copyuvm smallMachine smallData onePage.pgdir onePage.sz manyPages =
      .ok (some d, m') ∧ IndependentCopy onePage.pgdir manyPages d m' := by
  obtain ⟨r, m', hrun, hr⟩ := copyuvm_copies_or_nothing linked_small (by decide) onePage_maps
    onePage_owns_manyPages manyPages_nodup
  cases r with
  | none => exact absurd hr.2 (manyPages_plenty (by decide))
  | some d => exact ⟨d, m', hrun, hr⟩

end Xv6Bfs.Vm

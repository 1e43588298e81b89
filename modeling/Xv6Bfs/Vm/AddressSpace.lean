import Xv6Bfs.Vm.Arguments
import Xv6Bfs.Vm.Copyuvm

namespace Xv6Bfs.Vm

open Lib.Execution Function

variable {M : Machine} {data sz newsz : ℕ} {pgdir pgdir' : Pgdir} {m m₀ : Mem}

theorem Conserves.of_part {held held' a a' : ℕ → ℕ} {m' : Mem} (h : Conserves a m a' m')
    (hle : ∀ q, a q ≤ held q) (hsum : ∀ q, held' q + a q = held q + a' q) :
    Conserves held m held' m' := by
  refine ⟨fun q ↦ ?_, fun q hq ↦ h.phys q ?_⟩
  · have := h.count q
    have := hsum q
    omega
  · have := hle q
    omega

/-- An address space of `sz` bytes: above `KERNBASE` are the mappings of the kernel, and below only
pages of the process. Some of these may be missing, since `growproc` can give all of them back and
keep the size. -/
structure Pgdir.Confined (data sz : ℕ) (pgdir : Pgdir) : Prop where
  lt : sz < KERNBASE
  user : ∀ v, v < 2 ^ 19 → pgdir.tr v ≠ none → v < pages sz
  kernel : ∀ v, 2 ^ 19 ≤ v → v < 2 ^ 20 → pgdir.tr v = kernelEntry data v

theorem CopiedTo.confined {d : Pgdir} (hl : Linked data) (hsz : sz < KERNBASE)
    (h : CopiedTo data pgdir m₀ (pages sz) d m) : d.Confined data sz := by
  have hle := pages_le (Nat.le_of_lt hsz)
  refine ⟨hsz, fun v hv hmapped ↦ ?_, fun v h1 h2 ↦ h.rest v (by omega) h2⟩
  by_contra hno
  refine hmapped ?_
  rw [h.rest v (by omega) (by omega)]
  exact kernelEntry_none hl (.inl (by omega))

theorem IsImage.confined {n : ℕ} {img : Image} (hl : Linked data) (hi : IsImage data n img) :
    img.pgdir.Confined data img.sz := by
  have hn := hi.lt
  have hpages : pages img.sz = n := by
    simp only [pages, hi.sz, PGSIZE]
    omega
  refine ⟨?_, fun v hv hmapped ↦ ?_, fun v h1 h2 ↦ hi.rest v (by omega) h2⟩
  · rw [hi.sz]
    simp only [PGSIZE, KERNBASE]
    omega
  · rw [hpages]
    by_contra hno
    refine hmapped ?_
    rw [hi.rest v (by omega) (by omega)]
    exact kernelEntry_none hl (.inl (by omega))

namespace Pgdir.Confined

theorem mono (h : pgdir.Confined data sz) (hle : sz ≤ newsz) (hlt : newsz < KERNBASE) :
    pgdir.Confined data newsz :=
  ⟨hlt, fun v hv hmapped ↦ Nat.lt_of_lt_of_le (h.user v hv hmapped) (pages_mono hle), h.kernel⟩

theorem congr (h : pgdir.Confined data sz) (htr : ∀ v, v < 2 ^ 20 → pgdir'.tr v = pgdir.tr v) :
    pgdir'.Confined data sz :=
  ⟨h.lt, fun v hv hmapped ↦ h.user v hv (by rwa [← htr v (by omega)]),
    fun v h1 h2 ↦ by rw [htr v h2, h.kernel v h1 h2]⟩

theorem grown (h : pgdir.Confined data sz) {m' : Mem} (hlt : newsz < KERNBASE) (hle : sz ≤ newsz)
    (hg : pgdir.Grown m (pages sz) (pages newsz) pgdir' m') : pgdir'.Confined data newsz := by
  have hpages := pages_le (Nat.le_of_lt hlt)
  have hmono := pages_mono hle
  refine ⟨hlt, fun v hv hmapped ↦ ?_, fun v h1 h2 ↦ ?_⟩
  · by_contra hno
    rw [hg.old v (by omega) (by omega)] at hmapped
    have := h.user v hv hmapped
    omega
  · rw [hg.old v h2 (by omega), h.kernel v h1 h2]

theorem freed (h : pgdir.Confined data sz) {m' : Mem} (hlt : newsz < sz)
    (hf : pgdir.Freed m (pages newsz) (pages sz) pgdir' m') : pgdir'.Confined data newsz := by
  have hsz := h.lt
  have hpages := pages_le (Nat.le_of_lt hsz)
  refine ⟨by omega, fun v hv hmapped ↦ ?_, fun v h1 h2 ↦ ?_⟩
  · by_contra hno
    rw [hf.tr (by omega)] at hmapped
    split at hmapped
    · exact hmapped rfl
    · have := h.user v hv hmapped
      omega
  · rw [hf.tr h2, if_neg (by omega), h.kernel v h1 h2]

end Pgdir.Confined

/-- What `growproc` stores: the size that is returned, or the old size if it is 0. -/
def resized (sz r : ℕ) : ℕ := if r = 0 then sz else r

section

variable (h : pgdir.Confined data sz)
include h

theorem Pgdir.Confined.allocuvm (hfree : ∀ p ∈ m.freelist, Mem.Valid M p) :
    Ensures (fun r ↦ r.2.1.Confined data (resized sz r.1) ∧
        Conserves pgdir.holds m r.2.1.holds r.2.2)
      (fun _ ↦ False) (pgdir.allocuvm M sz newsz m) := by
  have hsz := h.lt
  have hself : pgdir.Confined data (resized sz sz) := by
    rwa [resized, ite_self]
  by_cases hbig : newsz ≥ KERNBASE
  · rw [Pgdir.allocuvm, if_pos hbig]
    exact ⟨h, .refl⟩
  have hlt := Nat.lt_of_not_le hbig
  by_cases hle : sz ≤ newsz
  · have hnone (v : ℕ) (h1 : pages sz ≤ v) (h2 : v < pages newsz) : pgdir.tr v = none := by
      have hpages := pages_le (Nat.le_of_lt hlt)
      by_contra hmapped
      have := h.user v (by omega) hmapped
      omega
    refine (((Pgdir.allocuvm_ensures hlt hfree hnone hle).and Pgdir.conserves_allocuvm).mono
      ?_).weaken (fun _ he ↦ he.1)
    rintro ⟨r, pgdir', m'⟩ ⟨⟨rfl, hr⟩ | ⟨rfl, hr, -⟩, hcons⟩
    · refine ⟨?_, hcons⟩
      have hgrown := h.grown hlt hle hr
      dsimp only at hgrown ⊢
      rw [resized]
      split
      · rwa [show sz = r by omega]
      · exact hgrown
    · exact ⟨h.congr hr.tr, hcons⟩
  · rw [Pgdir.allocuvm, if_neg hbig, if_pos (by omega)]
    exact ⟨hself, .refl⟩

theorem Pgdir.Confined.deallocuvm (hheld : ∀ q, 0 < pgdir.holds q → Mem.Valid M q) :
    Ensures (fun r ↦ r.2.1.Confined data (resized sz r.1) ∧
        Conserves pgdir.holds m r.2.1.holds r.2.2)
      (fun _ ↦ False) (pgdir.deallocuvm M sz newsz m) := by
  have hsz := h.lt
  have hle := pages_le (Nat.le_of_lt hsz)
  by_cases hge : newsz ≥ sz
  · rw [Pgdir.deallocuvm, if_pos hge]
    refine ⟨?_, .refl⟩
    rwa [resized, ite_self]
  · refine (Pgdir.deallocuvm_ensures (Nat.le_of_lt hsz) (by omega) (fun u e _ h2 hu ↦ ?_)).mono ?_
    · exact hheld _ (Pgdir.holds_pos (by omega) hu)
    · rintro ⟨r, pgdir', m'⟩ ⟨rfl, hr⟩
      refine ⟨?_, hr.conserves hle⟩
      have hfreed := h.freed (by omega) hr
      dsimp only at hfreed ⊢
      rw [resized]
      split
      · exact hfreed.mono (by omega) hsz
      · exact hfreed

end

theorem growproc_ensures {p : Proc} (n : ℤ) (h : p.pgdir.Confined data p.sz)
    (hfree : ∀ q ∈ m.freelist, Mem.Valid M q) (hheld : ∀ q, 0 < p.pgdir.holds q → Mem.Valid M q) :
    Ensures (fun r ↦ r.2.1.pgdir.Confined data r.2.1.sz ∧
        Conserves p.pgdir.holds m r.2.1.pgdir.holds r.2.2)
      (fun _ ↦ False) (growproc M n p m) := by
  have hset (r : ℕ × Pgdir × Mem) (hr : r.2.1.Confined data (resized p.sz r.1) ∧
        Conserves p.pgdir.holds m r.2.1.holds r.2.2) :
      Ensures (fun r ↦ r.2.1.pgdir.Confined data r.2.1.sz ∧
          Conserves p.pgdir.holds m r.2.1.pgdir.holds r.2.2) (fun _ ↦ False)
        (if r.1 = 0 then .ok (false, (⟨p.sz, r.2.1⟩ : Proc), r.2.2)
          else .ok (true, ⟨r.1, r.2.1⟩, r.2.2) : Except Panic (Bool × Proc × Mem)) := by
    rw [resized] at hr
    split
    · rwa [if_pos ‹_›] at hr
    · rwa [if_neg ‹_›] at hr
  rw [growproc]
  split
  · exact (h.allocuvm hfree).bind hset
  split
  · exact (h.deallocuvm hheld).bind hset
  · exact ⟨h, .refl⟩

theorem exec_conserves (namei : List UInt8 → Option Inode) (path : List UInt8)
    (argv : List (List UInt8)) {t : Task} (hl : Linked data) (ht : t.pgdir.Kept M m)
    (hc : t.pgdir.Confined data t.sz) :
    Ensures (fun r ↦ r.2.1.pgdir.Confined data r.2.1.sz ∧
        Conserves t.pgdir.holds m r.2.1.pgdir.holds r.2.2)
      (fun e ↦ e = .nullPte) (exec M data namei path argv t m) := by
  rw [exec]
  cases namei path with
  | none => exact ⟨hc, .refl⟩
  | some ip =>
    refine ((loadImage_builds hl ht.free ht.nodup).weaken (fun _ ↦ False.elim)).bind ?_
    rintro ⟨r, m₁⟩ hr
    cases r with
    | none => exact ⟨hc, hr.of_part (fun q ↦ Nat.zero_le _) (fun q ↦ rfl)⟩
    | some img =>
      have hb : img.Built data m ip ip.programHeaders m₁ := hr
      obtain ⟨n, hi⟩ := hb.isImage
      have hsep := Pgdir.separate hb.conserves ht.nodup
      refine ((((hi.pushStack_cases (m := m₁) hsep argv).and hi.pushStack_conserves).weaken
        (fun e he ↦ he.1.1))).bind ?_
      rintro ⟨pushed, st⟩ ⟨-, hcons⟩
      have hnew := hb.conserves.trans hcons
      have hvalid (q : ℕ) (hq : 0 < img.pgdir.holds q) : Mem.Valid M q :=
        ht.free q (hnew.mem_of_held hq)
      dsimp only at hnew ⊢
      cases pushed with
      | true =>
        -- until the old address space is freed, the process holds both
        have hboth : Conserves t.pgdir.holds m (fun q ↦ t.pgdir.holds q + img.pgdir.holds q) st.mem :=
          hnew.of_part (fun q ↦ Nat.zero_le _) (fun q ↦ Nat.add_zero _)
        rw [if_pos rfl]
        refine ((Pgdir.freevm_ensures (fun q hq ↦ (ht.held q hq).1)).weaken
          (fun _ ↦ False.elim)).bind (fun m' hm ↦ ?_)
        have hgone : Conserves (fun q ↦ t.pgdir.holds q + img.pgdir.holds q) st.mem
            img.pgdir.holds m' := hm.of_part (fun q ↦ by omega) (fun q ↦ by omega)
        exact ⟨hi.confined hl, hboth.trans hgone⟩
      | false =>
        rw [if_neg Bool.false_ne_true]
        refine ((Pgdir.freevm_ensures hvalid).weaken (fun _ ↦ False.elim)).bind
          (fun m' hm ↦ ⟨hc, ?_⟩)
        exact (hnew.trans hm).of_part (fun q ↦ Nat.zero_le _) (fun q ↦ rfl)

end Xv6Bfs.Vm

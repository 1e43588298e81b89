import Xv6Bfs.Vm.UserMemory

namespace Xv6Bfs.Vm

open Lib.Execution Lib.Bytes Function

namespace Inode

variable (ip : Inode)

def headers : (n off : ℕ) → List Proghdr
  | 0, _ => []
  | n + 1, off =>
    proghdr (ip.readi off sizeofProghdr) :: headers n ((off + sizeofProghdr) % 2 ^ 32)

def programHeaders : List Proghdr :=
  let elf := elfhdr (ip.readi 0 sizeofElfhdr)
  ip.headers elf.phnum elf.phoff

def segmentPage (h : Proghdr) (k : ℕ) : List UInt8 :=
  ip.readi ((h.off + k * PGSIZE) % 2 ^ 32) (min (h.filesz - k * PGSIZE) PGSIZE)

def segmentByte (h : Proghdr) (i : ℕ) : UInt8 := (ip.segmentPage h (i / PGSIZE)).getD (i % PGSIZE) 0

def Complete (h : Proghdr) : Prop :=
  ∀ k, k * PGSIZE < h.filesz → (ip.segmentPage h k).length = min (h.filesz - k * PGSIZE) PGSIZE

end Inode

def Proghdr.Covers (h : Proghdr) (a : ℕ) : Prop :=
  h.type = ELF_PROG_LOAD ∧ h.vaddr ≤ a ∧ a < h.vaddr + h.filesz

instance Proghdr.decidableCovers (h : Proghdr) (a : ℕ) : Decidable (h.Covers a) :=
  inferInstanceAs (Decidable (_ ∧ _))

def covering (hs : List Proghdr) (a : ℕ) : Option Proghdr := hs.reverse.find? (fun h ↦ h.Covers a)

def Inode.imageByte (ip : Inode) (hs : List Proghdr) (a : ℕ) : UInt8 :=
  match covering hs a with
  | some h => ip.segmentByte h (a - h.vaddr)
  | none => 0

variable {M : Machine} {pgdir pgdir' : Pgdir} {m m' m₀ : Mem} {a v sz data : ℕ} {ip : Inode}
  {h : Proghdr} {hs : List Proghdr}

theorem field_lt (l : List UInt8) (off w : ℕ) : field l off w < 256 ^ w :=
  (fromBytes_lt _).trans_le (Nat.pow_le_pow_right (by decide) (List.length_take_le _ _))

theorem covering_snoc (hs : List Proghdr) (h : Proghdr) (a : ℕ) :
    covering (hs ++ [h]) a = if h.Covers a then some h else covering hs a := by
  rw [covering, List.reverse_append, List.reverse_singleton, List.singleton_append, List.find?_cons]
  by_cases hc : h.Covers a
  · simp [hc]
  · simp [hc, covering]

theorem covering_eq_none (hno : ∀ h ∈ hs, ¬ h.Covers a) : covering hs a = none := by
  rw [covering, List.find?_eq_none]
  intro h hh
  rw [decide_eq_true_iff]
  exact hno h (List.mem_reverse.mp hh)

theorem covering_mem (hc : covering hs a = some h) : h ∈ hs ∧ h.Covers a := by
  rw [covering] at hc
  have hcovers := List.find?_some hc
  rw [decide_eq_true_iff] at hcovers
  exact ⟨List.mem_reverse.mp (List.mem_of_find?_eq_some hc), hcovers⟩

theorem loadLoop_loads {fuel k : ℕ} (hs : pgdir.Separate) (hv : h.vaddr = v * PGSIZE)
    (hend : h.vaddr + h.filesz ≤ KERNBASE)
    (hmap : ∀ u, v ≤ u → u * PGSIZE < h.vaddr + h.filesz → ∃ p, pgdir.tr u = some ⟨p, true, true⟩)
    (hfuel : pages h.filesz - k < fuel) :
    Ensures (fun r ↦ Conserves pgdir.holds m pgdir.holds r.2 ∧ r.2.freelist = m.freelist ∧
        (r.1 = true →
          (∀ j, k ≤ j → j * PGSIZE < h.filesz →
            (ip.segmentPage h j).length = min (h.filesz - j * PGSIZE) PGSIZE) ∧
          ∀ a, a < KERNBASE → pgdir.byte r.2 a =
            if h.vaddr + k * PGSIZE ≤ a ∧ a < h.vaddr + h.filesz
            then some (ip.segmentByte h (a - h.vaddr)) else pgdir.byte m a))
      (fun _ ↦ False) (pgdir.loadLoop h.vaddr ip h.off h.filesz fuel (k * PGSIZE) m) := by
  induction fuel generalizing k m with
  | zero => omega
  | succ fuel ih =>
    rw [Pgdir.loadLoop]
    by_cases hlt : k * PGSIZE < h.filesz
    swap
    · rw [if_neg hlt]
      refine ⟨.refl, rfl, fun _ ↦ ⟨fun j hj hjlt ↦ absurd (Nat.mul_le_mul_right PGSIZE hj) (by omega),
        fun a _ ↦ ?_⟩⟩
      rw [if_neg (by omega)]
    have hpage : v + k < 2 ^ 19 := by
      simp only [PGSIZE, KERNBASE] at hv hend hlt ⊢
      omega
    have haddr : (h.vaddr + k * PGSIZE) % 2 ^ 32 = (v + k) * PGSIZE := by
      simp only [PGSIZE] at hv ⊢
      omega
    obtain ⟨p, hp⟩ := hmap (v + k) (Nat.le_add_right v k) (by rw [Nat.add_mul, ← hv]; omega)
    have hwalk : pgdir.walk ((v + k) * PGSIZE) = some (some ⟨p, true, true⟩) :=
      Option.join_eq_some_iff.mp hp
    have hmin : (if h.filesz - k * PGSIZE < PGSIZE then h.filesz - k * PGSIZE else PGSIZE) =
        min (h.filesz - k * PGSIZE) PGSIZE := by
      split <;> omega
    have hread : ip.readi ((h.off + k * PGSIZE) % 2 ^ 32) (min (h.filesz - k * PGSIZE) PGSIZE) =
        ip.segmentPage h k := rfl
    have hle : (ip.segmentPage h k).length ≤ min (h.filesz - k * PGSIZE) PGSIZE := ip.readi_le _ _
    rw [if_pos hlt, haddr, hwalk]
    dsimp only [Option.map_some, Option.getD_some]
    rw [hmin, hread]
    have hwrite : Conserves pgdir.holds m pgdir.holds (m.write p 0 (ip.segmentPage h k)) :=
      conserves_write hpage hp
    by_cases hfull : (ip.segmentPage h k).length = min (h.filesz - k * PGSIZE) PGSIZE
    swap
    · rw [if_pos hfull]
      exact ⟨hwrite, rfl, fun hr ↦ by cases hr⟩
    rw [if_neg (not_not.mpr hfull), next_page (by omega)]
    refine (ih ?_).mono ?_
    · have hk := lt_pages.mpr hlt
      omega
    rintro r ⟨hcons, hfree, hr⟩
    refine ⟨hwrite.trans hcons, hfree, fun htrue ↦ ?_⟩
    obtain ⟨hrest, hbytes⟩ := hr htrue
    refine ⟨fun j hj hjlt ↦ ?_, fun a ha ↦ ?_⟩
    · rcases Nat.eq_or_lt_of_le hj with rfl | hj
      · exact hfull
      · exact hrest j hj hjlt
    · rw [hbytes a ha, Pgdir.byte_write hs hpage hp rfl (by omega) ha]
      have hnext : (k + 1) * PGSIZE = k * PGSIZE + PGSIZE := Nat.succ_mul k PGSIZE
      have hstart : (v + k) * PGSIZE + 0 = h.vaddr + k * PGSIZE := by rw [Nat.add_mul, hv, Nat.add_zero]
      rw [hnext, hstart]
      by_cases hlater : h.vaddr + (k * PGSIZE + PGSIZE) ≤ a ∧ a < h.vaddr + h.filesz
      · rw [if_pos hlater, if_pos (by omega)]
      rw [if_neg hlater]
      by_cases hin : h.vaddr + k * PGSIZE ≤ a ∧
          a < h.vaddr + k * PGSIZE + (ip.segmentPage h k).length
      · have hdiv : (a - h.vaddr) / PGSIZE = k := by
          simp only [PGSIZE] at hin hle ⊢
          omega
        have hmod : (a - h.vaddr) % PGSIZE = a - (h.vaddr + k * PGSIZE) := by
          simp only [PGSIZE] at hin hle ⊢
          omega
        rw [if_pos hin, if_pos (by omega), Inode.segmentByte, hdiv, hmod,
          List.getD_eq_getElem?_getD, List.getElem?_eq_getElem (by omega), Option.getD_some]
      · rw [if_neg hin, if_neg (by omega)]

structure Built (M : Machine) (data : ℕ) (m₀ : Mem) (ip : Inode) (hs : List Proghdr) (sz : ℕ)
    (pgdir : Pgdir) (m : Mem) : Prop extends Loaded M data sz pgdir m where
  conserves : Conserves (fun _ ↦ 0) m₀ pgdir.holds m
  bytes : ∀ a, a < pages sz * PGSIZE → pgdir.byte m a = some (ip.imageByte hs a)
  within : ∀ h ∈ hs, h.type = ELF_PROG_LOAD → h.vaddr + h.filesz ≤ sz
  complete : ∀ h ∈ hs, h.type = ELF_PROG_LOAD → ip.Complete h

namespace Built

theorem nil (hload : Loaded M data 0 pgdir m) (hcons : Conserves (fun _ ↦ 0) m₀ pgdir.holds m) :
    Built M data m₀ ip [] 0 pgdir m :=
  ⟨hload, hcons, fun a ha ↦ absurd ha (Nat.not_lt_zero a), by simp, by simp⟩

theorem skip (hb : Built M data m₀ ip hs sz pgdir m) (ht : h.type ≠ ELF_PROG_LOAD) :
    Built M data m₀ ip (hs ++ [h]) sz pgdir m := by
  refine ⟨hb.toLoaded, hb.conserves, fun a ha ↦ ?_, fun h' hh ht' ↦ ?_, fun h' hh ht' ↦ ?_⟩
  · rw [hb.bytes a ha, Inode.imageByte, Inode.imageByte, covering_snoc, if_neg (fun hc ↦ ht hc.1)]
  · rcases List.mem_append.mp hh with hh | hh
    · exact hb.within h' hh ht'
    · exact absurd (List.mem_singleton.mp hh ▸ ht') ht
  · rcases List.mem_append.mp hh with hh | hh
    · exact hb.complete h' hh ht'
    · exact absurd (List.mem_singleton.mp hh ▸ ht') ht

theorem imageByte_above (hb : Built M data m₀ ip hs sz pgdir m) (ha : sz ≤ a) :
    ip.imageByte hs a = 0 := by
  rw [Inode.imageByte, covering_eq_none]
  intro h hh hc
  have hle := hb.within h hh hc.1
  have hlt := hc.2.2
  omega

variable (hnd : m₀.freelist.Nodup)
include hnd

theorem grown {newsz : ℕ} (hb : Built M data m₀ ip hs sz pgdir m) (hsz : newsz < KERNBASE)
    (hle : sz ≤ newsz) (hg : pgdir.Grown m (pages sz) (pages newsz) pgdir' m')
    (hcons : Conserves pgdir.holds m pgdir'.holds m') :
    Built M data m₀ ip hs newsz pgdir' m' := by
  have hpages := pages_le (Nat.le_of_lt hsz)
  refine ⟨hb.toLoaded.grown hsz hle hg, hb.conserves.trans hcons, fun a ha ↦ ?_,
    fun h hh ht ↦ (hb.within h hh ht).trans hle, hb.complete⟩
  have hpage : a / PGSIZE < pages newsz := Nat.div_lt_of_lt_mul (by rwa [Nat.mul_comm])
  by_cases hlo : a / PGSIZE < pages sz
  · -- a page that was there before
    have ha' : a < pages sz * PGSIZE := by
      rw [Nat.div_lt_iff_lt_mul (by decide)] at hlo
      exact hlo
    rw [← hb.bytes a ha']
    refine Pgdir.byte_congr (hg.old _ (by omega) (by omega)) (fun e he ↦ hg.draws.phys _ ?_)
    exact Pgdir.not_free hb.conserves hnd (Pgdir.holds_pos (by omega) he)
  · obtain ⟨p, hp, -, -, hzero⟩ := (hg.zeroed (hb.conserves.nodup hnd)).page _ (Nat.le_of_not_lt hlo) hpage
    have hsza : sz ≤ a := by
      have hround : sz ≤ pages sz * PGSIZE := by
        simp only [pages, PGSIZE]
        omega
      have hle' := (Nat.le_div_iff_mul_le (by decide)).mp (Nat.le_of_not_lt hlo)
      omega
    rw [Pgdir.byte_of_tr hp rfl, hb.imageByte_above hsza, hzero]

variable (hl : Linked data)
include hl

theorem allocuvm {newsz : ℕ} (hb : Built M data m₀ ip hs sz pgdir m) :
    Ensures (fun r ↦ Conserves (fun _ ↦ 0) m₀ r.2.1.holds r.2.2 ∧ (r.1 = 0 ∨
        Built M data m₀ ip hs r.1 r.2.1 r.2.2 ∧ newsz < KERNBASE ∧ newsz ≤ r.1 ∧
          (sz ≤ newsz → r.1 = newsz)))
      (fun _ ↦ False) (pgdir.allocuvm M sz newsz m) := by
  by_cases hbig : newsz ≥ KERNBASE
  · rw [Pgdir.allocuvm, if_pos hbig]
    exact ⟨hb.conserves, .inl rfl⟩
  have hlt := Nat.lt_of_not_le hbig
  by_cases hle : sz ≤ newsz
  swap
  · rw [Pgdir.allocuvm, if_neg hbig, if_pos (by omega)]
    exact ⟨hb.conserves, .inr ⟨hb, hlt, by omega, fun h ↦ absurd h hle⟩⟩
  have hunmapped := hb.toLoaded.unmapped hl hlt
  refine (((Pgdir.allocuvm_ensures hlt hb.free hunmapped hle).and
    Pgdir.conserves_allocuvm).weaken (fun _ h ↦ h.1)).mono ?_
  rintro ⟨r, pgdir', m'⟩ ⟨hr, hcons⟩
  refine ⟨hb.conserves.trans hcons, ?_⟩
  rcases hr with ⟨rfl, hg⟩ | ⟨rfl, -⟩
  · exact .inr ⟨hb.grown hnd hlt hle hg hcons, hlt, Nat.le_refl _, fun _ ↦ rfl⟩
  · exact .inl rfl

omit hl in
theorem loaduvm (hb : Built M data m₀ ip hs sz pgdir m) (ht : h.type = ELF_PROG_LOAD)
    (hend : h.vaddr + h.filesz ≤ sz) (halign : h.vaddr % PGSIZE = 0) :
    Ensures (fun r ↦ Conserves (fun _ ↦ 0) m₀ pgdir.holds r.2 ∧
        (r.1 = true → Built M data m₀ ip (hs ++ [h]) sz pgdir r.2))
      (fun _ ↦ False) (pgdir.loaduvm h.vaddr ip h.off h.filesz m) := by
  have hsz := hb.le
  have hv : h.vaddr = h.vaddr / PGSIZE * PGSIZE := by
    simp only [PGSIZE] at halign ⊢
    omega
  have hfuel : pages h.filesz - 0 < 2 ^ 20 + 1 := by
    have := pages_le (show h.filesz ≤ KERNBASE by omega)
    omega
  have hmap (u : ℕ) (_ : h.vaddr / PGSIZE ≤ u) (hu : u * PGSIZE < h.vaddr + h.filesz) :
      ∃ p, pgdir.tr u = some ⟨p, true, true⟩ := hb.mapped u (lt_pages.mpr (by omega))
  rw [Pgdir.loaduvm, if_neg (not_not.mpr halign), ← Nat.zero_mul PGSIZE]
  refine (loadLoop_loads (Pgdir.separate hb.conserves hnd) hv (by omega) hmap hfuel).mono ?_
  rintro ⟨loaded, m'⟩ ⟨hcons, hfree, hr⟩
  refine ⟨hb.conserves.trans hcons, fun hloaded ↦ ?_⟩
  obtain ⟨hfull, hbytes⟩ := hr hloaded
  refine ⟨hb.toLoaded.of_freelist hfree, hb.conserves.trans hcons, fun a ha ↦ ?_, ?_, ?_⟩
  · have hlt : a < KERNBASE := by
      have hle := pages_le hsz
      simp only [PGSIZE, KERNBASE] at ha ⊢
      omega
    rw [hbytes a hlt, Nat.zero_mul, Nat.add_zero, Inode.imageByte, covering_snoc]
    by_cases hc : h.vaddr ≤ a ∧ a < h.vaddr + h.filesz
    · rw [if_pos hc, if_pos ⟨ht, hc⟩]
    · rw [if_neg hc, if_neg (fun hcov ↦ hc hcov.2), hb.bytes a ha, Inode.imageByte]
  · intro h' hh ht'
    rcases List.mem_append.mp hh with hh | hh
    · exact hb.within h' hh ht'
    · obtain rfl := List.mem_singleton.mp hh
      exact hend
  · intro h' hh ht'
    rcases List.mem_append.mp hh with hh | hh
    · exact hb.complete h' hh ht'
    · obtain rfl := List.mem_singleton.mp hh
      exact fun k ↦ hfull k (Nat.zero_le k)

theorem loadSegments {n off : ℕ} (hb : Built M data m₀ ip hs sz pgdir m) :
    Ensures (fun r ↦ Conserves (fun _ ↦ 0) m₀ r.2.1.holds r.2.2 ∧ ∀ sz', r.1 = some sz' →
        Built M data m₀ ip (hs ++ ip.headers n off) sz' r.2.1 r.2.2)
      (fun _ ↦ False) (loadSegments M ip n off sz pgdir m) := by
  have hbad {pgdir' : Pgdir} {m' : Mem} {hs' : List Proghdr}
      (hcons : Conserves (fun _ ↦ 0) m₀ pgdir'.holds m') : Ensures
      (fun r ↦ Conserves (fun _ ↦ 0) m₀ r.2.1.holds r.2.2 ∧ ∀ sz', r.1 = some sz' →
        Built M data m₀ ip hs' sz' r.2.1 r.2.2) (fun _ ↦ False)
      (.ok (none, pgdir', m') : Except Panic (Option ℕ × Pgdir × Mem)) :=
    ⟨hcons, fun sz' hsz ↦ by cases hsz⟩
  induction n generalizing off sz pgdir m hs with
  | zero =>
    rw [Vm.loadSegments, Inode.headers, List.append_nil]
    refine ⟨hb.conserves, fun sz' hsz ↦ ?_⟩
    cases hsz
    exact hb
  | succ n ih =>
    rw [Vm.loadSegments, Inode.headers]
    dsimp only
    generalize hl' : ip.readi off sizeofProghdr = l
    have happend : hs ++ proghdr l :: ip.headers n ((off + sizeofProghdr) % 2 ^ 32) =
        hs ++ [proghdr l] ++ ip.headers n ((off + sizeofProghdr) % 2 ^ 32) := by simp
    rw [happend]
    split
    · exact hbad hb.conserves
    by_cases ht : (proghdr l).type ≠ ELF_PROG_LOAD
    · rw [if_pos ht]
      exact ih (hb.skip ht)
    rw [if_neg ht]
    split
    · exact hbad hb.conserves
    split
    · exact hbad hb.conserves
    rename_i hmemsz hwrap
    refine (hb.allocuvm hnd hl).bind ?_
    rintro ⟨sz₁, pgdir₁, m₁⟩ ⟨hcons, hr⟩
    dsimp only at hcons hr ⊢
    split
    · exact hbad hcons
    rename_i hsz₁
    obtain ⟨hb₁, hlt, hge, -⟩ := hr.resolve_left hsz₁
    split
    · exact hbad hcons
    rename_i halign
    refine (hb₁.loaduvm hnd (not_not.mp ht) ?_ (not_not.mp halign)).bind ?_
    · have hlt' : (proghdr l).memsz < 256 ^ 4 := field_lt l 20 4
      omega
    rintro ⟨loaded, m₂⟩ ⟨hcons₂, hr₂⟩
    dsimp only at hcons₂ hr₂ ⊢
    cases loaded with
    | false => exact hbad hcons₂
    | true => exact ih (hr₂ rfl)

omit hnd hl in
theorem round (hb : Built M data m₀ ip hs sz pgdir m) :
    Built M data m₀ ip hs (PGROUNDUP sz) pgdir m := by
  have hle : sz ≤ PGROUNDUP sz := by
    rw [PGROUNDUP_eq hb.le]
    simp only [pages, PGSIZE]
    omega
  refine ⟨hb.toLoaded.round, hb.conserves, fun a ha ↦ hb.bytes a ?_,
    fun h hh ht ↦ (hb.within h hh ht).trans hle, hb.complete⟩
  rwa [pages_PGROUNDUP hb.le] at ha

end Built

structure Image.Built (data : ℕ) (m₀ : Mem) (ip : Inode) (hs : List Proghdr) (img : Image)
    (m : Mem) : Prop where
  isImage : ∃ n, IsImage data n img
  conserves : Conserves (fun _ ↦ 0) m₀ img.pgdir.holds m
  bytes : ∀ a, a + 2 * PGSIZE < img.sz → img.pgdir.byte m a = some (ip.imageByte hs a)
  complete : ∀ h ∈ hs, h.type = ELF_PROG_LOAD → ip.Complete h

theorem clearpteu_holds {e : Pte} (hv : v < 2 ^ 19) (he : pgdir.tr v = some e) :
    Ensures (fun pgdir' ↦ pgdir'.holds = pgdir.holds) (fun _ ↦ True)
      (pgdir.clearpteu (v * PGSIZE)) := by
  have htable : pgdir.HasTable v := Pgdir.hasTable_of_tr (by rw [he]; simp)
  rw [Pgdir.clearpteu]
  cases hw : pgdir.walk (v * PGSIZE) with
  | none => trivial
  | some x =>
    rw [Pgdir.tr, hw] at he
    cases he
    funext q
    have hset := Pgdir.holds_setPte_user (q := q) (e := some { e with u := false }) hv htable
    rw [Pgdir.userPage, Pgdir.tr, hw] at hset
    exact Nat.add_right_cancel hset

theorem Built.stack {n : ℕ} (hb : Built M data m₀ ip hs sz pgdir m) (hsz : sz = n * PGSIZE)
    (h2 : 2 ≤ n) (hlt : n < 2 ^ 19) :
    Ensures (fun pgdir' ↦ ∀ entry, Image.Built data m₀ ip hs ⟨entry, sz, pgdir'⟩ m) (fun _ ↦ False)
      (pgdir.clearpteu (sub32 sz (2 * PGSIZE))) := by
  obtain ⟨hguard, hpages⟩ := guard_page hsz h2 hlt
  obtain ⟨p, hp⟩ := hb.mapped (n - 2) (by omega)
  have himage := hb.toLoaded.stack n hsz h2 hlt
  rw [hguard] at himage ⊢
  refine ((himage.and ((clearpteu_ensures (by omega) hp).and
    (clearpteu_holds (by omega) hp))).weaken (fun _ h ↦ h.1)).mono ?_
  rintro pgdir' ⟨⟨hi, -⟩, ⟨htr, -⟩, hholds⟩
  refine fun entry ↦ ⟨⟨n, hi entry⟩, hb.conserves.congr (fun q ↦ congrFun hholds q),
    fun a ha ↦ ?_, hb.complete⟩
  have hpage : a / PGSIZE < n - 2 := by
    simp only [hsz, PGSIZE] at ha ⊢
    omega
  rw [← hb.bytes a (by rw [hpages, ← hsz]; dsimp only at ha; omega)]
  refine Pgdir.byte_congr ?_ (fun _ _ ↦ rfl)
  rw [htr _ (by omega), if_neg (by omega)]

theorem loadImage_builds (hl : Linked data) (hfree : ∀ p ∈ m.freelist, Mem.Valid M p)
    (hnd : m.freelist.Nodup) :
    Ensures (fun r ↦ match r.1 with
        | some img => img.Built data m ip ip.programHeaders r.2
        | none => Conserves (fun _ ↦ 0) m (fun _ ↦ 0) r.2)
      (fun _ ↦ False) (loadImage M data ip m) := by
  have hbad {pgdir' : Pgdir} {m' : Mem} (hcons : Conserves (fun _ ↦ 0) m pgdir'.holds m') :
      Ensures (fun r ↦ match r.1 with
        | some img => img.Built data m ip ip.programHeaders r.2
        | none => Conserves (fun _ ↦ 0) m (fun _ ↦ 0) r.2)
      (fun _ ↦ False) (bad M pgdir' m' : Except Panic (Option Image × Mem)) :=
    (Pgdir.freevm_ensures (fun q hq ↦ hfree q (hcons.mem_of_held hq))).bind
      (fun m'' hm ↦ hcons.trans hm)
  rw [loadImage]
  dsimp only
  split
  · exact .refl
  split
  · exact .refl
  refine ((((Pgdir.setupkvm_conserves hfree hl).and (Pgdir.setupkvm_ensures hl))).weaken
    (fun _ h ↦ h.1)).bind ?_
  rintro ⟨r, m₁⟩ ⟨hcons, hkernel⟩
  cases r with
  | none => exact hcons
  | some pgdir₁ =>
    have hb : Built M data m ip [] 0 pgdir₁ m₁ := .nil (.of_kernel hfree hkernel) hcons
    refine (hb.loadSegments hnd hl).bind ?_
    rintro ⟨sz₁, pgdir₂, m₂⟩ ⟨hcons₂, hload⟩
    cases sz₁ with
    | none => exact hbad hcons₂
    | some sz₁ =>
      have hb₁ := hload sz₁ rfl
      rw [List.nil_append] at hb₁
      dsimp only at hb₁ ⊢
      refine (hb₁.round.allocuvm hnd hl).bind ?_
      rintro ⟨sz₂, pgdir₃, m₃⟩ ⟨hcons₃, hr⟩
      dsimp only at hcons₃ hr ⊢
      split
      · exact hbad hcons₃
      rename_i hsz₂
      obtain ⟨hb₂, hlt, -, hnew⟩ := hr.resolve_left hsz₂
      have hle := pages_le hb₁.le
      have hround : (pages sz₁ * PGSIZE + 2 * PGSIZE) % 2 ^ 32 = (pages sz₁ + 2) * PGSIZE := by
        simp only [PGSIZE]
        omega
      rw [PGROUNDUP_eq hb₁.le, hround] at hnew hlt
      have hsz := hnew (Nat.mul_le_mul_right _ (Nat.le_add_right _ 2))
      have hn : pages sz₁ + 2 < 2 ^ 19 := by
        simp only [PGSIZE, KERNBASE] at hlt
        omega
      refine (hb₂.stack hsz (by omega) hn).bind ?_
      exact fun pgdir₄ h₄ ↦ h₄ _

end Xv6Bfs.Vm

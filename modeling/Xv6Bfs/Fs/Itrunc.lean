import Xv6Bfs.Fs.Files

namespace Xv6Bfs.Fs

open Lib.Bytes Lib.Execution Lib.Ownership Disk State

variable {sb : Superblock} {s s₁ s₂ : State} {k : Fin NINODE} {b c i n p : ℕ} {P : List ℕ}

def keep (own : ℕ × ℕ → Option ℕ) (i : ℕ) (P : List ℕ) (x : ℕ × ℕ) : Option ℕ :=
  if x.1 = i ∧ x.2 ∈ P then none else own x

theorem bfree_eq (h : s.bit sb b = true) : s.bfree sb b = .ok (s.unmark sb b) := by
  unfold bfree
  rw [if_pos (by simpa [bit] using h)]
  rfl

structure Freed (sb : Superblock) (own : ℕ × ℕ → Option ℕ) (i : ℕ) (P : List ℕ) (s s₁ : State) : Prop where
  part : Partition (dataArea sb) (fun b ↦ s₁.bit sb b = false) (keep own i P)
  bits : ∀ b, b < sb.datastart → s₁.bit sb b = true
  cache : ∀ c, sb.datastart ≤ c → s₁.cache c = s.cache c
  dinode : ∀ j, j < sb.ninodes → s₁.dinode sb j = s.dinode sb j

namespace Freed

variable {own : ℕ × ℕ → Option ℕ}

theorem skip (h : Freed sb own i P s s₁) (hp : own (i, p) = none) : Freed sb own i (P ++ [p]) s s₁ := by
  refine ⟨Partition.congr h.part (fun _ _ ↦ Iff.rfl) (fun x ↦ ?_), h.bits, h.cache, h.dinode⟩
  unfold keep
  by_cases hx : x.1 = i ∧ x.2 = p
  · obtain ⟨rfl, rfl⟩ := hx
    simp [hp]
  · by_cases hP : x.1 = i ∧ x.2 ∈ P
    · simp [hP]
    · rw [if_neg hP, if_neg]
      simp only [List.mem_append, List.mem_singleton]
      tauto

theorem bfree (h : Freed sb own i P s s₁) (hp : own (i, p) = some b) (hP : p ∉ P) :
    s₁.bit sb b = true ∧ Freed sb own i (P ++ [p]) s (s₁.unmark sb b) := by
  have hown : keep own i P (i, p) = some b := by simp [keep, hP, hp]
  have harea := h.part.mem _ _ hown
  have hbit : s₁.bit sb b = true := by simpa using h.part.not_free hown
  refine ⟨hbit, ⟨?_, fun c hc ↦ ?_, fun c hc ↦ ?_, fun j hj ↦ ?_⟩⟩
  · refine h.part.take hown (fun c _ ↦ ?_) (by simp [keep]) (fun y hy ↦ ?_)
    · rw [unmark_bit]
      grind
    · unfold keep
      have hne : ¬ (y.1 = i ∧ y.2 = p) := fun he ↦ hy (Prod.ext he.1 he.2)
      simp only [List.mem_append, List.mem_singleton]
      by_cases hyP : y.1 = i ∧ y.2 ∈ P
      · simp [hyP]
      · rw [if_neg hyP, if_neg]
        tauto
  · have := harea.1
    rw [unmark_bit, h.bits c hc]
    simp
    omega
  · rw [unmark, cache_logWrite_bblock harea.2 hc, h.cache c hc]
  · rw [unmark, dinode_logWrite_bblock hj, h.dinode j hj]

end Freed

theorem placeOf_injective : Function.Injective placeOf := by
  have hmax : NDIRECT < MAXFILE := by decide
  intro i j h
  unfold placeOf at h
  have := i.isLt
  have := j.isLt
  split at h <;> split at h
  · simp_all
  · omega
  · omega
  · exact Fin.ext h

theorem placeOf_castSucc (i : Fin NDIRECT) : placeOf i.castSucc = i := by
  rw [placeOf, if_neg (Fin.castSucc_lt_last i).ne]
  rfl

structure Cleared (k : Fin NINODE) (l : List (Fin (NDIRECT + 1))) (s s₁ : State) : Prop where
  others : ∀ k', k' ≠ k → s₁.icache k' = s.icache k'
  self : s₁.icache k =
    { s.icache k with addrs := fun i ↦ if i ∈ l then 0 else (s.icache k).addrs i }

theorem Cleared.setAddr {l : List (Fin (NDIRECT + 1))} (h : Cleared k l s s₁) (i : Fin (NDIRECT + 1)) :
    Cleared k (l ++ [i]) s (s₁.setAddr k i 0) := by
  refine ⟨fun k' hk ↦ ?_, ?_⟩
  · rw [State.setAddr, setInode_icache_ne hk, h.others k' hk]
  · have haddrs : Function.update (fun j ↦ if j ∈ l then 0 else (s.icache k).addrs j) i 0 =
        fun j ↦ if j ∈ l ++ [i] then 0 else (s.icache k).addrs j := by
      funext j
      simp only [Function.update_apply, List.mem_append, List.mem_singleton]
      grind
    rw [State.setAddr, setInode_icache_self, h.self]
    simp only [haddrs]

theorem Cleared.skip {l : List (Fin (NDIRECT + 1))} (h : Cleared k l s s₁) {i : Fin (NDIRECT + 1)}
    (hi : (s.icache k).addrs i = 0) : Cleared k (l ++ [i]) s s₁ := by
  have haddrs : (fun j ↦ if j ∈ l then 0 else (s.icache k).addrs j) =
      fun j ↦ if j ∈ l ++ [i] then 0 else (s.icache k).addrs j := by
    funext j
    simp only [List.mem_append, List.mem_singleton]
    grind
  refine ⟨h.others, ?_⟩
  rw [h.self]
  simp only [haddrs]

theorem itrunc_direct (h : WellFormed sb s) (hr : 0 < (s.icache k).ref)
    (hv : (s.icache k).valid = true) {l : List (Fin (NDIRECT + 1))} (hl : l.Nodup) :
    Ensures (fun s₁ ↦ Freed sb (s.places sb k) (s.icache k).inum (l.map placeOf) s s₁ ∧ Cleared k l s s₁)
      (fun _ ↦ False)
      (exec (fun i s ↦
        if (s.icache k).addrs i ≠ 0 then do
          let s ← s.bfree sb ((s.icache k).addrs i)
          .ok (s.setAddr k i 0)
        else .ok s) l s) := by
  have hready := h.ready hr hv
  refine Ensures.exec_prefix (fun l₁ s₁ ↦
    Freed sb (s.places sb k) (s.icache k).inum (l₁.map placeOf) s s₁ ∧ Cleared k l₁ s s₁)
    (fun l₁ i l₂ he s₁ ⟨hfreed, hcleared⟩ ↦ ?_) ⟨⟨?_, h.bits, fun _ _ ↦ rfl, fun _ _ ↦ rfl⟩,
      fun _ _ ↦ rfl, by simp⟩
  · have hnew : i ∉ l₁ := by
      rw [he] at hl
      exact fun hm ↦ (List.nodup_append.mp hl).2.2 i hm i (by simp) rfl
    have haddr : (s₁.icache k).addrs i = (s.icache k).addrs i := by
      rw [hcleared.self]
      simp [hnew]
    have hplace := hready.places_eq (placeOf_le i)
    rw [addr_placeOf] at hplace
    rw [List.map_append, haddr]
    split
    · rename_i h0
      rw [if_neg h0] at hplace
      obtain ⟨hbit, hnext⟩ := hfreed.bfree hplace (by simpa [placeOf_injective.eq_iff] using hnew)
      rw [bfree_eq hbit, ok_bind]
      have hslots : Cleared k l₁ s (s₁.unmark sb ((s.icache k).addrs i)) :=
        ⟨hcleared.others, hcleared.self⟩
      exact ⟨⟨hnext.part, hnext.bits, hnext.cache, hnext.dinode⟩, hslots.setAddr i⟩
    · rename_i h0
      rw [not_not] at h0
      rw [if_pos h0] at hplace
      exact ⟨hfreed.skip hplace, hcleared.skip h0⟩
  · exact Partition.congr hready.owned (fun _ _ ↦ Iff.rfl) (fun x ↦ by simp [keep, places])

theorem itrunc_entries {own : ℕ × ℕ → Option ℕ} {ind : ℕ} {l : List ℕ}
    (h : Freed sb own i P s s₁) (hind : sb.datastart ≤ ind) (hl : l.Nodup)
    (hown : ∀ j ∈ l, own (i, NDIRECT + j) =
      if word (s.cache ind) j = 0 then none else some (word (s.cache ind) j))
    (hP : ∀ j ∈ l, NDIRECT + j ∉ P) :
    Ensures (fun s₂ ↦ Freed sb own i (P ++ l.map (NDIRECT + ·)) s s₂ ∧ s₂.icache = s₁.icache)
      (fun _ ↦ False)
      (exec (fun j s ↦
        if word (s.cache ind) j ≠ 0 then s.bfree sb (word (s.cache ind) j) else .ok s) l s₁) := by
  refine Ensures.exec_prefix (fun l₁ s₂ ↦
    Freed sb own i (P ++ l₁.map (NDIRECT + ·)) s s₂ ∧ s₂.icache = s₁.icache)
    (fun l₁ j l₂ he s₂ ⟨hfreed, hicache⟩ ↦ ?_) ⟨by simpa using h, rfl⟩
  have hj : j ∈ l := by simp [he]
  have hnew : j ∉ l₁ := by
    rw [he] at hl
    exact fun hm ↦ (List.nodup_append.mp hl).2.2 j hm j (by simp) rfl
  have hplace := hown j hj
  rw [List.map_append, ← List.append_assoc, hfreed.cache ind hind]
  split
  · rename_i h0
    rw [if_neg h0] at hplace
    obtain ⟨hbit, hnext⟩ := hfreed.bfree hplace (by simpa [hP j hj] using hnew)
    rw [bfree_eq hbit]
    exact ⟨hnext, hicache⟩
  · rename_i h0
    rw [not_not] at h0
    rw [if_pos h0] at hplace
    exact ⟨hfreed.skip hplace, hicache⟩

structure Truncated (sb : Superblock) (k : Fin NINODE) (size : ℕ) (s s' : State) : Prop where
  part : Partition (dataArea sb) (fun b ↦ s'.bit sb b = false)
    fun x ↦ if x.1 = (s.icache k).inum then none else s.places sb k x
  bits : ∀ b, b < sb.datastart → s'.bit sb b = true
  cache : ∀ c, sb.datastart ≤ c → s'.cache c = s.cache c
  dinode : ∀ j, j < sb.ninodes → j ≠ (s.icache k).inum → s'.dinode sb j = s.dinode sb j
  others : ∀ k', k' ≠ k → s'.icache k' = s.icache k'
  self : s'.icache k = { s.icache k with size := size, addrs := fun _ ↦ 0 }

theorem Freed.truncated (hfreed : Freed sb (s.places sb k) (s.icache k).inum P s s₁)
    (hP : ∀ p, s.places sb k ((s.icache k).inum, p) ≠ none → p ∈ P)
    {l : List (Fin (NDIRECT + 1))} (hcleared : Cleared k l s s₁)
    (hl : ∀ i, (s.icache k).addrs i ≠ 0 → i ∈ l) : Truncated sb k (s.icache k).size s s₁ := by
  refine ⟨Partition.congr hfreed.part (fun _ _ ↦ Iff.rfl) (fun x ↦ ?_), hfreed.bits, hfreed.cache,
    fun j hj _ ↦ hfreed.dinode j hj, hcleared.others, ?_⟩
  · unfold keep
    rcases eq_or_ne x.1 (s.icache k).inum with hx | hx
    · have := hP x.2
      rw [← hx] at this
      simp only [hx, true_and, if_true]
      split
      · rfl
      · by_contra hne
        exact absurd (this fun h ↦ hne h.symm) ‹_›
    · simp [hx]
  · have haddrs : (fun i ↦ if i ∈ l then 0 else (s.icache k).addrs i) = fun _ ↦ 0 := by
      funext i
      have := hl i
      grind
    rw [hcleared.self]
    simp only [haddrs]

theorem le_of_places_ne_none (hp : s.places sb k (i, p) ≠ none) : p ≤ MAXFILE := by
  obtain ⟨c, hc⟩ := Option.ne_none_iff_exists'.mp hp
  exact (own_eq_some.mp hc).2.2.1

theorem Truncated.iupdate (h : Truncated sb k n s s₁) (hi : (s.icache k).inum < sb.ninodes)
    (hfits : (s.icache k).toDinode.Fits) :
    Truncated sb k 0 s ((s₁.setInode k { s₁.icache k with size := 0 }).iupdate sb k) ∧
      ((s₁.setInode k { s₁.icache k with size := 0 }).iupdate sb k).dinode sb (s.icache k).inum =
        { (s.icache k).toDinode with size := 0, addrs := fun _ ↦ 0 } := by
  have hinum : (s₁.icache k).inum = (s.icache k).inum := by rw [h.self]
  rw [iupdate_setInode]
  simp only [hinum]
  refine ⟨⟨Partition.congr h.part (fun b _ ↦ by rw [bit_putDinode hi, setInode_bit]) (fun _ ↦ rfl),
    fun b hb ↦ ?_, fun c hc ↦ ?_, fun j hj hne ↦ ?_, fun k' hk ↦ ?_, ?_⟩, ?_⟩
  · rw [bit_putDinode hi, setInode_bit, h.bits b hb]
  · rw [cache_putDinode hi hc, setInode_cache, h.cache c hc]
  · rw [dinode_putDinode_ne hne.symm, setInode_dinode, h.dinode j hj hne]
  · rw [putDinode_icache, setInode_icache_ne hk, h.others k' hk]
  · rw [putDinode_icache, setInode_icache_self, h.self]
  · rw [h.self]
    exact dinode_putDinode_self
      ⟨hfits.type, hfits.major, hfits.minor, hfits.nlink, Nat.two_pow_pos 32,
        fun _ ↦ Nat.two_pow_pos 32⟩

theorem itrunc_ensures (h : WellFormed sb s) (hr : 0 < (s.icache k).ref)
    (hv : (s.icache k).valid = true) :
    Ensures (fun s' ↦ Truncated sb k 0 s s' ∧ s'.dinode sb (s.icache k).inum =
      { (s.icache k).toDinode with size := 0, addrs := fun _ ↦ 0 }) (fun _ ↦ False)
      (s.itrunc sb k) := by
  have hmax : MAXFILE = NDIRECT + NINDIRECT := rfl
  have hready := h.ready hr hv
  have hinum := h.inum k hr
  have hfits : (s.icache k).toDinode.Fits := (h.cached k hr hv).1 ▸ dinode_fits
  have hnodup : ((List.finRange NDIRECT).map Fin.castSucc).Nodup :=
    (List.nodup_finRange _).map (Fin.castSucc_injective _)
  have hdirect : ((List.finRange NDIRECT).map Fin.castSucc).map placeOf = List.range NDIRECT := by
    rw [List.map_map, ← List.map_coe_finRange_eq_range]
    exact List.map_congr_left fun i _ ↦ placeOf_castSucc i
  have hmem : ∀ i : Fin (NDIRECT + 1), i ≠ Fin.last NDIRECT →
      i ∈ (List.finRange NDIRECT).map Fin.castSucc := fun i hi ↦
    List.mem_map.mpr ⟨i.castLT (Fin.val_lt_last hi), by simp, by simp⟩
  refine Ensures.bind (itrunc_direct h hr hv hnodup) (fun s₁ ⟨hfreed, hcleared⟩ ↦ ?_)
  rw [hdirect] at hfreed
  have hlast : (s₁.icache k).addrs (Fin.last NDIRECT) = (s.icache k).addrs (Fin.last NDIRECT) := by
    rw [hcleared.self]
    simp [Fin.castSucc_ne_last]
  have hplace := hready.places_eq le_rfl
  rw [addr_last] at hplace
  simp only [hlast]
  split
  · rename_i h0
    rw [if_neg h0] at hplace
    have hentries := fun j (hj : j < NINDIRECT) ↦ (hready.places_indirect _ hplace hj).2.2
    refine Ensures.bind (itrunc_entries hfreed (hready.owned.mem _ _ hplace).1 List.nodup_range
      (fun j hj ↦ hentries j (List.mem_range.mp hj)) (by simp)) (fun s₂ ⟨hfreed₂, hicache⟩ ↦ ?_)
    obtain ⟨hbit, hfreed₃⟩ := hfreed₂.bfree hplace (by simp [hmax])
    rw [bfree_eq hbit, ok_bind, ok_bind]
    have hslots : Cleared k ((List.finRange NDIRECT).map Fin.castSucc) s
        (s₂.unmark sb ((s.icache k).addrs (Fin.last NDIRECT))) :=
      ⟨fun k' hk ↦ (congrFun hicache k').trans (hcleared.others k' hk),
        (congrFun hicache k).trans hcleared.self⟩
    refine Truncated.iupdate (Freed.truncated
      ⟨hfreed₃.part, hfreed₃.bits, hfreed₃.cache, hfreed₃.dinode⟩ (fun p hp ↦ ?_)
      (hslots.setAddr (Fin.last NDIRECT)) (fun i _ ↦ ?_)) hinum hfits
    · have := le_of_places_ne_none hp
      simp only [List.mem_append, List.mem_range, List.mem_map, List.mem_singleton]
      by_cases hdir : p < NDIRECT
      · exact .inl (.inl hdir)
      · by_cases hlt : p < MAXFILE
        · exact .inl (.inr ⟨p - NDIRECT, by omega, by omega⟩)
        · exact .inr (by omega)
    · rcases eq_or_ne i (Fin.last NDIRECT) with rfl | hi
      · simp
      · exact List.mem_append_left _ (hmem i hi)
  · rename_i h0
    rw [not_not] at h0
    refine Truncated.iupdate (hfreed.truncated (fun p hp ↦ ?_) hcleared
      (fun i hi ↦ hmem i fun he ↦ hi (he ▸ h0))) hinum hfits
    by_contra hdir
    rw [List.mem_range] at hdir
    have hle := le_of_places_ne_none hp
    refine hp ?_
    rw [hready.places_eq hle, if_pos]
    simp [addr, hdir, h0]

theorem WellFormed.itrunc (h : WellFormed sb s) (hr : 0 < (s.icache k).ref)
    (hv : (s.icache k).valid = true) :
    Ensures (fun s' ↦ WellFormed sb s' ∧ (∀ k', k' ≠ k → s'.icache k' = s.icache k') ∧
      s'.icache k = { s.icache k with size := 0, addrs := fun _ ↦ 0 } ∧
      ∀ j, j < sb.ninodes → j ≠ (s.icache k).inum → s'.dinode sb j = s.dinode sb j)
      (fun _ ↦ False) (s.itrunc sb k) := by
  refine (itrunc_ensures h hr hv).mono (fun s' ⟨ht, hsame⟩ ↦ ⟨?_, ht.others, ht.self, ht.dinode⟩)
  have hmem := h.mem_eq hr hv
  have hown : ∀ x, own sb s'.cache (s'.dinode sb) x =
      if x.1 = (s.icache k).inum then none else own sb s.cache (s.dinode sb) x := by
    intro x
    split
    · rename_i hx
      unfold own
      rw [if_neg]
      rintro ⟨-, -, -, ha⟩
      rw [hx, hsame] at ha
      exact ha (addr_eq_zero (fun _ ↦ rfl) _)
    · rename_i hx
      by_cases hlt : x.1 < sb.ninodes
      · rw [← show own sb s'.cache (s'.dinode sb) (x.1, x.2) = own sb s.cache (s.dinode sb) (x.1, x.2) from
          own_congr (by rw [ht.dinode _ hlt hx]) (fun _ htype _ ↦ ?_)]
        rw [ht.dinode _ hlt hx]
        refine addr_congr (fun _ ↦ rfl) rfl (fun hl ↦ ht.cache _ ?_)
        exact (h.owned.mem _ _ (own_last hlt htype hl)).1
      · simp [own, hlt]
  refine h.change rfl hr ?_ ht.bits (fun j p hne ↦ by rw [hown, if_neg hne]) ht.dinode (fun _ ↦ ?_)
    ht.others (by rw [ht.self]) (fun _ _ ↦ ⟨by rw [hsame, ht.self], ?_⟩)
  · refine Partition.congr ht.part (fun _ _ ↦ Iff.rfl) (fun x ↦ ?_)
    rw [hown, places, hmem]
  · rw [hsame]
    exact .empty fun p ↦ by simp [hown]
  · rw [ht.self]
    exact (h.cached k hr hv).2

end Xv6Bfs.Fs

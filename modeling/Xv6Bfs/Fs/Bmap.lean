import Xv6Bfs.Fs.Blocks
import Mathlib.Order.Interval.Finset.Nat

namespace Xv6Bfs.Fs

open Lib.Bytes Lib.Execution Lib.Ownership Disk

namespace State

variable (sb : Superblock)

def mem (s : State) (k : Fin NINODE) : ℕ → Dinode :=
  Function.update (s.dinode sb) (s.icache k).inum (s.icache k).toDinode

def places (s : State) (k : Fin NINODE) : ℕ × ℕ → Option ℕ := own sb s.cache (s.mem sb k)

def freeBlocks (s : State) : ℕ :=
  ((Finset.Ico sb.datastart sb.size).filter fun b ↦ s.bit sb b = false).card

/-- The blocks are owned by the inodes, with the one in slot `k` as it is in memory. -/
structure Ready (k : Fin NINODE) (s : State) : Prop where
  inum : (s.icache k).inum < sb.ninodes
  type : (s.icache k).type ≠ 0
  owned : Owned sb (s.bit sb) s.cache (s.mem sb k)
  bits : ∀ c, c < sb.datastart → s.bit sb c = true

/-- Only the contents and the blocks of the inode in slot `k` may be other ones, and blocks may
have been added to it. -/
structure Extends (k : Fin NINODE) (s s' : State) : Prop where
  others : ∀ k', k' ≠ k → s'.icache k' = s.icache k'
  self : ∃ addrs, s'.icache k = { s.icache k with addrs := addrs }
  dinode : ∀ i, i < sb.ninodes → s'.dinode sb i = s.dinode sb i
  kept : ∀ x c, s.places sb k x = some c → s'.places sb k x = some c
  foreign : ∀ x, x.1 ≠ (s.icache k).inum → s'.places sb k x = s.places sb k x

structure Grows (k : Fin NINODE) (s s' : State) : Prop extends Extends sb k s s' where
  data : ∀ x c, s.places sb k x = some c → x.2 ≠ MAXFILE → s'.cache c = s.cache c

variable {sb} {s s₁ s' : State} {k : Fin NINODE} {b c i p : ℕ}

theorem Extends.inum (h : Extends sb k s s') : (s'.icache k).inum = (s.icache k).inum := by
  obtain ⟨addrs, he⟩ := h.self
  rw [he]

theorem Extends.trans {s'' : State} (h : Extends sb k s s') (h' : Extends sb k s' s'') :
    Extends sb k s s'' := by
  obtain ⟨a, ha⟩ := h.self
  obtain ⟨a', ha'⟩ := h'.self
  exact ⟨fun k' hk ↦ (h'.others k' hk).trans (h.others k' hk), ⟨a', by rw [ha', ha]⟩,
    fun i hi ↦ (h'.dinode i hi).trans (h.dinode i hi), fun x c hx ↦ h'.kept x c (h.kept x c hx),
    fun x hx ↦ (h'.foreign x (by rwa [h.inum])).trans (h.foreign x hx)⟩

theorem Grows.refl : Grows sb k s s :=
  ⟨⟨fun _ _ ↦ rfl, ⟨_, rfl⟩, fun _ _ ↦ rfl, fun _ _ h ↦ h, fun _ _ ↦ rfl⟩, fun _ _ _ _ ↦ rfl⟩

theorem Grows.trans {s'' : State} (h : Grows sb k s s') (h' : Grows sb k s' s'') :
    Grows sb k s s'' :=
  ⟨h.toExtends.trans h'.toExtends,
    fun x c hx hne ↦ (h'.data x c (h.kept x c hx) hne).trans (h.data x c hx hne)⟩

theorem freeBlocks_allocs (h : Allocs sb (s.bit sb) (s'.bit sb) s.cache s₁.cache b) :
    s'.freeBlocks sb + 1 = s.freeBlocks sb := by
  have hmem : b ∈ (Finset.Ico sb.datastart sb.size).filter fun b ↦ s.bit sb b = false := by
    simp only [Finset.mem_filter, Finset.mem_Ico]
    exact ⟨h.area, h.free⟩
  have herase : (Finset.Ico sb.datastart sb.size).filter (fun b ↦ s'.bit sb b = false) =
      ((Finset.Ico sb.datastart sb.size).filter fun b ↦ s.bit sb b = false).erase b := by
    ext c
    simp only [Finset.mem_filter, Finset.mem_Ico, Finset.mem_erase]
    have := h.bit c
    grind
  unfold freeBlocks
  rw [herase, Finset.card_erase_add_one hmem]

theorem freeBlocks_eq_zero (h : ∀ c, c < sb.size → s.bit sb c = true) : s.freeBlocks sb = 0 := by
  simp only [freeBlocks, Finset.card_eq_zero, Finset.filter_eq_empty_iff, Finset.mem_Ico]
  intro c hc
  simp [h c hc.2]

structure Placed (sb : Superblock) (k : Fin NINODE) (p : ℕ) (s : State) (b : ℕ) (s' : State) : Prop where
  ready : Ready sb k s'
  places : s'.places sb k = Function.update (s.places sb k) ((s.icache k).inum, p) (some b)
  grows : Grows sb k s s'
  free : s'.freeBlocks sb + 1 = s.freeBlocks sb

theorem Ready.placed (h : Ready sb k s)
    (ha : Allocs sb (s.bit sb) (s₁.bit sb) s.cache s₁.cache b)
    (hdinode : ∀ i, i < sb.ninodes → s₁.dinode sb i = s.dinode sb i)
    (hicache : s₁.icache = s.icache)
    (hnone : s.places sb k ((s.icache k).inum, p) = none)
    (hplaces : s'.places sb k = Function.update (s.places sb k) ((s.icache k).inum, p) (some b))
    (hbit : ∀ c, c < sb.size → s'.bit sb c = s₁.bit sb c)
    (hdinode' : ∀ i, i < sb.ninodes → s'.dinode sb i = s₁.dinode sb i)
    (hothers : ∀ k', k' ≠ k → s'.icache k' = s₁.icache k')
    (hself : ∃ addrs, s'.icache k = { s₁.icache k with addrs := addrs })
    (hdata : ∀ x c, s.places sb k x = some c → x.2 ≠ MAXFILE → s'.cache c = s₁.cache c) :
    Placed sb k p s b s' := by
  have ha' : Allocs sb (s.bit sb) (s'.bit sb) s.cache s₁.cache b :=
    { ha with bit := fun c hc ↦ (hbit c hc).trans (ha.bit c hc) }
  obtain ⟨addrs, hself⟩ := hself
  rw [hicache] at hself
  have hinum : (s'.icache k).inum = (s.icache k).inum := by rw [hself]
  refine ⟨⟨by rw [hinum]; exact h.inum, by rw [hself]; exact h.type, h.owned.give ha' hnone hplaces,
    fun c hc ↦ ?_⟩, hplaces, ⟨⟨fun k' hk ↦ by rw [hothers k' hk, hicache], ⟨addrs, hself⟩,
      fun i hi ↦ (hdinode' i hi).trans (hdinode i hi), fun x c hx ↦ ?_, fun x hx ↦ ?_⟩,
      fun x c hx hne ↦ ?_⟩, freeBlocks_allocs ha'⟩
  · have := sb.bmap_lt
    rw [ha'.bit c (by unfold Superblock.datastart at hc; omega), h.bits c hc, Bool.or_true]
  · rw [hplaces, Function.update_of_ne, hx]
    rintro rfl
    rw [hnone] at hx
    cases hx
  · rw [hplaces, Function.update_of_ne]
    rintro rfl
    exact hx rfl
  · rw [hdata x c hx hne, h.owned.allocs_data ha hx]

theorem Ready.places_eq (h : Ready sb k s) (hp : p ≤ MAXFILE) :
    s.places sb k ((s.icache k).inum, p) =
      if addr s.cache (s.icache k).toDinode p = 0 then none
      else some (addr s.cache (s.icache k).toDinode p) := by
  have hinum := h.inum
  have htype := h.type
  simp [places, own, mem, hinum, htype, hp]

theorem ballocAddr_ensures (h : Ready sb k s) {i : Fin (NDIRECT + 1)}
    (h0 : (s.icache k).addrs i = 0) :
    Ensures (fun r ↦ Placed sb k (placeOf i) s r.1 r.2)
      (fun e ↦ e = .ballocOutOfBlocks ∧ s.freeBlocks sb = 0) (s.ballocAddr sb k i) := by
  refine Ensures.bind ((balloc_ensures h.bits).weaken fun e he ↦ ⟨he.1, freeBlocks_eq_zero he.2⟩)
    (fun ⟨b, s₁⟩ ⟨ha, hdinode, hicache⟩ ↦ ?_)
  simp only at ha hdinode hicache
  refine h.placed ha hdinode hicache ?_ ?_ (fun _ _ ↦ rfl) (fun _ _ ↦ rfl)
    (fun k' hk ↦ setInode_icache_ne hk) ⟨_, setInode_icache_self⟩ (fun _ _ _ _ ↦ rfl)
  · rw [h.places_eq (placeOf_le i), addr_placeOf, if_pos h0]
  · have hino : ∀ j, j < sb.ninodes → (s₁.setAddr k i b).mem sb k j =
        Function.update (s.mem sb k) (s.icache k).inum { (s.mem sb k (s.icache k).inum) with
          addrs := Function.update (s.mem sb k (s.icache k).inum).addrs i b } j := by
      intro j hj
      rcases eq_or_ne j (s.icache k).inum with rfl | hne
      · simp [mem, setAddr, hicache]
      · simp [mem, setAddr, hicache, hne, hdinode j hj]
    rw [places, own_ino hino]
    exact own_addr h.owned ha h.inum (by simpa [mem] using h.type) (by simpa [mem] using h0)

theorem ballocEntry_ensures (h : Ready sb k s) {ind bn : ℕ}
    (hind : (s.icache k).addrs (Fin.last NDIRECT) = ind) (hne : ind ≠ 0) (hbn : bn < NINDIRECT)
    (h0 : word (s.cache ind) bn = 0) :
    Ensures (fun r ↦ Placed sb k (NDIRECT + bn) s r.1 r.2)
      (fun e ↦ e = .ballocOutOfBlocks ∧ s.freeBlocks sb = 0) (s.ballocEntry sb ind bn) := by
  have hmax : MAXFILE = NDIRECT + NINDIRECT := rfl
  have hself : s.mem sb k (s.icache k).inum = (s.icache k).toDinode := by simp [mem]
  have hlast : s.places sb k ((s.icache k).inum, MAXFILE) = some ind := by
    rw [h.places_eq le_rfl, addr_last, hind, if_neg hne]
  have harea := h.owned.mem _ _ hlast
  refine Ensures.bind ((balloc_ensures h.bits).weaken fun e he ↦ ⟨he.1, freeBlocks_eq_zero he.2⟩)
    (fun ⟨b, s₁⟩ ⟨ha, hdinode, hicache⟩ ↦ ?_)
  simp only at ha hdinode hicache
  refine h.placed ha hdinode hicache ?_ ?_ (fun c hc ↦ bit_logWrite_data harea.1 hc)
    (fun i hi ↦ dinode_logWrite_data harea.1 hi) (fun _ _ ↦ rfl) ⟨_, rfl⟩ (fun x c hx hp ↦ ?_)
  · rw [h.places_eq (by omega), addr_entry hbn (hind ▸ hne), hind, if_pos h0]
  · have hino : ∀ j, j < sb.ninodes →
        (s₁.logWrite ind (setWord (s₁.cache ind) bn b)).mem sb k j = s.mem sb k j := by
      intro j hj
      rcases eq_or_ne j (s.icache k).inum with rfl | hj'
      · simp [mem, hicache]
      · simp [mem, hicache, hj', dinode_logWrite_data harea.1 hj, hdinode j hj]
    rw [places, own_ino hino]
    exact own_entry h.owned ha h.inum (by rw [hself]; exact h.type) (by rw [hself]; exact hind) hne hbn
  · -- the indirect block has another place
    rw [logWrite_cache, if_neg]
    rintro rfl
    exact hp (congrArg Prod.snd (h.owned.inj _ _ _ hx hlast))

def blocksFor (n : ℕ) : ℕ := if NDIRECT < n then n + 1 else n

/-- What `bmap` has done when it returns the block `b` for the block `bn` of an inode that had
`n` blocks. -/
structure Mapped (sb : Superblock) (k : Fin NINODE) (n bn : ℕ) (s : State) (b : ℕ) (s' : State) : Prop where
  ready : Ready sb k s'
  noHoles : NoHoles (s'.places sb k) (s.icache k).inum (max n (bn + 1))
  block : s'.places sb k ((s.icache k).inum, bn) = some b
  grows : Grows sb k s s'
  free : s'.freeBlocks sb + blocksFor (max n (bn + 1)) = s.freeBlocks sb + blocksFor n

section

variable {n bn : ℕ}

theorem Ready.mapped (h : Ready sb k s) (hn : NoHoles (s.places sb k) (s.icache k).inum n)
    (hbn : bn < n) (hb : s.places sb k ((s.icache k).inum, bn) = some b) : Mapped sb k n bn s b s := by
  have hmax : max n (bn + 1) = n := by omega
  exact ⟨h, by rwa [hmax], hb, .refl, by rw [hmax]⟩

theorem Placed.mapped (hn : NoHoles (s.places sb k) (s.icache k).inum n) (hne : n ≠ NDIRECT)
    (hlt : n < MAXFILE) (h : Placed sb k n s b s') : Mapped sb k n n s b s' := by
  have hmax : max n (n + 1) = n + 1 := by omega
  refine ⟨h.ready, ?_, by rw [h.places]; simp, h.grows, ?_⟩
  · rw [hmax, h.places]
    exact hn.next hne hlt
  · have := h.free
    rw [hmax]
    unfold blocksFor
    split <;> split <;> omega

theorem Placed.mapped_indirect (hn : NoHoles (s.places sb k) (s.icache k).inum NDIRECT)
    (h₁ : Placed sb k MAXFILE s c s₁) (h : Placed sb k NDIRECT s₁ b s') :
    Mapped sb k NDIRECT NDIRECT s b s' := by
  have hmax : max NDIRECT (NDIRECT + 1) = NDIRECT + 1 := by decide
  have hinum := h₁.grows.inum
  refine ⟨h.ready, ?_, by rw [h.places, hinum]; simp, h₁.grows.trans h.grows, ?_⟩
  · rw [hmax, h.places, h₁.places, hinum]
    exact hn.indirect_next
  · have := h.free
    have := h₁.free
    rw [hmax]
    simp [blocksFor]
    omega

theorem Ready.places_indirect (h : Ready sb k s) {ind : ℕ} (j : ℕ)
    (hind : s.places sb k ((s.icache k).inum, MAXFILE) = some ind) (hj : j < NINDIRECT) :
    (s.icache k).addrs (Fin.last NDIRECT) = ind ∧ ind ≠ 0 ∧
      s.places sb k ((s.icache k).inum, NDIRECT + j) =
        if word (s.cache ind) j = 0 then none else some (word (s.cache ind) j) := by
  have hmax : MAXFILE = NDIRECT + NINDIRECT := rfl
  rw [h.places_eq le_rfl, addr_last] at hind
  split at hind
  · cases hind
  · rename_i hne
    obtain rfl : (s.icache k).addrs (Fin.last NDIRECT) = ind := by simpa using hind
    exact ⟨rfl, hne, by rw [h.places_eq (by omega), addr_entry hj hne]⟩

theorem Ready.bmap_eq (h : Ready sb k s) (hlt : bn < MAXFILE)
    (hb : s.places sb k ((s.icache k).inum, bn) = some b) : s.bmap sb k bn = .ok (b, s) := by
  have hmax : MAXFILE = NDIRECT + NINDIRECT := rfl
  rw [h.places_eq hlt.le] at hb
  split at hb
  · cases hb
  rename_i h0
  obtain rfl : addr s.cache (s.icache k).toDinode bn = b := by simpa using hb
  unfold bmap
  unfold addr at h0 ⊢
  split
  · rename_i hdirect
    rw [dif_pos hdirect] at h0
    simp [h0]
  · rename_i hdirect
    rw [dif_neg hdirect, if_pos hlt] at h0
    split at h0
    · exact absurd rfl h0
    · rename_i hlast
      simp [hlast, h0, show bn - NDIRECT < NINDIRECT by omega]

theorem bmap_direct (h : Ready sb k s) (hn : NoHoles (s.places sb k) (s.icache k).inum n)
    (hlt : n < NDIRECT) :
    Ensures (fun r ↦ Mapped sb k n n s r.1 r.2)
      (fun e ↦ e = .ballocOutOfBlocks ∧ s.freeBlocks sb + blocksFor n < blocksFor (n + 1))
      (s.bmap sb k n) := by
  have hmax : MAXFILE = NDIRECT + NINDIRECT := rfl
  have hnone : s.places sb k ((s.icache k).inum, n) = none := by
    by_contra hsome
    exact absurd ((hn.block n (by omega)).mp hsome) (lt_irrefl _)
  have haddr : addr s.cache (s.icache k).toDinode n = (s.icache k).addrs ⟨n, by omega⟩ := by
    simp [addr, hlt]
  rw [h.places_eq (by omega), haddr] at hnone
  have h0 : (s.icache k).addrs ⟨n, by omega⟩ = 0 := by
    by_contra hne
    rw [if_neg hne] at hnone
    cases hnone
  rw [bmap, dif_pos hlt]
  simp only [if_pos h0]
  refine ((ballocAddr_ensures h h0).mono fun r hr ↦ ?_).weaken fun e he ↦ ⟨he.1, ?_⟩
  · rw [placeOf, if_neg (last_ne hlt).symm] at hr
    exact Placed.mapped hn (by omega) (by omega) hr
  · rw [he.2]
    unfold blocksFor
    split <;> split <;> omega

theorem bmap_indirect (h : Ready sb k s) (hn : NoHoles (s.places sb k) (s.icache k).inum NDIRECT) :
    Ensures (fun r ↦ Mapped sb k NDIRECT NDIRECT s r.1 r.2)
      (fun e ↦ e = .ballocOutOfBlocks ∧
        s.freeBlocks sb + blocksFor NDIRECT < blocksFor (NDIRECT + 1)) (s.bmap sb k NDIRECT) := by
  have hblocks : blocksFor (NDIRECT + 1) = blocksFor NDIRECT + 2 := by decide
  have hlt : NDIRECT < MAXFILE := by decide
  have hlast : s.places sb k ((s.icache k).inum, MAXFILE) = none := by
    by_contra hsome
    exact absurd (hn.indirect.mp hsome) (lt_irrefl _)
  have hnone : s.places sb k ((s.icache k).inum, NDIRECT) = none := by
    by_contra hsome
    exact absurd ((hn.block NDIRECT hlt).mp hsome) (lt_irrefl _)
  have h0 : (s.icache k).addrs (Fin.last NDIRECT) = 0 := by
    rw [h.places_eq le_rfl, addr_last] at hlast
    by_contra hne
    rw [if_neg hne] at hlast
    cases hlast
  rw [bmap, dif_neg (lt_irrefl _)]
  simp only [Nat.sub_self, if_pos (show 0 < NINDIRECT by decide), if_pos h0]
  refine Ensures.bind ((ballocAddr_ensures h h0).weaken fun e he ↦ ⟨he.1, by omega⟩)
    (fun ⟨c, s₁⟩ h₁ ↦ ?_)
  rw [placeOf, if_pos rfl] at h₁
  simp only at h₁ ⊢
  have hinum := h₁.grows.inum
  obtain ⟨hc, hne, hentry⟩ := h₁.ready.places_indirect 0
    (show _ = some c by rw [h₁.places, hinum]; simp) (by decide)
  have hzero : word (s₁.cache c) 0 = 0 := by
    rw [Nat.add_zero, h₁.places, hinum, Function.update_of_ne (by simpa using hlt.ne), hnone] at hentry
    by_contra hno
    rw [if_neg hno] at hentry
    cases hentry
  rw [if_pos hzero]
  refine ((ballocEntry_ensures h₁.ready hc hne (by decide) hzero).mono fun r hr ↦ ?_).weaken
    fun e he ↦ ⟨he.1, ?_⟩
  · exact Placed.mapped_indirect hn h₁ hr
  · have := h₁.free
    omega

theorem bmap_entry (h : Ready sb k s) (hn : NoHoles (s.places sb k) (s.icache k).inum n)
    (hlt : NDIRECT < n) (hmax : n < MAXFILE) :
    Ensures (fun r ↦ Mapped sb k n n s r.1 r.2)
      (fun e ↦ e = .ballocOutOfBlocks ∧ s.freeBlocks sb + blocksFor n < blocksFor (n + 1))
      (s.bmap sb k n) := by
  obtain ⟨j, rfl⟩ : ∃ j, n = NDIRECT + j := ⟨n - NDIRECT, by omega⟩
  have hj : j < NINDIRECT := by
    have : MAXFILE = NDIRECT + NINDIRECT := rfl
    omega
  have hnone : s.places sb k ((s.icache k).inum, NDIRECT + j) = none := by
    by_contra hsome
    exact absurd ((hn.block _ hmax).mp hsome) (lt_irrefl _)
  obtain ⟨ind, hlast⟩ := Option.ne_none_iff_exists'.mp (hn.indirect.mpr hlt)
  obtain ⟨hc, hne, hentry⟩ := h.places_indirect j hlast hj
  have hzero : word (s.cache ind) j = 0 := by
    by_contra hno
    rw [hnone, if_neg hno] at hentry
    cases hentry
  rw [bmap, dif_neg (by omega)]
  simp only [Nat.add_sub_cancel_left, if_pos hj, hc, if_neg hne, ok_bind, if_pos hzero]
  refine ((ballocEntry_ensures h hc hne hj hzero).mono fun r hr ↦ ?_).weaken fun e he ↦ ⟨he.1, ?_⟩
  · exact Placed.mapped hn (by omega) hmax hr
  · rw [he.2]
    unfold blocksFor
    split <;> split <;> omega

theorem bmap_ensures (h : Ready sb k s) (hn : NoHoles (s.places sb k) (s.icache k).inum n)
    (hle : bn ≤ n) (hlt : bn < MAXFILE) :
    Ensures (fun r ↦ Mapped sb k n bn s r.1 r.2)
      (fun e ↦ e = .ballocOutOfBlocks ∧
        s.freeBlocks sb + blocksFor n < blocksFor (max n (bn + 1))) (s.bmap sb k bn) := by
  rcases Nat.lt_or_eq_of_le hle with hbn | rfl
  · obtain ⟨b, hb⟩ := Option.ne_none_iff_exists'.mp ((hn.block bn hlt).mpr hbn)
    rw [h.bmap_eq hlt hb]
    exact h.mapped hn hbn hb
  · rw [max_eq_right (Nat.le_succ bn)]
    rcases Nat.lt_trichotomy bn NDIRECT with hd | rfl | hd
    · exact bmap_direct h hn hd
    · exact bmap_indirect h hn
    · exact bmap_entry h hn hd hlt

end

end State

end Xv6Bfs.Fs

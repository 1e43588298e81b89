import Xv6Bfs.Fs.Areas
import Xv6Bfs.Lib.Ownership

namespace Xv6Bfs.Fs

open Lib.Bytes Lib.Execution Lib.Ownership Disk

/-- The block number at place `p` of an inode. The places below `MAXFILE` are the blocks of the
contents, and `MAXFILE` is the place of the indirect block. -/
def addr (data : Image) (d : Dinode) (p : ℕ) : ℕ :=
  if h : p < NDIRECT then d.addrs ⟨p, Nat.lt_succ_of_lt h⟩
  else if p < MAXFILE then
    if d.addrs (Fin.last NDIRECT) = 0 then 0
    else word (data (d.addrs (Fin.last NDIRECT))) (p - NDIRECT)
  else d.addrs (Fin.last NDIRECT)

def placeOf (i : Fin (NDIRECT + 1)) : ℕ := if i = Fin.last NDIRECT then MAXFILE else i

variable (sb : Superblock)

def own (data : Image) (ino : ℕ → Dinode) (x : ℕ × ℕ) : Option ℕ :=
  if x.1 < sb.ninodes ∧ (ino x.1).type ≠ 0 ∧ x.2 ≤ MAXFILE ∧ addr data (ino x.1) x.2 ≠ 0 then
    some (addr data (ino x.1) x.2)
  else none

def dataArea : Set ℕ := {b | sb.datastart ≤ b ∧ b < sb.size}

/-- Every block of the data area is free or at one place of one inode, and all places hold blocks
of the data area. -/
def Owned (bit : ℕ → Bool) (data : Image) (ino : ℕ → Dinode) : Prop :=
  Partition (dataArea sb) (fun b ↦ bit b = false) (own sb data ino)

structure NoHoles (own : ℕ × ℕ → Option ℕ) (i n : ℕ) : Prop where
  block : ∀ p, p < MAXFILE → (own (i, p) ≠ none ↔ p < n)
  indirect : own (i, MAXFILE) ≠ none ↔ NDIRECT < n
  le : n ≤ MAXFILE

section

variable {sb} {data data' : Image} {ino ino' : ℕ → Dinode} {bit bit' : ℕ → Bool} {d d' : Dinode}
  {b c i j p q n : ℕ} {x y : ℕ × ℕ}

theorem own_eq_some : own sb data ino x = some c ↔
    x.1 < sb.ninodes ∧ (ino x.1).type ≠ 0 ∧ x.2 ≤ MAXFILE ∧ addr data (ino x.1) x.2 = c ∧ c ≠ 0 := by
  unfold own
  split
  · rename_i h
    simp only [Option.some.injEq]
    constructor
    · rintro rfl
      exact ⟨h.1, h.2.1, h.2.2.1, rfl, h.2.2.2⟩
    · exact fun h' ↦ h'.2.2.2.1
  · rename_i h
    refine ⟨nofun, fun h' ↦ absurd ⟨h'.1, h'.2.1, h'.2.2.1, ?_⟩ h⟩
    rw [h'.2.2.2.1]
    exact h'.2.2.2.2

theorem own_congr (ht : (ino' i).type = 0 ↔ (ino i).type = 0)
    (ha : i < sb.ninodes → (ino i).type ≠ 0 → p ≤ MAXFILE → addr data' (ino' i) p = addr data (ino i) p) :
    own sb data' ino' (i, p) = own sb data ino (i, p) := by
  unfold own
  simp only
  by_cases h : i < sb.ninodes ∧ (ino i).type ≠ 0 ∧ p ≤ MAXFILE
  · rw [ha h.1 h.2.1 h.2.2]
    simp [ht]
  · rw [if_neg, if_neg] <;> grind

theorem addr_last : addr data d MAXFILE = d.addrs (Fin.last NDIRECT) := by
  simp [addr, MAXFILE]

theorem addr_entry (hp : p < NINDIRECT) (h : d.addrs (Fin.last NDIRECT) ≠ 0) :
    addr data d (NDIRECT + p) = word (data (d.addrs (Fin.last NDIRECT))) p := by
  have hlt : NDIRECT + p < MAXFILE := Nat.add_lt_add_left hp _
  simp [addr, hlt, h]

theorem addr_congr (hd : ∀ h : p < NDIRECT,
      d'.addrs ⟨p, Nat.lt_succ_of_lt h⟩ = d.addrs ⟨p, Nat.lt_succ_of_lt h⟩)
    (hl : d'.addrs (Fin.last NDIRECT) = d.addrs (Fin.last NDIRECT))
    (hb : d.addrs (Fin.last NDIRECT) ≠ 0 →
      data' (d.addrs (Fin.last NDIRECT)) = data (d.addrs (Fin.last NDIRECT))) :
    addr data' d' p = addr data d p := by
  unfold addr
  split
  · exact hd ‹_›
  · rw [hl]
    split
    · split
      · rfl
      · rw [hb ‹_›]
    · rfl

theorem own_last (hi : i < sb.ninodes) (ht : (ino i).type ≠ 0)
    (hl : (ino i).addrs (Fin.last NDIRECT) ≠ 0) :
    own sb data ino (i, MAXFILE) = some ((ino i).addrs (Fin.last NDIRECT)) :=
  own_eq_some.mpr ⟨hi, ht, le_rfl, addr_last, hl⟩

theorem own_ino (h : ∀ j, j < sb.ninodes → ino' j = ino j) : own sb data ino' = own sb data ino := by
  funext x
  unfold own
  by_cases hx : x.1 < sb.ninodes
  · rw [h _ hx]
  · rw [if_neg (fun h ↦ hx h.1), if_neg (fun h ↦ hx h.1)]

theorem own_data (h : ∀ j c, own sb data ino (j, MAXFILE) = some c → data' c = data c) :
    own sb data' ino = own sb data ino := by
  funext x
  exact own_congr Iff.rfl fun hi ht _ ↦ addr_congr (fun _ ↦ rfl) rfl
    fun hl ↦ h x.1 _ (own_last hi ht hl)

theorem own_place (hi : i < sb.ninodes) (ht : (ino i).type ≠ 0) (ht' : d'.type ≠ 0)
    (hp : p ≤ MAXFILE) (hself : addr data' d' p = b)
    (hq : ∀ q, q ≤ MAXFILE → q ≠ p → addr data' d' q = addr data (ino i) q)
    (hother : ∀ j c, j ≠ i → own sb data ino (j, MAXFILE) = some c → data' c = data c) :
    own sb data' (Function.update ino i d') =
      Function.update (own sb data ino) (i, p) (if b = 0 then none else some b) := by
  funext ⟨j, q⟩
  rcases eq_or_ne j i with rfl | hji
  · rcases eq_or_ne q p with rfl | hqp
    · simp [own, hi, ht', hp, hself]
    · rw [Function.update_of_ne (by simpa using hqp)]
      refine own_congr (by simp [ht, ht']) (fun _ _ hle ↦ ?_)
      rw [Function.update_self]
      exact hq q hle hqp
  · rw [Function.update_of_ne (by simp [hji])]
    refine own_congr (by simp [hji]) (fun hj htj _ ↦ ?_)
    rw [Function.update_of_ne hji]
    exact addr_congr (fun _ ↦ rfl) rfl fun hl ↦ hother j _ hji (own_last hj htj hl)

structure Allocs (sb : Superblock) (bit bit' : ℕ → Bool) (data data' : Image) (b : ℕ) : Prop where
  area : b ∈ dataArea sb
  free : bit b = false
  bit : ∀ c, c < sb.size → bit' c = (decide (b = c) || bit c)
  data : ∀ c, sb.datastart ≤ c → c ≠ b → data' c = data c
  zero : data' b = fun _ ↦ 0

theorem Allocs.ne_zero (h : Allocs sb bit bit' data data' b) : b ≠ 0 := by
  have := h.area.1
  have := sb.bmapstart_lt
  omega

namespace Owned

theorem allocs_data (h : Owned sb bit data ino) (ha : Allocs sb bit bit' data data' b)
    (hx : own sb data ino x = some c) : data' c = data c := by
  refine ha.data c (h.mem x c hx).1 (fun he ↦ ?_)
  exact h.not_free hx (he ▸ ha.free)

theorem give {data₁ : Image} (h : Owned sb bit data ino) (ha : Allocs sb bit bit' data data₁ b)
    (hx : own sb data ino x = none)
    (hown : own sb data' ino' = Function.update (own sb data ino) x (some b)) :
    Owned sb bit' data' ino' := by
  refine Partition.give h ha.area ha.free hx (fun c hc ↦ ?_) (by simp [hown])
    (fun y hy ↦ by simp [hown, hy])
  rw [ha.bit c hc.2]
  grind

end Owned

theorem last_ne {i : Fin (NDIRECT + 1)} (h : i.val < NDIRECT) : Fin.last NDIRECT ≠ i := by
  rintro rfl
  simp at h

theorem placeOf_le (i : Fin (NDIRECT + 1)) : placeOf i ≤ MAXFILE := by
  have : MAXFILE = NDIRECT + NINDIRECT := rfl
  unfold placeOf
  split <;> omega

theorem addr_placeOf (i : Fin (NDIRECT + 1)) : addr data d (placeOf i) = d.addrs i := by
  unfold placeOf
  split
  · rename_i he
    rw [addr_last, he]
  · have hlt : i.val < NDIRECT := Fin.val_lt_last ‹_›
    simp [addr, hlt]

theorem own_addr (h : Owned sb bit data ino) (ha : Allocs sb bit bit' data data' b)
    (hi : i < sb.ninodes) (ht : (ino i).type ≠ 0) {k : Fin (NDIRECT + 1)}
    (h0 : (ino i).addrs k = 0) :
    own sb data' (Function.update ino i
        { ino i with addrs := Function.update (ino i).addrs k b }) =
      Function.update (own sb data ino) (i, placeOf k) (some b) := by
  rw [← if_neg (c := b = 0) (t := none) (e := some b) ha.ne_zero]
  refine own_place hi ht ht (placeOf_le k) (by rw [addr_placeOf]; simp) (fun q hq hqp ↦ ?_)
    (fun j c _ hx ↦ h.allocs_data ha hx)
  rcases eq_or_ne k (Fin.last NDIRECT) with rfl | hk
  · rw [placeOf, if_pos rfl] at hqp
    unfold addr
    split
    · exact Function.update_of_ne (last_ne ‹_›).symm _ _
    · have hlt : q < MAXFILE := by omega
      simp [hlt, ha.ne_zero, ha.zero, word_zero]
  · rw [placeOf, if_neg hk] at hqp
    refine addr_congr (fun hq' ↦ ?_) (Function.update_of_ne hk.symm _ _)
      (fun hl ↦ h.allocs_data ha (own_last hi ht hl))
    exact Function.update_of_ne (fun he ↦ hqp (by rw [← he])) _ _

theorem own_entry (h : Owned sb bit data ino) (ha : Allocs sb bit bit' data data' b)
    (hi : i < sb.ninodes) (ht : (ino i).type ≠ 0)
    (hc : (ino i).addrs (Fin.last NDIRECT) = c) (h0 : c ≠ 0) (hp : p < NINDIRECT) :
    own sb (Function.update data' c (setWord (data' c) p b)) ino =
      Function.update (own sb data ino) (i, NDIRECT + p) (some b) := by
  have hmax : MAXFILE = NDIRECT + NINDIRECT := rfl
  have hlast : own sb data ino (i, MAXFILE) = some c := hc ▸ own_last hi ht (hc ▸ h0)
  have hkeep : data' c = data c := h.allocs_data ha hlast
  have hlt : b < 2 ^ 32 := by
    have := ha.area.2
    have := sb.size_lt
    omega
  have hplace : own sb (Function.update data' c (setWord (data' c) p b)) (Function.update ino i (ino i)) =
      Function.update (own sb data ino) (i, NDIRECT + p) (if b = 0 then none else some b) :=
    own_place hi ht ht (by omega) ?_ (fun q hq hqp ↦ ?_) (fun j c' hj hx ↦ ?_)
  · rwa [Function.update_eq_self, if_neg ha.ne_zero] at hplace
  · rw [addr_entry hp (by rwa [hc]), hc, Function.update_self, word_setWord_self hp hlt]
  · unfold addr
    split
    · rfl
    · split
      · rw [if_neg (by rwa [hc]), if_neg (by rwa [hc]), hc, Function.update_self,
          word_setWord_ne (by omega), hkeep]
      · rfl
  · -- the indirect block of another inode is another block
    have hne : c' ≠ c := fun he ↦ hj (congrArg Prod.fst (h.inj _ _ _ hx (he ▸ hlast)))
    rw [Function.update_of_ne hne]
    exact h.allocs_data ha hx

namespace NoHoles

variable {o : ℕ × ℕ → Option ℕ}

theorem next (h : NoHoles o i n) (hn : n ≠ NDIRECT) (hm : n < MAXFILE) :
    NoHoles (Function.update o (i, n) (some b)) i (n + 1) := by
  refine ⟨fun p hp ↦ ?_, ?_, hm⟩
  · rcases eq_or_ne p n with rfl | hne
    · simp
    · rw [Function.update_of_ne (by simpa using hne), h.block p hp]
      omega
  · rw [Function.update_of_ne (by simpa using hm.ne'), h.indirect]
    omega

theorem indirect_next (h : NoHoles o i NDIRECT) : NoHoles (Function.update
    (Function.update o (i, MAXFILE) (some b)) (i, NDIRECT) (some c)) i (NDIRECT + 1) := by
  have hlt : NDIRECT < MAXFILE := by decide
  refine ⟨fun p hp ↦ ?_, ?_, hlt⟩
  · rcases eq_or_ne p NDIRECT with rfl | hne
    · simp
    · rw [Function.update_of_ne (by simpa using hne), Function.update_of_ne (by simpa using hp.ne),
        h.block p hp]
      omega
  · rw [Function.update_of_ne (by simpa using hlt.ne')]
    simp

end NoHoles

end

namespace State

variable {sb} {s s' : State} {b bi c : ℕ}

theorem ballocScan_some (h : s.ballocScan sb = some (b, bi)) :
    sb.bblock b = sb.bblock (b + bi) ∧ bi = (b + bi) % BPB ∧ b + bi < sb.size ∧
      s.bit sb (b + bi) = false := by
  obtain ⟨k, -, hk⟩ := List.exists_of_findSome?_eq_some h
  obtain ⟨bi', hfind, he⟩ := Option.map_eq_some_iff.mp hk
  obtain ⟨rfl, rfl⟩ : k * BPB = b ∧ bi' = bi := by simpa using he
  have hmem := List.mem_range.mp (List.mem_of_find?_eq_some hfind)
  have hclear := List.find?_some hfind
  have hlt : bi' < BPB := by omega
  have hblock : sb.bblock (k * BPB) = sb.bblock (k * BPB + bi') := by
    unfold Superblock.bblock
    rw [Nat.mul_comm k, Nat.mul_add_div BPB_pos, Nat.div_eq_of_lt hlt, Nat.mul_div_cancel_left _ BPB_pos]
    omega
  have hmod : bi' = (k * BPB + bi') % BPB := by
    rw [Nat.mul_comm k, Nat.mul_add_mod, Nat.mod_eq_of_lt hlt]
  refine ⟨hblock, hmod, by omega, ?_⟩
  unfold bit
  rw [← hblock, ← hmod]
  simpa using hclear

theorem ballocScan_none (h : s.ballocScan sb = none) (hc : c < sb.size) : s.bit sb c = true := by
  have hpos := BPB_pos
  have hdiv := Nat.div_add_mod c BPB
  have hmod := Nat.mod_lt c hpos
  have hround : c / BPB < (sb.size + BPB - 1) / BPB := by
    rw [Nat.div_lt_iff_lt_mul hpos]
    have := Nat.div_add_mod (sb.size + BPB - 1) BPB
    have := Nat.mod_lt (sb.size + BPB - 1) hpos
    rw [Nat.mul_comm]
    omega
  have hnone := List.findSome?_eq_none_iff.mp h (c / BPB) (List.mem_range.mpr hround)
  simp only [Option.map_eq_none_iff, List.find?_eq_none, List.mem_range] at hnone
  have := hnone (c % BPB) (by rw [Nat.mul_comm]; omega)
  have hblock : sb.bblock (c / BPB * BPB) = sb.bblock c := by
    unfold Superblock.bblock
    rw [Nat.mul_div_cancel _ hpos]
  rw [hblock] at this
  simpa [bit] using this

theorem balloc_ensures (hmeta : ∀ c, c < sb.datastart → s.bit sb c = true) :
    Ensures (fun r ↦ Allocs sb (s.bit sb) (r.2.bit sb) s.cache r.2.cache r.1 ∧
        (∀ i, i < sb.ninodes → r.2.dinode sb i = s.dinode sb i) ∧ r.2.icache = s.icache)
      (fun e ↦ e = .ballocOutOfBlocks ∧ ∀ c, c < sb.size → s.bit sb c = true) (s.balloc sb) := by
  unfold balloc
  split
  · rename_i b bi hscan
    obtain ⟨hblock, hmod, hlt, hclear⟩ := ballocScan_some hscan
    have hdata : sb.datastart ≤ b + bi := by
      by_contra hno
      rw [hmeta _ (by omega)] at hclear
      cases hclear
    have hmark : s.logWrite (sb.bblock b) (setBit (s.cache (sb.bblock b)) bi) = s.mark sb (b + bi) := by
      rw [mark, ← hblock, ← hmod]
    rw [hmark]
    refine ⟨⟨⟨hdata, hlt⟩, hclear, fun c hc ↦ ?_, fun c hc hne ↦ ?_, ?_⟩, fun i hi ↦ ?_, rfl⟩
    · rw [bzero, bit_logWrite_data hdata hc, mark_bit]
    · rw [bzero, logWrite_cache, if_neg hne, mark, cache_logWrite_bblock hlt hc]
    · rw [bzero, logWrite_cache, if_pos rfl]
    · rw [bzero, dinode_logWrite_data hdata hi, mark, dinode_logWrite_bblock hi]
  · rename_i hscan
    exact ⟨rfl, fun c hc ↦ ballocScan_none hscan hc⟩

end State

end Xv6Bfs.Fs

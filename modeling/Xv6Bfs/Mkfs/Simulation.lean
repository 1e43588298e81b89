import Xv6Bfs.Fs.Files
import Xv6Bfs.Mkfs.Program

namespace Xv6Bfs.Mkfs

open Lib.Bytes Lib.Execution Lib.Ownership Disk Fs
open Fs.State (blocksFor)

variable {sb : Superblock} {m m' : State} {s s₁ s' : Fs.State} {k : Fin NINODE} {b c i f n off bn inum : ℕ}

theorem bitSet_zeroes (b : ℕ) : bitSet zeroes b = false := by
  have hpeek : peek zeroes (b / 8) = 0 := by
    unfold peek
    split <;> rfl
  simp [bitSet, hpeek]

theorem usedMap_succ (f : ℕ) : State.usedMap (f + 1) = setBit (State.usedMap f) f := by
  rw [State.usedMap, List.range_succ, List.foldl_concat, State.usedMap]

theorem bitSet_usedMap (hf : f ≤ BPB) (b : ℕ) : bitSet (State.usedMap f) b = decide (b < f) := by
  induction f with
  | zero => exact bitSet_zeroes b
  | succ f ih =>
    rw [usedMap_succ, bitSet_setBit (by omega), ih (by omega), Bool.eq_iff_iff]
    simp
    omega

theorem bblock_eq (hb : b < FSSIZE) : sb.bblock b = sb.bmapstart := by
  have hlt : b < BPB := hb.trans (by decide)
  rw [Superblock.bblock, Nat.div_eq_of_lt hlt, Nat.zero_add]

/-- The state of `mkfs` as the kernel sees it, with the free map that `balloc` will write. The next
inode is `i`. -/
structure Sim (sb : Superblock) (i : ℕ) (m : State) (s : Fs.State) : Prop where
  size : sb.size = FSSIZE
  start : 1 < sb.inodestart
  freeinode : m.freeinode = i
  map : s.cache sb.bmapstart = State.usedMap m.freeblock
  img : ∀ b, b ≠ sb.bmapstart → s.cache b = m.img b
  zero : ∀ b, m.freeblock ≤ b → m.img b = zeroes
  super : m.img 1 = superBlock sb
  sectors : m.sectors = FSSIZE
  le_free : sb.datastart ≤ m.freeblock
  free_le : m.freeblock ≤ FSSIZE

namespace Sim

section

variable (h : Sim sb i m s)
include h

theorem bit (hb : b < FSSIZE) : s.bit sb b = decide (b < m.freeblock) := by
  have hle : m.freeblock ≤ BPB := h.free_le.trans (by decide)
  have hlt : b < BPB := hb.trans (by decide)
  rw [Fs.State.bit, bblock_eq hb, h.map, Nat.mod_eq_of_lt hlt, bitSet_usedMap hle]

theorem rsect (hb : b < FSSIZE) (hne : b ≠ sb.bmapstart) : m.rsect b = .ok (s.cache b) := by
  rw [State.rsect, if_neg (by omega), if_neg (by rw [h.sectors]; omega), h.img b hne]

theorem area : 1 < sb.bmapstart ∧ sb.bmapstart < sb.datastart := by
  have hinodes : sb.inodestart < sb.bmapstart := (Nat.le_add_right _ _).trans_lt sb.inodes_lt
  exact ⟨h.start.trans hinodes, sb.bmapstart_lt⟩

theorem wsect (h1 : 1 < b) (hb : b < m.freeblock) (hne : b ≠ sb.bmapstart) (data : Block) :
    ∃ m', m.wsect b data = .ok m' ∧ m'.freeblock = m.freeblock ∧ Sim sb i m' (s.logWrite b data) := by
  have hle := h.free_le
  refine ⟨{ m with img := Function.update m.img b data }, ?_, rfl, ?_⟩
  · rw [State.wsect, if_neg (by omega), h.sectors, Nat.max_eq_left (by omega), ← h.sectors]
  · refine ⟨h.size, h.start, h.freeinode, ?_, ?_, ?_, ?_, h.sectors, h.le_free, h.free_le⟩
    · rw [Fs.State.logWrite_cache, if_neg hne.symm]
      exact h.map
    · intro c hc
      rw [Fs.State.logWrite_cache, h.img c hc]
      exact (Function.update_apply ..).symm
    · intro c hc
      change m.freeblock ≤ c at hc
      dsimp only
      rw [Function.update_of_ne (by omega)]
      exact h.zero c hc
    · exact (Function.update_of_ne (by omega) ..).trans h.super

theorem ballocScan (hlt : m.freeblock < FSSIZE) : s.ballocScan sb = some (0, m.freeblock) := by
  have hfind : (List.range (min BPB (sb.size - 0 * BPB))).find?
      (fun bi ↦ !bitSet (s.cache (sb.bblock (0 * BPB))) bi) = some m.freeblock := by
    have hle : m.freeblock ≤ BPB := h.free_le.trans (by decide)
    rw [List.find?_range_eq_some, Nat.zero_mul, bblock_eq (by decide), h.map, h.size]
    simp only [bitSet_usedMap hle, List.mem_range]
    refine ⟨by simp, lt_of_lt_of_le hlt (by decide), ?_⟩
    intro j hj
    simp [hj]
  have hrange : List.range ((sb.size + BPB - 1) / BPB) = [0] := by rw [h.size]; decide
  rw [Fs.State.ballocScan, hrange, List.findSome?_cons]
  dsimp only
  rw [hfind]
  rfl

theorem balloc (hb : s.balloc sb = .ok (b, s₁)) :
    b = m.freeblock ∧ s₁.icache = s.icache ∧ Sim sb i { m with freeblock := m.freeblock + 1 } s₁ := by
  have hlt : m.freeblock < FSSIZE := by
    by_contra hfull
    have hmeta : ∀ c, c < sb.datastart → s.bit sb c = true := by
      intro c hc
      have := h.le_free
      have := h.free_le
      rw [h.bit (by omega)]
      simp
      omega
    have hallocs := ((Fs.State.balloc_ensures hmeta).of_ok hb).1
    have hsize : b < FSSIZE := h.size ▸ hallocs.area.2
    have hclear := hallocs.free
    rw [h.bit hsize] at hclear
    have hbig : m.freeblock ≤ b := by simpa using hclear
    omega
  have hfree := h.le_free
  have hmap := sb.bmapstart_lt
  rw [Fs.State.balloc, h.ballocScan hlt] at hb
  dsimp only at hb
  rw [bblock_eq (by decide), h.map, ← usedMap_succ] at hb
  obtain ⟨rfl, rfl⟩ : 0 + m.freeblock = b ∧ _ = s₁ := by simpa using hb
  rw [Nat.zero_add]
  refine ⟨rfl, rfl, h.size, h.start, h.freeinode, ?_, ?_, ?_, h.super, h.sectors,
    Nat.le_succ_of_le hfree, hlt⟩
  · rw [Fs.State.bzero, Fs.State.logWrite_cache, if_neg (by omega), Fs.State.logWrite_cache, if_pos rfl]
  · intro c hc
    rw [Fs.State.bzero, Fs.State.logWrite_cache, Fs.State.logWrite_cache, if_neg hc]
    split
    · rename_i hcb
      rw [hcb]
      exact (h.zero _ le_rfl).symm
    · exact h.img c hc
  · intro c hc
    exact h.zero c (Nat.le_of_succ_le hc)

theorem fillAddr {j : Fin (NDIRECT + 1)}
    (hb : (if (s.icache k).addrs j = 0 then s.ballocAddr sb k j else .ok ((s.icache k).addrs j, s)) =
      .ok (b, s₁)) :
    (m.fillAddr j (s.icache k).toDinode).1 = (s₁.icache k).toDinode ∧ (s₁.icache k).addrs j = b ∧
      m.freeblock ≤ (m.fillAddr j (s.icache k).toDinode).2.freeblock ∧
      ((s.icache k).addrs j = 0 → b = m.freeblock ∧
        m.freeblock < (m.fillAddr j (s.icache k).toDinode).2.freeblock) ∧
      ((s.icache k).addrs j ≠ 0 → b = (s.icache k).addrs j) ∧
      Sim sb i (m.fillAddr j (s.icache k).toDinode).2 s₁ := by
  unfold State.fillAddr
  split at hb
  · rename_i h0
    obtain ⟨⟨a, s₂⟩, hballoc, hrest⟩ := bind_eq_ok.mp hb
    obtain ⟨rfl, hicache, hsim⟩ := h.balloc hballoc
    obtain ⟨rfl, rfl⟩ : m.freeblock = b ∧ _ = s₁ := by simpa using hrest
    rw [if_pos h0, Fs.State.setAddr, Fs.State.setInode_icache_self, hicache]
    refine ⟨rfl, Function.update_self .., Nat.le_succ _, fun _ ↦ ⟨rfl, Nat.lt_succ_self _⟩,
      fun hne ↦ absurd h0 hne, ?_⟩
    exact ⟨hsim.size, hsim.start, hsim.freeinode, hsim.map, hsim.img, hsim.zero, hsim.super,
      hsim.sectors, hsim.le_free, hsim.free_le⟩
  · rename_i h0
    obtain ⟨rfl, rfl⟩ : (s.icache k).addrs j = b ∧ s = s₁ := by simpa using hb
    rw [if_neg h0]
    exact ⟨rfl, rfl, le_rfl, fun hz ↦ absurd hz h0, fun _ ↦ rfl, h⟩

theorem lt_free (hr : Fs.State.Ready sb k s) {x : ℕ × ℕ}
    (hx : s.places sb k x = some b) : sb.datastart ≤ b ∧ b < m.freeblock := by
  obtain ⟨hlo, hhi⟩ := hr.owned.mem x b hx
  have hused := hr.owned.not_free hx
  rw [h.bit (h.size ▸ hhi)] at hused
  exact ⟨hlo, by simpa using hused⟩

end

theorem bmap_eq_bind (hd : ¬ bn < NDIRECT) (hbn : bn - NDIRECT < NINDIRECT) : s.bmap sb k bn =
    (if (s.icache k).addrs (Fin.last NDIRECT) = 0 then s.ballocAddr sb k (Fin.last NDIRECT)
      else .ok ((s.icache k).addrs (Fin.last NDIRECT), s)) >>= fun r ↦
    if word (r.2.cache r.1) (bn - NDIRECT) = 0 then r.2.ballocEntry sb r.1 (bn - NDIRECT)
    else .ok (word (r.2.cache r.1) (bn - NDIRECT), r.2) := by
  rw [Fs.State.bmap, dif_neg hd]
  dsimp only
  rw [if_pos hbn]
  split <;> rfl

variable (h : Sim sb i m s)
include h

theorem sector (hr : Fs.State.Ready sb k s) (hb : s.bmap sb k bn = .ok (b, s₁)) :
    ∃ m', m.sector bn (s.icache k).toDinode = .ok (b, (s₁.icache k).toDinode, m') ∧
      Sim sb i m' s₁ := by
  unfold State.sector
  by_cases hd : bn < NDIRECT
  · rw [Fs.State.bmap, dif_pos hd] at hb
    obtain ⟨hdin, rfl, -, -, -, hsim⟩ := h.fillAddr hb
    rw [dif_pos hd]
    dsimp only
    rw [hdin]
    exact ⟨_, rfl, hsim⟩
  have hbn : bn - NDIRECT < NINDIRECT := by
    by_contra hbn
    rw [Fs.State.bmap, dif_neg hd] at hb
    dsimp only at hb
    rw [if_neg hbn] at hb
    cases hb
  rw [dif_neg hd]
  rw [bmap_eq_bind hd hbn] at hb
  dsimp only
  obtain ⟨⟨ind, s₂⟩, haddr, hrest⟩ := bind_eq_ok.mp hb
  obtain ⟨hdin, hind, hmono, hnew, hold, hsim⟩ := h.fillAddr haddr
  generalize m.fillAddr (Fin.last NDIRECT) (s.icache k).toDinode = r at hdin hmono hnew hsim ⊢
  obtain ⟨din, m₂⟩ := r
  dsimp only at hdin hmono hnew hsim hrest ⊢
  subst hdin
  have hused : sb.datastart ≤ ind ∧ ind < m₂.freeblock := by
    by_cases h0 : (s.icache k).addrs (Fin.last NDIRECT) = 0
    · obtain ⟨rfl, hlt⟩ := hnew h0
      exact ⟨h.le_free, hlt⟩
    · obtain rfl := hold h0
      have hplace : s.places sb k ((s.icache k).inum, MAXFILE) =
          some ((s.icache k).addrs (Fin.last NDIRECT)) := by
        rw [hr.places_eq le_rfl, addr_last, if_neg h0]
      have := h.lt_free hr hplace
      omega
  have hle := hsim.free_le
  have hmap := h.area
  rw [hind, hsim.rsect (by omega) (by omega), ok_bind]
  split at hrest
  · rename_i h0
    rw [if_pos h0]
    obtain ⟨⟨a, s₃⟩, hballoc, hlast⟩ := bind_eq_ok.mp hrest
    obtain ⟨rfl, hicache, hsim₃⟩ := hsim.balloc hballoc
    obtain ⟨rfl, rfl⟩ : m₂.freeblock = b ∧ _ = s₁ := by simpa using hlast
    have hsame : s₃.cache ind = s₂.cache ind := by
      rw [hsim₃.img ind (by omega), hsim.img ind (by omega)]
    obtain ⟨m₃, hw, -, hsim₄⟩ := hsim₃.wsect (by omega) (Nat.lt_succ_of_lt hused.2) (by omega)
      (setWord (s₃.cache ind) (bn - NDIRECT) m₂.freeblock)
    have hword : word (setWord (s₃.cache ind) (bn - NDIRECT) m₂.freeblock) (bn - NDIRECT) =
        m₂.freeblock :=
      word_setWord_self hbn (hle.trans_lt (by decide))
    rw [← hsame, hw, ok_bind, hword, Fs.State.logWrite_icache, hicache]
    exact ⟨m₃, rfl, hsim₄⟩
  · rename_i h0
    rw [if_neg h0]
    obtain ⟨rfl, rfl⟩ : word (s₂.cache ind) (bn - NDIRECT) = b ∧ s₂ = s₁ := by simpa using hrest
    exact ⟨m₂, rfl, hsim⟩

theorem appendLoop {fuel : ℕ} {src : List UInt8} (hr : Fs.State.Ready sb k s)
    (hn : NoHoles (s.places sb k) (s.icache k).inum n) (hoff : off ≤ n * BSIZE)
    (hmax : off + src.length ≤ MAXFILE * BSIZE) (hw : s.writeLoop sb k fuel src off = .ok s')
    (hfuel : src.length ≤ fuel) :
    ∃ m', m.appendLoop fuel src off (s.icache k).toDinode =
      .ok (off + src.length, (s'.icache k).toDinode, m') ∧ Sim sb i m' s' := by
  induction fuel generalizing src off s m n with
  | zero =>
    obtain rfl : src = [] := List.eq_nil_of_length_eq_zero (by omega)
    obtain rfl : s = s' := by simpa [Fs.State.writeLoop] using hw
    exact ⟨m, rfl, h⟩
  | succ fuel ih =>
    rw [Fs.State.writeLoop] at hw
    rw [State.appendLoop]
    split at hw
    · rename_i h0
      obtain rfl : s = s' := by simpa using hw
      rw [if_pos h0, h0]
      exact ⟨m, rfl, h⟩
    rename_i h0
    have hmod := Nat.mod_lt off BSIZE_pos
    have hdiv := Nat.div_add_mod off BSIZE
    have hlt : off / BSIZE < MAXFILE := by
      unfold BSIZE at *
      omega
    have hbn : off / BSIZE ≤ n := by
      unfold BSIZE at *
      omega
    have hn1 : (off / BSIZE + 1) * BSIZE - off = BSIZE - off % BSIZE := by
      rw [Nat.add_mul, Nat.mul_comm]
      omega
    have hstart : off - off / BSIZE * BSIZE = off % BSIZE := by
      rw [Nat.mul_comm]
      omega
    rw [if_neg h0, if_pos hlt]
    dsimp only
    rw [hn1, hstart]
    obtain ⟨⟨b, s₁⟩, hbmap, hrest⟩ := bind_eq_ok.mp hw
    dsimp only at hrest
    obtain ⟨m₁, hsector, hsim₁⟩ := h.sector hr hbmap
    have hmapped := (Fs.State.bmap_ensures hr hn hbn hlt).of_ok hbmap
    have hused := hsim₁.lt_free hmapped.ready hmapped.block
    have hle := hsim₁.free_le
    have hmap := h.area
    set l := min src.length (BSIZE - off % BSIZE) with hl
    have htake : (src.take l).length = l := by
      rw [List.length_take]
      omega
    obtain ⟨m₂, hwsect, -, hsim₂⟩ := hsim₁.wsect (by omega) hused.2 (by omega)
      (patch (s₁.cache b) (off % BSIZE) (src.take l))
    have hround := hmapped.wrote (src.take l) hn hlt (by omega) (by omega)
    have hholes := hround.noHoles
    rw [htake] at hholes
    obtain ⟨m₃, hloop, hsim₃⟩ := ih hsim₂ hround.ready (hround.inum ▸ hholes)
      ((le_blocksOf (off + l)).trans (Nat.mul_le_mul_right _ (le_max_right _ _)))
      (by rw [List.length_drop]; omega) hrest (by rw [List.length_drop]; omega)
    refine ⟨m₃, ?_, hsim₃⟩
    rw [hsector, ok_bind]
    dsimp only
    rw [hsim₁.rsect (by omega) (by omega), ok_bind, hwsect, ok_bind]
    rw [Fs.State.logWrite_icache] at hloop
    rw [hloop, List.length_drop, show off + l + (src.length - l) = off + src.length by omega]

theorem congr (hs : s'.cache = s.cache) : Sim sb i m s' :=
  ⟨h.size, h.start, h.freeinode, by rw [hs]; exact h.map, by rw [hs]; exact h.img, h.zero, h.super,
    h.sectors, h.le_free, h.free_le⟩

theorem iblock_lt (hi : inum < sb.ninodes) :
    1 < sb.iblock inum ∧ sb.iblock inum < m.freeblock ∧ sb.iblock inum ≠ sb.bmapstart :=
  ⟨h.start.trans_le (Nat.le_add_left _ _), (Superblock.iblock_lt_datastart hi).trans_le h.le_free,
    (Superblock.iblock_lt hi).ne⟩

theorem rinode (hi : inum < sb.ninodes) : m.rinode sb inum = .ok (s.dinode sb inum) := by
  obtain ⟨h1, hlt, hne⟩ := h.iblock_lt hi
  rw [State.rinode, h.rsect (hlt.trans_le h.free_le) hne, ok_bind]
  rfl

theorem winode (hi : inum < sb.ninodes) (d : Dinode) :
    ∃ m', m.winode sb inum d = .ok m' ∧ m'.freeblock = m.freeblock ∧
      Sim sb i m' (s.putDinode sb inum d) := by
  obtain ⟨h1, hlt, hne⟩ := h.iblock_lt hi
  rw [State.winode, h.rsect (hlt.trans_le h.free_le) hne, ok_bind]
  exact h.wsect h1 hlt hne _

theorem freeBlocks : s.freeBlocks sb + m.freeblock = FSSIZE := by
  have hfilter : (Finset.Ico sb.datastart sb.size).filter (fun b ↦ s.bit sb b = false) =
      Finset.Ico m.freeblock FSSIZE := by
    ext b
    rw [Finset.mem_filter, Finset.mem_Ico, Finset.mem_Ico, h.size]
    have hle := h.le_free
    constructor
    · intro hb
      have hclear := hb.2
      rw [h.bit hb.1.2] at hclear
      exact ⟨by simpa using hclear, hb.1.2⟩
    · intro hb
      refine ⟨⟨by omega, hb.2⟩, ?_⟩
      rw [h.bit hb.2]
      simpa using hb.1
  have hfree := h.free_le
  rw [Fs.State.freeBlocks, hfilter, Nat.card_Ico]
  omega

theorem iappend {devsw : Devsw} {src : List UInt8} {r : Option ℕ}
    (hwf : WellFormed sb s) (hr : 0 < (s.icache k).ref) (hv : (s.icache k).valid = true)
    (ht : (s.icache k).type ≠ T_DEV) (hsrc : 0 < src.length)
    (hmax : (s.icache k).size + src.length ≤ MAXFILE * BSIZE)
    (hw : s.writei sb devsw k src (s.icache k).size = .ok (r, s')) :
    ∃ m', m.iappend sb (s.icache k).inum src = .ok m' ∧ Sim sb i m' s' ∧
      m'.freeblock + blocksFor (blocksOf (s.icache k).size) =
        m.freeblock + blocksFor (blocksOf ((s.icache k).size + src.length)) := by
  have hlim : MAXFILE * BSIZE = 71680 := by decide
  have hready := hwf.ready hr hv
  have hholes := hwf.noHoles_places hr hv
  have hblocks := le_blocksOf (s.icache k).size
  rw [Fs.State.writei] at hw
  simp only [if_neg ht, Nat.mod_eq_of_lt (show (s.icache k).size + src.length < 2 ^ 32 by omega)] at hw
  rw [if_neg (by omega), if_neg (by omega)] at hw
  obtain ⟨s₁, hloop, hrest⟩ := bind_eq_ok.mp hw
  have hwrote := (Fs.State.writeLoop_ensures hready hholes le_rfl hblocks hmax).of_ok hloop
  obtain ⟨addrs, hself⟩ := hwrote.self
  obtain ⟨m₁, happend, hsim₁⟩ := h.appendLoop hready hholes hblocks hmax hloop le_rfl
  obtain ⟨m₂, hwinode, hsame, hsim₂⟩ := hsim₁.winode (hwf.inum k hr)
    { (s₁.icache k).toDinode with size := (s.icache k).size + src.length }
  rw [if_pos ⟨hsrc, by rw [hself]; simp only; omega⟩, Fs.State.iupdate_setInode] at hrest
  obtain ⟨-, rfl⟩ : _ ∧ _ = s' := by simpa using hrest
  refine ⟨m₂, ?_, hsim₂.congr ?_, ?_⟩
  · rw [State.iappend, h.rinode (hwf.inum k hr), ok_bind, ← (hwf.cached k hr hv).1, happend, ok_bind]
    exact hwinode
  · simp only [hwrote.inum]
    rfl
  · have hfree := hwrote.free
    rw [max_eq_right (blocksOf_mono (Nat.le_add_right _ _))] at hfree
    have := h.freeBlocks
    have := hsim₁.freeBlocks
    omega

end Sim

end Xv6Bfs.Mkfs

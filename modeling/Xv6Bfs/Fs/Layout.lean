import Xv6Bfs.Disk.Block
import Mathlib.Data.Fin.Basic

namespace Xv6Bfs.Fs

open Lib.Bytes Disk

def NDIRECT : ℕ := 12

def NINDIRECT : ℕ := BSIZE / 4

def MAXFILE : ℕ := NDIRECT + NINDIRECT

def DINODE : ℕ := 64

def IPB : ℕ := BSIZE / DINODE

def BPB : ℕ := BSIZE * 8

/-- `struct superblock`, with the order of the areas of the disk that `mkfs` computes: log,
inode blocks, free bit map, data blocks. -/
structure Superblock where
  size : ℕ
  nblocks : ℕ
  ninodes : ℕ
  nlog : ℕ
  logstart : ℕ
  inodestart : ℕ
  bmapstart : ℕ
  log_le : logstart + nlog ≤ inodestart
  inodes_lt : inodestart + ninodes / IPB < bmapstart
  bmap_lt : bmapstart + size / BPB < size - nblocks
  size_lt : size < 2 ^ 31

namespace Superblock

variable (sb : Superblock)

def iblock (i : ℕ) : ℕ := i / IPB + sb.inodestart

def bblock (b : ℕ) : ℕ := b / BPB + sb.bmapstart

def datastart : ℕ := sb.size - sb.nblocks

variable {sb}

theorem iblock_lt {i : ℕ} (h : i < sb.ninodes) : sb.iblock i < sb.bmapstart := by
  have := Nat.div_le_div_right (c := IPB) h.le
  have := sb.inodes_lt
  unfold iblock
  omega

theorem le_bblock (b : ℕ) : sb.bmapstart ≤ sb.bblock b := Nat.le_add_left _ _

theorem bblock_lt {b : ℕ} (h : b < sb.size) : sb.bblock b < sb.datastart := by
  have := Nat.div_le_div_right (c := BPB) h.le
  have := sb.bmap_lt
  unfold bblock datastart
  omega

theorem bmapstart_lt : sb.bmapstart < sb.datastart :=
  Nat.lt_of_le_of_lt (Nat.le_add_right _ _) sb.bmap_lt

theorem iblock_lt_datastart {i : ℕ} (h : i < sb.ninodes) : sb.iblock i < sb.datastart :=
  (iblock_lt h).trans bmapstart_lt

theorem iblock_ne_bblock {i b : ℕ} (h : i < sb.ninodes) : sb.iblock i ≠ sb.bblock b := by
  have := iblock_lt h
  have := sb.le_bblock b
  omega

end Superblock

/-- `struct dinode` -/
@[ext]
structure Dinode where
  type : ℕ
  major : ℕ
  minor : ℕ
  nlink : ℕ
  size : ℕ
  addrs : Fin (NDIRECT + 1) → ℕ

structure Dinode.Fits (d : Dinode) : Prop where
  type : d.type < 2 ^ 16
  major : d.major < 2 ^ 16
  minor : d.minor < 2 ^ 16
  nlink : d.nlink < 2 ^ 16
  size : d.size < 2 ^ 32
  addrs : ∀ i, d.addrs i < 2 ^ 32

def Dinode.bytes (d : Dinode) : List UInt8 :=
  toBytes 2 d.type ++ toBytes 2 d.major ++ toBytes 2 d.minor ++ toBytes 2 d.nlink ++
    toBytes 4 d.size ++ (List.finRange (NDIRECT + 1)).flatMap fun i ↦ toBytes 4 (d.addrs i)

def getDinode (b : Block) (o : ℕ) : Dinode where
  type := num b o 2
  major := num b (o + 2) 2
  minor := num b (o + 4) 2
  nlink := num b (o + 6) 2
  size := num b (o + 8) 4
  addrs := fun i ↦ num b (o + 12 + 4 * i) 4

def putDinode (b : Block) (o : ℕ) (d : Dinode) : Block := patch b o d.bytes

section

variable {b : Block} {d : Dinode} {o o' : ℕ}

theorem Dinode.length_addrs (d : Dinode) :
    ((List.finRange (NDIRECT + 1)).flatMap fun i ↦ toBytes 4 (d.addrs i)).length = 52 := by
  simp [List.length_flatMap, NDIRECT]

@[simp] theorem Dinode.length_bytes (d : Dinode) : d.bytes.length = DINODE := by
  simp only [Dinode.bytes, List.length_append, length_toBytes, d.length_addrs, DINODE]

theorem getDinode_putDinode_self (ho : o + DINODE ≤ BSIZE) (hd : d.Fits) :
    getDinode (putDinode b o d) o = d := by
  have hlen : o + d.bytes.length ≤ BSIZE := by simpa using ho
  have hsize : DINODE = 64 := rfl
  have field : ∀ k w v, k + w ≤ 64 → v < 256 ^ w → (d.bytes.drop k).take w = toBytes w v →
      num (putDinode b o d) (o + k) w = v :=
    fun k w v hk hv hs ↦ num_patch_inside hlen (by simpa [hsize] using hk) hv hs
  ext1
  · exact field 0 2 _ (by omega) hd.type (by simp [Dinode.bytes])
  · exact field 2 2 _ (by omega) hd.major (by simp [Dinode.bytes])
  · exact field 4 2 _ (by omega) hd.minor (by simp [Dinode.bytes, List.drop_append, drop_toBytes])
  · exact field 6 2 _ (by omega) hd.nlink (by simp [Dinode.bytes, List.drop_append, drop_toBytes])
  · exact field 8 4 _ (by omega) hd.size (by simp [Dinode.bytes, List.drop_append, drop_toBytes])
  · funext i
    have hi : i.val < 13 := i.isLt
    have hdrop : d.bytes.drop (12 + 4 * i) =
        ((List.finRange (NDIRECT + 1)).flatMap fun i ↦ toBytes 4 (d.addrs i)).drop (4 * i) := by
      rw [← List.drop_drop]
      simp [Dinode.bytes, List.drop_append, drop_toBytes]
    have := field (12 + 4 * i) 4 (d.addrs i) (by omega) (hd.addrs i) ?_
    · rwa [← Nat.add_assoc] at this
    · rw [hdrop, take_drop_flatMap (fun _ ↦ length_toBytes 4 _) _ (by simp [NDIRECT]; omega)]
      simp

theorem getDinode_putDinode_of_disjoint (h : o' + DINODE ≤ o ∨ o + DINODE ≤ o') :
    getDinode (putDinode b o d) o' = getDinode b o' := by
  have hsize : DINODE = 64 := rfl
  have field : ∀ k w, k + w ≤ 64 → num (putDinode b o d) (o' + k) w = num b (o' + k) w := by
    intro k w hk
    exact num_patch_of_disjoint (by simp only [Dinode.length_bytes]; omega)
  ext1
  · exact field 0 2 (by omega)
  · exact field 2 2 (by omega)
  · exact field 4 2 (by omega)
  · exact field 6 2 (by omega)
  · exact field 8 4 (by omega)
  · funext i
    have hi := i.isLt
    have := field (12 + 4 * i) 4 (by simp only [NDIRECT] at hi; omega)
    simpa only [getDinode, Nat.add_assoc] using this

theorem bytes_getDinode (b : Block) (o : ℕ) : (getDinode b o).bytes = slice b o DINODE := by
  have field (off w : ℕ) : toBytes w (num b off w) = slice b off w := by
    have := toBytes_fromBytes (slice b off w)
    rwa [length_slice] at this
  have haddrs := flatMap_slice b (o + 12) 4 (NDIRECT + 1)
  rw [Dinode.bytes]
  simp only [getDinode, field, haddrs]
  rw [← slice_add, ← slice_add, ← slice_add, ← slice_add, ← slice_add]
  rfl

theorem putDinode_getDinode (b : Block) (o : ℕ) : putDinode b o (getDinode b o) = b := by
  rw [putDinode, bytes_getDinode, patch_slice]

theorem putDinode_putDinode (b : Block) (o : ℕ) (d d' : Dinode) :
    putDinode (putDinode b o d) o d' = putDinode b o d' :=
  patch_patch b (by simp)

theorem getDinode_fits : (getDinode b o).Fits :=
  ⟨num_lt, num_lt, num_lt, num_lt, num_lt, fun _ ↦ num_lt⟩

end

def bitMask (bi : ℕ) : UInt8 := 1 <<< UInt8.ofNat (bi % 8)

def bitSet (b : Block) (bi : ℕ) : Bool := peek b (bi / 8) &&& bitMask bi != 0

def setBit (b : Block) (bi : ℕ) : Block := patch b (bi / 8) [peek b (bi / 8) ||| bitMask bi]

def clearBit (b : Block) (bi : ℕ) : Block := patch b (bi / 8) [peek b (bi / 8) &&& ~~~bitMask bi]

section

variable {b : Block} {bi bj : ℕ}

theorem bitMask_ne_zero (bi : ℕ) : bitMask bi ≠ 0 := by
  have h : ∀ i : Fin 8, (1 : UInt8) <<< UInt8.ofNat i ≠ 0 := by decide
  exact h ⟨bi % 8, Nat.mod_lt _ (by decide)⟩

theorem bitMask_and (h : bi % 8 ≠ bj % 8) : bitMask bi &&& bitMask bj = 0 := by
  have h' : ∀ i j : Fin 8, i ≠ j →
      ((1 : UInt8) <<< UInt8.ofNat i) &&& (1 <<< UInt8.ofNat j) = 0 := by decide
  exact h' ⟨bi % 8, Nat.mod_lt _ (by decide)⟩ ⟨bj % 8, Nat.mod_lt _ (by decide)⟩ (by simpa using h)

theorem or_and_of_and {x m m' : UInt8} (h : m &&& m' = 0) : (x ||| m) &&& m' = x &&& m' := by
  have h : m.toBitVec &&& m'.toBitVec = 0 := congrArg UInt8.toBitVec h
  refine UInt8.toBitVec_inj.mp ?_
  simp only [UInt8.toBitVec_and, UInt8.toBitVec_or]
  rw [BitVec.and_or_distrib_right, h]
  simp

theorem and_not_and_of_and {x m m' : UInt8} (h : m &&& m' = 0) :
    (x &&& ~~~m) &&& m' = x &&& m' := by
  have h : m.toBitVec &&& m'.toBitVec = 0 := congrArg UInt8.toBitVec h
  refine UInt8.toBitVec_inj.mp ?_
  ext i hi
  have := congrArg (·.getLsbD i) h
  simp only [BitVec.getLsbD_and, BitVec.ofNat_eq_ofNat, BitVec.getLsbD_zero] at this
  simp
  grind

theorem or_and_self (x m : UInt8) : (x ||| m) &&& m = m := by
  refine UInt8.toBitVec_inj.mp ?_
  ext i hi
  simp
  grind

theorem and_not_and_self (x m : UInt8) : (x &&& ~~~m) &&& m = 0 := by
  refine UInt8.toBitVec_inj.mp ?_
  ext i hi
  simp

theorem bitSet_patch {x : UInt8} (hi : bi < BPB) :
    bitSet (patch b (bi / 8) [x]) bj =
      if bi / 8 = bj / 8 then x &&& bitMask bj != 0 else bitSet b bj := by
  have hb : BPB = BSIZE * 8 := rfl
  unfold bitSet
  rw [peek_patch]
  split
  · rcases eq_or_ne (bi / 8) (bj / 8) with he | hne
    · simp [he]
    · rw [if_neg hne, List.getD_eq_getElem?_getD,
        List.getElem?_eq_none (by simp only [List.length_singleton]; omega), Option.getD_none]
  · rw [if_neg (by omega)]

theorem bitSet_setBit (hi : bi < BPB) :
    bitSet (setBit b bi) bj = (decide (bi = bj) || bitSet b bj) := by
  rw [setBit, bitSet_patch hi]
  rcases eq_or_ne bi bj with rfl | hne
  · simp [or_and_self, bitMask_ne_zero]
  · split
    · rename_i he
      rw [or_and_of_and (bitMask_and (by omega)), he]
      simp [hne, bitSet]
    · simp [hne]

theorem bitSet_clearBit (hi : bi < BPB) :
    bitSet (clearBit b bi) bj = (decide (bi ≠ bj) && bitSet b bj) := by
  rw [clearBit, bitSet_patch hi]
  rcases eq_or_ne bi bj with rfl | hne
  · simp [and_not_and_self]
  · split
    · rename_i he
      rw [and_not_and_of_and (bitMask_and (by omega)), he]
      simp [hne, bitSet]
    · simp [hne]

end

end Xv6Bfs.Fs

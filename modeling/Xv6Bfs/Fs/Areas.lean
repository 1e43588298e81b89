import Xv6Bfs.Fs.Inode

namespace Xv6Bfs.Fs

open Lib.Bytes Lib.Execution Disk

namespace State

variable (sb : Superblock)

def bit (s : State) (b : ℕ) : Bool := bitSet (s.cache (sb.bblock b)) (b % BPB)

def mark (s : State) (b : ℕ) : State :=
  s.logWrite (sb.bblock b) (setBit (s.cache (sb.bblock b)) (b % BPB))

def unmark (s : State) (b : ℕ) : State :=
  s.logWrite (sb.bblock b) (clearBit (s.cache (sb.bblock b)) (b % BPB))

variable {sb} {s : State} {b c i j : ℕ} {k : Fin NINODE} {ip : Inode} {d : Dinode} {data : Block}

@[simp] theorem setInode_cache : (s.setInode k ip).cache = s.cache := rfl

@[simp] theorem setInode_icache_self : (s.setInode k ip).icache k = ip := by simp [setInode]

theorem setInode_icache_ne {k' : Fin NINODE} (h : k' ≠ k) :
    (s.setInode k ip).icache k' = s.icache k' := by simp [setInode, h]

@[simp] theorem logWrite_icache : (s.logWrite b data).icache = s.icache := rfl

theorem logWrite_cache : (s.logWrite b data).cache c = if c = b then data else s.cache c := by
  simp [logWrite, Function.update_apply]

@[simp] theorem setInode_bit : (s.setInode k ip).bit sb b = s.bit sb b := rfl

@[simp] theorem setInode_dinode : (s.setInode k ip).dinode sb i = s.dinode sb i := rfl

theorem BPB_pos : 0 < BPB := by decide

theorem eq_of_bblock (h : sb.bblock b = sb.bblock c) (hm : b % BPB = c % BPB) : b = c := by
  have hd : b / BPB = c / BPB := Nat.add_right_cancel h
  rw [← Nat.div_add_mod b BPB, ← Nat.div_add_mod c BPB, hd, hm]

theorem mark_bit : (s.mark sb b).bit sb c = (decide (b = c) || s.bit sb c) := by
  unfold bit mark
  rw [logWrite_cache]
  split
  · rename_i he
    rw [bitSet_setBit (Nat.mod_lt _ BPB_pos), he]
    congr 2
    exact propext ⟨fun hm ↦ eq_of_bblock he.symm hm, fun h ↦ h ▸ rfl⟩
  · rename_i hne
    have : b ≠ c := fun h ↦ hne (h ▸ rfl)
    simp [this]

theorem unmark_bit : (s.unmark sb b).bit sb c = (decide (b ≠ c) && s.bit sb c) := by
  unfold bit unmark
  rw [logWrite_cache]
  split
  · rename_i he
    rw [bitSet_clearBit (Nat.mod_lt _ BPB_pos), he]
    congr 2
    exact propext ⟨fun hm h ↦ hm (h ▸ rfl), fun hm h ↦ hm (eq_of_bblock he.symm h)⟩
  · rename_i hne
    have : b ≠ c := fun h ↦ hne (h ▸ rfl)
    simp [this]

theorem dinode_logWrite_bblock (hi : i < sb.ninodes) :
    (s.logWrite (sb.bblock b) data).dinode sb i = s.dinode sb i := by
  unfold dinode
  rw [logWrite_cache, if_neg (sb.iblock_ne_bblock hi)]

theorem cache_logWrite_bblock (hb : b < sb.size) (hc : sb.datastart ≤ c) :
    (s.logWrite (sb.bblock b) data).cache c = s.cache c := by
  have := sb.bblock_lt hb
  rw [logWrite_cache, if_neg (by omega)]

theorem bit_logWrite_data (hb : sb.datastart ≤ b) (hc : c < sb.size) :
    (s.logWrite b data).bit sb c = s.bit sb c := by
  have := sb.bblock_lt hc
  unfold bit
  rw [logWrite_cache, if_neg (by omega)]

theorem dinode_logWrite_data (hb : sb.datastart ≤ b) (hi : i < sb.ninodes) :
    (s.logWrite b data).dinode sb i = s.dinode sb i := by
  have := sb.iblock_lt_datastart hi
  unfold dinode
  rw [logWrite_cache, if_neg (by omega)]

theorem offset_le (i : ℕ) : DINODE * (i % IPB) + DINODE ≤ BSIZE := by
  have : i % IPB < IPB := Nat.mod_lt _ (by decide)
  simp only [DINODE, IPB, BSIZE] at *
  omega

theorem dinode_putDinode_self (hd : d.Fits) : (s.putDinode sb i d).dinode sb i = d := by
  unfold dinode putDinode
  rw [logWrite_cache, if_pos rfl, getDinode_putDinode_self (offset_le i) hd]

theorem dinode_putDinode_ne (h : i ≠ j) : (s.putDinode sb i d).dinode sb j = s.dinode sb j := by
  unfold dinode putDinode
  rw [logWrite_cache]
  split
  · rename_i he
    -- two inodes of one block
    have hdiv : j / IPB = i / IPB := Nat.add_right_cancel he
    have hne : j % IPB ≠ i % IPB := fun hm ↦ h (by
      rw [← Nat.div_add_mod i IPB, ← Nat.div_add_mod j IPB, hdiv, hm])
    rw [getDinode_putDinode_of_disjoint, he]
    rcases Nat.lt_or_gt_of_ne hne with hlt | hlt
    · exact .inl (by rw [← Nat.mul_succ]; exact Nat.mul_le_mul_left _ hlt)
    · exact .inr (by rw [← Nat.mul_succ]; exact Nat.mul_le_mul_left _ hlt)
  · rfl

theorem cache_putDinode_congr {s' : State} (h : s'.cache = s.cache) :
    (s'.putDinode sb i d).cache = (s.putDinode sb i d).cache := by
  funext c
  unfold putDinode
  rw [logWrite_cache, logWrite_cache, h]

theorem cache_putDinode_dinode {s' : State} (h : s'.cache = (s.putDinode sb i d).cache) :
    (s'.putDinode sb i (s.dinode sb i)).cache = s.cache := by
  funext c
  unfold putDinode dinode at *
  rw [logWrite_cache]
  split
  · rename_i hc
    rw [h, logWrite_cache, if_pos rfl, Fs.putDinode_putDinode, putDinode_getDinode, hc]
  · rename_i hc
    rw [h, logWrite_cache, if_neg hc]

theorem bit_putDinode (hi : i < sb.ninodes) : (s.putDinode sb i d).bit sb b = s.bit sb b := by
  unfold bit putDinode
  rw [logWrite_cache, if_neg (sb.iblock_ne_bblock hi).symm]

theorem cache_putDinode (hi : i < sb.ninodes) (hc : sb.datastart ≤ c) :
    (s.putDinode sb i d).cache c = s.cache c := by
  have := sb.iblock_lt_datastart hi
  unfold putDinode
  rw [logWrite_cache, if_neg (by omega)]

@[simp] theorem putDinode_icache : (s.putDinode sb i d).icache = s.icache := rfl

theorem iupdate_setInode : (s.setInode k ip).iupdate sb k =
    (s.setInode k ip).putDinode sb ip.inum ip.toDinode := by simp [iupdate]

theorem dinode_fits : (s.dinode sb i).Fits := getDinode_fits

end State

end Xv6Bfs.Fs

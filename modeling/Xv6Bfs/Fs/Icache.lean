import Xv6Bfs.Fs.Itrunc

namespace Xv6Bfs.Fs

open Lib.Bytes Lib.Execution Lib.Ownership Disk State

variable {sb : Superblock} {s s' : State} {k : Fin NINODE} {ip : Inode} {d : Dinode} {i : ℕ}
  {icache : Fin NINODE → Inode} {ino : ℕ → Dinode}

/-- The slots of the inode cache that are in use, over the inodes on the disk. -/
structure Slots (sb : Superblock) (icache : Fin NINODE → Inode) (ino : ℕ → Dinode) : Prop where
  inum : ∀ k, 0 < (icache k).ref → (icache k).inum < sb.ninodes
  cached : ∀ k, 0 < (icache k).ref → (icache k).valid = true →
    (icache k).toDinode = ino (icache k).inum ∧ (icache k).type ≠ 0
  distinct : ∀ k k', 0 < (icache k).ref → 0 < (icache k').ref →
    (icache k).inum = (icache k').inum → k = k'

namespace Slots

theorem set (h : Slots sb icache ino) (hinum : 0 < ip.ref → ip.inum < sb.ninodes)
    (hcached : 0 < ip.ref → ip.valid = true → ip.toDinode = ino ip.inum ∧ ip.type ≠ 0)
    (hdistinct : ∀ k', k' ≠ k → 0 < ip.ref → 0 < (icache k').ref → (icache k').inum ≠ ip.inum) :
    Slots sb (Function.update icache k ip) ino := by
  refine ⟨fun k' hr ↦ ?_, fun k' hr hv ↦ ?_, fun k₁ k₂ hr₁ hr₂ he ↦ ?_⟩
  · rcases eq_or_ne k' k with rfl | hk
    · simp only [Function.update_self] at hr ⊢
      exact hinum hr
    · simp only [Function.update_of_ne hk] at hr ⊢
      exact h.inum k' hr
  · rcases eq_or_ne k' k with rfl | hk
    · simp only [Function.update_self] at hr hv ⊢
      exact hcached hr hv
    · simp only [Function.update_of_ne hk] at hr hv ⊢
      exact h.cached k' hr hv
  · by_cases h₁ : k₁ = k <;> by_cases h₂ : k₂ = k <;>
      simp only [h₁, h₂, Function.update_self, ne_eq, not_false_eq_true, Function.update_of_ne]
        at hr₁ hr₂ he ⊢
    · exact absurd he.symm (hdistinct k₂ h₂ hr₁ hr₂)
    · exact absurd he (hdistinct k₁ h₁ hr₂ hr₁)
    · exact h.distinct k₁ k₂ hr₁ hr₂ he

theorem set_same (h : Slots sb icache ino) (hr : 0 < (icache k).ref)
    (hinum : ip.inum = (icache k).inum)
    (hcached : 0 < ip.ref → ip.valid = true → ip.toDinode = ino ip.inum ∧ ip.type ≠ 0) :
    Slots sb (Function.update icache k ip) ino :=
  h.set (fun _ ↦ hinum ▸ h.inum k hr) hcached
    (fun k' hk _ hr' he ↦ hk (h.distinct k' k hr' hr (he.trans hinum)))

theorem update_ino (h : Slots sb icache ino)
    (hi : ∀ k, 0 < (icache k).ref → (icache k).valid = true → (icache k).inum ≠ i) :
    Slots sb icache (Function.update ino i d) := by
  refine ⟨h.inum, fun k hr hv ↦ ?_, h.distinct⟩
  rw [Function.update_of_ne (hi k hr hv)]
  exact h.cached k hr hv

theorem update_both (h : Slots sb icache ino) (hr : 0 < (icache k).ref)
    (hinum : ip.inum = (icache k).inum) (hd : ip.valid = true → ip.toDinode = d ∧ ip.type ≠ 0) :
    Slots sb (Function.update icache k ip) (Function.update ino (icache k).inum d) := by
  -- without a valid copy of it the inode may change
  have hinvalid : Slots sb (Function.update icache k { ip with valid := false }) ino :=
    h.set_same hr hinum (by simp)
  have hino := hinvalid.update_ino (i := (icache k).inum) (d := d) (fun k' hr' hv' he ↦ by
    rcases eq_or_ne k' k with rfl | hk
    · simp at hv'
    · rw [Function.update_of_ne hk] at hr' he
      exact hk (h.distinct k' k hr' hr he))
  have hset : Slots sb (Function.update (Function.update icache k { ip with valid := false }) k ip) _ :=
    hino.set (fun _ ↦ hinum ▸ h.inum k hr)
    (fun _ hv ↦ by rw [hinum, Function.update_self]; exact hd hv)
    (fun k' hk _ hr' he ↦ by
      rw [Function.update_of_ne hk] at hr' he
      exact hk (h.distinct k' k hr' hr (he.trans hinum)))
  rwa [Function.update_idem] at hset

end Slots

namespace WellFormed

theorem slots (h : WellFormed sb s) : Slots sb s.icache (s.dinode sb) := ⟨h.inum, h.cached, h.distinct⟩

theorem of_slots (h : WellFormed sb s) (hcache : s'.cache = s.cache)
    (hs : Slots sb s'.icache (s.dinode sb)) : WellFormed sb s' := by
  obtain ⟨cache, icache, logged⟩ := s'
  obtain rfl : cache = s.cache := hcache
  exact ⟨h.owned, h.bits, h.noHoles, hs.inum, hs.cached, hs.distinct⟩

theorem dinode_putDinode (hd : d.Fits) :
    (s.putDinode sb i d).dinode sb = Function.update (s.dinode sb) i d := by
  funext j
  rcases eq_or_ne j i with rfl | hj
  · rw [dinode_putDinode_self hd, Function.update_self]
  · rw [dinode_putDinode_ne hj.symm, Function.update_of_ne hj]

theorem own_putDinode (h : WellFormed sb s) (hi : i < sb.ninodes) (hd : d.Fits)
    (hplaces : ∀ p, own sb s.cache (Function.update (s.dinode sb) i d) (i, p) =
      own sb s.cache (s.dinode sb) (i, p)) :
    own sb (s.putDinode sb i d).cache ((s.putDinode sb i d).dinode sb) =
      own sb s.cache (s.dinode sb) := by
  have hsame : own sb s.cache (Function.update (s.dinode sb) i d) = own sb s.cache (s.dinode sb) := by
    funext ⟨j, p⟩
    rcases eq_or_ne j i with rfl | hj
    · exact hplaces p
    · exact own_congr (by simp [hj]) (fun _ _ _ ↦ by rw [Function.update_of_ne hj])
  rw [dinode_putDinode hd, own_data (fun j c hc ↦ ?_), hsame]
  rw [hsame] at hc
  exact cache_putDinode hi (h.owned.mem _ _ hc).1

theorem of_putDinode (h : WellFormed sb s) (hi : i < sb.ninodes) (hd : d.Fits)
    (hcache : s'.cache = (s.putDinode sb i d).cache)
    (hplaces : ∀ p, own sb s.cache (Function.update (s.dinode sb) i d) (i, p) =
      own sb s.cache (s.dinode sb) (i, p))
    (hn : d.type ≠ 0 → NoHoles (own sb s.cache (s.dinode sb)) i (blocksOf d.size))
    (hs : Slots sb s'.icache (Function.update (s.dinode sb) i d)) : WellFormed sb s' := by
  obtain ⟨cache, icache, logged⟩ := s'
  obtain rfl : cache = (s.putDinode sb i d).cache := hcache
  have hdinode : (s.putDinode sb i d).dinode sb = Function.update (s.dinode sb) i d :=
    dinode_putDinode hd
  have hown := h.own_putDinode hi hd hplaces
  have hbit : ∀ b, (s.putDinode sb i d).bit sb b = s.bit sb b := fun _ ↦ bit_putDinode hi
  refine ⟨?_, fun b hb ↦ (hbit b).trans (h.bits b hb), fun j hj ht ↦ ?_, hs.inum, ?_, hs.distinct⟩
  · exact Partition.congr h.owned (fun b _ ↦ by rw [← hbit]; rfl) (fun x ↦ congrFun hown x)
  · change (dinode sb (s.putDinode sb i d) j).type ≠ 0 at ht
    change NoHoles (own sb (s.putDinode sb i d).cache ((s.putDinode sb i d).dinode sb)) j
      (blocksOf ((s.putDinode sb i d).dinode sb j).size)
    rw [hown]
    rw [hdinode] at ht ⊢
    rcases eq_or_ne j i with rfl | hji
    · rw [Function.update_self] at ht ⊢
      exact hn ht
    · rw [Function.update_of_ne hji] at ht ⊢
      exact h.noHoles j hj ht
  · rw [← hdinode] at hs
    exact hs.cached

theorem put_empty (h : WellFormed sb s) (hi : i < sb.ninodes) (hfree : (s.dinode sb i).type = 0)
    (hd : d.Fits) (haddrs : ∀ j, d.addrs j = 0) (hsize : d.size = 0) :
    WellFormed sb (s.putDinode sb i d) := by
  have hnone : ∀ p, own sb s.cache (s.dinode sb) (i, p) = none := by
    simp [own, hfree]
  refine h.of_putDinode hi hd rfl (fun p ↦ ?_) (fun _ ↦ ?_)
    (h.slots.update_ino fun k hr hv he ↦ ?_)
  · rw [hnone]
    unfold own
    rw [if_neg]
    rintro ⟨-, -, -, ha⟩
    rw [Function.update_self] at ha
    exact ha (addr_eq_zero haddrs p)
  · rw [hsize]
    exact .empty hnone
  · obtain ⟨hd, hne⟩ := h.cached k hr hv
    rw [he] at hd
    exact hne (by rw [hd, hfree])

end WellFormed

theorem NoHoles.own_eq_none {data : Image} {p : ℕ} (h : NoHoles (own sb data ino) i (blocksOf 0)) :
    own sb data ino (i, p) = none := by
  by_contra hne
  obtain ⟨c, hc⟩ := Option.ne_none_iff_exists'.mp hne
  rcases Nat.lt_or_eq_of_le (own_eq_some.mp hc).2.2.1 with hp | rfl
  · exact absurd ((h.block p hp).mp hne) (by simp [blocksOf, BSIZE])
  · exact absurd (h.indirect.mp hne) (by simp [blocksOf, BSIZE])

structure Consistent (sb : Superblock) (s : State) : Prop extends WellFormed sb s where
  locked : ∀ k, (s.icache k).locked = true → 0 < (s.icache k).ref ∧ (s.icache k).valid = true

structure Gets (i : ℕ) (s : State) (k : Fin NINODE) (s' : State) : Prop where
  cache : s'.cache = s.cache
  others : ∀ k', k' ≠ k → s'.icache k' = s.icache k'
  self : (0 < (s.icache k).ref ∧ (s.icache k).inum = i ∧
      s'.icache k = { s.icache k with ref := (s.icache k).ref + 1 }) ∨
    ((∀ k', 0 < (s.icache k').ref → (s.icache k').inum ≠ i) ∧ (s.icache k).ref = 0 ∧
      s'.icache k = { s.icache k with inum := i, ref := 1, valid := false })

theorem iget_ensures : Ensures (fun r ↦ Gets i s r.1 r.2)
    (fun e ↦ e = .igetNoInodes ∧ ∀ k, 0 < (s.icache k).ref) (s.iget i) := by
  unfold iget
  split
  · rename_i k hfind
    have := List.find?_some hfind
    simp only [decide_eq_true_eq] at this
    exact ⟨rfl, fun k' hk ↦ setInode_icache_ne hk, .inl ⟨this.1, this.2, setInode_icache_self⟩⟩
  · rename_i hnone
    have hfresh : ∀ k, 0 < (s.icache k).ref → (s.icache k).inum ≠ i := by
      simpa using hnone
    split
    · rename_i k hfind
      have := List.find?_some hfind
      simp only [decide_eq_true_eq] at this
      exact ⟨rfl, fun k' hk ↦ setInode_icache_ne hk, .inr ⟨hfresh, this, setInode_icache_self⟩⟩
    · rename_i hfull
      exact ⟨rfl, by simpa [Nat.pos_iff_ne_zero] using hfull⟩

/-- The changes that `sysfile.c` makes to an inode, with the `iupdate` that follows them. -/
def State.setAttrs (sb : Superblock) (k : Fin NINODE) (major minor nlink : ℕ) (s : State) : State :=
  (s.setInode k { s.icache k with major := major, minor := minor, nlink := nlink }).iupdate sb k

namespace Consistent

section

variable (h : Consistent sb s)
include h

theorem of_slot (hw : WellFormed sb s') (hothers : ∀ k', k' ≠ k → s'.icache k' = s.icache k')
    (hself : (s'.icache k).locked = true → 0 < (s'.icache k).ref ∧ (s'.icache k).valid = true) :
    Consistent sb s' := by
  refine ⟨hw, fun k' hl ↦ ?_⟩
  rcases eq_or_ne k' k with rfl | hk
  · exact hself hl
  · rw [hothers k' hk] at hl ⊢
    exact h.locked k' hl

theorem setInode (hr : 0 < (s.icache k).ref) (hinum : ip.inum = (s.icache k).inum)
    (hcached : 0 < ip.ref → ip.valid = true → ip.toDinode = s.dinode sb ip.inum ∧ ip.type ≠ 0)
    (hlocked : ip.locked = true → 0 < ip.ref ∧ ip.valid = true) : Consistent sb (s.setInode k ip) :=
  h.of_slot (k := k) (h.of_slots rfl (h.slots.set_same hr hinum hcached))
    (fun _ hk ↦ setInode_icache_ne hk) (by rwa [setInode_icache_self])

theorem gets (hi : i < sb.ninodes) (g : Gets i s k s') : Consistent sb s' := by
  have hicache : s'.icache = Function.update s.icache k (s'.icache k) := by
    funext k'
    rcases eq_or_ne k' k with rfl | hk
    · simp
    · rw [Function.update_of_ne hk, g.others k' hk]
  rcases g.self with ⟨hr, he, hself⟩ | ⟨hfresh, hr, hself⟩
  · refine h.of_slot (h.of_slots g.cache ?_) g.others (fun hl ↦ ?_)
    · rw [hicache, hself]
      exact h.slots.set_same hr rfl (fun _ hv ↦ h.cached k hr hv)
    · rw [hself] at hl ⊢
      exact ⟨Nat.succ_pos _, (h.locked k hl).2⟩
  · refine h.of_slot (h.of_slots g.cache ?_) g.others (fun hl ↦ ?_)
    · rw [hicache, hself]
      exact h.slots.set (fun _ ↦ hi) (by simp) (fun k' _ _ hr' ↦ hfresh k' hr')
    · rw [hself] at hl
      exact absurd (h.locked k hl).1 (by omega)

theorem idup (hr : 0 < (s.icache k).ref) : Consistent sb (s.idup k) :=
  h.setInode hr rfl (fun _ hv ↦ h.cached k hr hv) (fun hl ↦ ⟨Nat.succ_pos _, (h.locked k hl).2⟩)

theorem ilock :
    Ensures (Consistent sb)
    (fun e ↦ e = .ilock ∨ e = .sleeps ∨ e = .ilockNoType) (s.ilock sb k) := by
  unfold State.ilock
  split
  · exact .inl rfl
  · rename_i hr
    have hr : 0 < (s.icache k).ref := by omega
    split
    · exact .inr (.inl rfl)
    · split
      · rename_i hv
        exact h.setInode hr rfl (fun _ hv ↦ h.cached k hr hv) (fun _ ↦ ⟨hr, hv⟩)
      · simp only
        split
        · exact .inr (.inr rfl)
        · rename_i ht
          exact h.setInode hr rfl (fun _ _ ↦ ⟨rfl, ht⟩) (fun _ ↦ ⟨hr, rfl⟩)

theorem iunlock : Ensures (Consistent sb) (fun e ↦ e = .iunlock) (s.iunlock k) := by
  unfold State.iunlock
  split
  · rfl
  · rename_i hno
    have hr : 0 < (s.icache k).ref := by omega
    exact h.setInode hr rfl (fun _ hv ↦ h.cached k hr hv) (by simp)

theorem ialloc {type : ℕ} (ht : type < 2 ^ 16) :
    Ensures (fun r ↦ Consistent sb r.2) (fun e ↦ e = .iallocNoInodes ∨ e = .igetNoInodes)
      (s.ialloc sb type) := by
  unfold State.ialloc
  split
  · rename_i i hfind
    have hfree : (s.dinode sb i).type = 0 := by simpa using List.find?_some hfind
    have hi : i < sb.ninodes := by
      have := List.mem_range'_1.mp (List.mem_of_find?_eq_some hfind)
      omega
    have hfits : (⟨type, 0, 0, 0, 0, fun _ ↦ 0⟩ : Dinode).Fits :=
      ⟨ht, Nat.two_pow_pos 16, Nat.two_pow_pos 16, Nat.two_pow_pos 16, Nat.two_pow_pos 32,
        fun _ ↦ Nat.two_pow_pos 32⟩
    have hw : WellFormed sb (s.putDinode sb i ⟨type, 0, 0, 0, 0, fun _ ↦ 0⟩) :=
      h.put_empty hi hfree hfits (fun _ ↦ rfl) rfl
    exact (iget_ensures.weaken fun e he ↦ .inr he.1).mono
      (fun r hr ↦ (⟨hw, h.locked⟩ : Consistent sb _).gets hi hr)
  · exact .inl rfl

theorem setAttrs (hl : (s.icache k).locked = true) {major minor nlink : ℕ}
    (hmajor : major < 2 ^ 16) (hminor : minor < 2 ^ 16) (hnlink : nlink < 2 ^ 16) :
    Consistent sb (s.setAttrs sb k major minor nlink) := by
  obtain ⟨hr, hv⟩ := h.locked k hl
  obtain ⟨hd, ht⟩ := h.cached k hr hv
  have hfits : (s.icache k).toDinode.Fits := hd ▸ dinode_fits
  have htype : (s.dinode sb (s.icache k).inum).type = (s.icache k).type := by rw [← hd]
  rw [State.setAttrs, iupdate_setInode]
  refine h.of_slot (k := k) (h.of_putDinode (h.inum k hr) (d := { (s.icache k).toDinode with
    major := major, minor := minor, nlink := nlink }) ⟨hfits.type, hmajor, hminor, hnlink, hfits.size,
      hfits.addrs⟩ rfl (fun p ↦ ?_) (fun _ ↦ ?_) ?_) (fun k' hk ↦ setInode_icache_ne hk) (fun _ ↦ ?_)
  · refine own_congr (by rw [Function.update_self, htype]) (fun _ _ _ ↦ ?_)
    rw [Function.update_self, ← hd]
    rfl
  · have := h.noHoles _ (h.inum k hr) (by rwa [htype])
    rwa [← hd] at this
  · exact h.slots.update_both hr rfl (fun _ ↦ ⟨rfl, ht⟩)
  · rw [putDinode_icache, setInode_icache_self]
    exact ⟨hr, hv⟩

end

theorem free (ip : Inode) (h : Consistent sb s) (hr : 0 < (s.icache k).ref) (hv : (s.icache k).valid = true)
    (hsize : (s.icache k).size = 0) (hl : ip.locked = false) (hinum : ip.inum = (s.icache k).inum)
    (hvalid : ip.valid = false)
    (hcache : s'.cache =
      (s.putDinode sb (s.icache k).inum { (s.icache k).toDinode with type := 0 }).cache)
    (hicache : s'.icache = Function.update s.icache k ip) : Consistent sb s' := by
  obtain ⟨hd, ht⟩ := h.cached k hr hv
  have hfits : (s.icache k).toDinode.Fits := hd ▸ dinode_fits
  have hholes := h.noHoles _ (h.inum k hr) (by rwa [← hd])
  rw [← hd, hsize] at hholes
  refine h.of_slot (k := k) (h.of_putDinode (h.inum k hr) (d := { (s.icache k).toDinode with type := 0 })
    ⟨Nat.two_pow_pos 16, hfits.major, hfits.minor, hfits.nlink, hfits.size, hfits.addrs⟩ hcache
    (fun p ↦ ?_) (by simp) ?_) (fun k' hk ↦ by rw [hicache, Function.update_of_ne hk]) (fun hl' ↦ ?_)
  · rw [hholes.own_eq_none]
    simp [own]
  · rw [hicache]
    exact h.slots.update_both hr hinum (by simp [hvalid])
  · rw [hicache, Function.update_self, hl] at hl'
    cases hl'

theorem iput (h : Consistent sb s) (hr : 0 < (s.icache k).ref) :
    Ensures (Consistent sb) (fun e ↦ e = .sleeps) (s.iput sb k) := by
  unfold State.iput
  split
  · rfl
  · rename_i hl
    rw [Bool.not_eq_true] at hl
    split
    · rename_i hfree
      refine Ensures.bind ((h.toWellFormed.itrunc hr hfree.1).weaken fun e he ↦ he.elim)
        (fun s₁ ⟨hw, hothers, hself, _⟩ ↦ ?_)
      have hok : Consistent sb s₁ := h.of_slot hw hothers (fun hl' ↦ by
        rw [hself] at hl'
        simp [hl] at hl')
      refine hok.free (k := k) { s₁.icache k with
        type := 0, valid := false, ref := (s₁.icache k).ref - 1 } ?_ ?_ ?_ ?_ rfl rfl ?_ ?_
      · rwa [hself]
      · rw [hself]
        exact hfree.1
      · rw [hself]
      · rw [hself]
        exact hl
      · rw [iupdate_setInode]
        rfl
      · rw [iupdate_setInode]
        simp [State.setInode]
    · refine h.setInode hr rfl (fun _ hv ↦ h.cached k hr hv) (fun hl' ↦ ?_)
      rw [hl] at hl'
      cases hl'

end Consistent

end Xv6Bfs.Fs

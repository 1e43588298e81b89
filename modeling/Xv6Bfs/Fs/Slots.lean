import Xv6Bfs.Fs.Icache

namespace Xv6Bfs.Fs

open Lib.Execution Disk State

variable {sb : Superblock} {s s' s'' : State} {k : Fin NINODE}

/-- The disk is the same, and the slots of the inode cache hold the same inodes with the same
references. -/
structure SameRefs (s s' : State) : Prop where
  cache : s'.cache = s.cache
  inum : ∀ k, (s'.icache k).inum = (s.icache k).inum
  ref : ∀ k, (s'.icache k).ref = (s.icache k).ref

namespace SameRefs

theorem setInode {ip : Inode} (hinum : ip.inum = (s.icache k).inum) (href : ip.ref = (s.icache k).ref) :
    SameRefs s (s.setInode k ip) := by
  refine ⟨rfl, fun k' ↦ ?_, fun k' ↦ ?_⟩ <;> rcases eq_or_ne k' k with rfl | hk
  · rw [setInode_icache_self, hinum]
  · rw [setInode_icache_ne hk]
  · rw [setInode_icache_self, href]
  · rw [setInode_icache_ne hk]

end SameRefs

structure Locks (sb : Superblock) (k : Fin NINODE) (b : Bool) (s s' : State) : Prop
    extends SameRefs s s' where
  consistent : Consistent sb s'
  others : ∀ k', k' ≠ k → s'.icache k' = s.icache k'
  before : (s.icache k).locked = !b
  self : (s'.icache k).locked = b

theorem ilock_ensures (h : Consistent sb s) (hr : 0 < (s.icache k).ref) :
    Ensures (Locks sb k true s) (fun e ↦ e = .sleeps ∧ (s.icache k).locked = true ∨
      e = .ilockNoType ∧ (s.dinode sb (s.icache k).inum).type = 0) (s.ilock sb k) := by
  have hok : Ensures (Consistent sb) (fun _ ↦ True) (s.ilock sb k) :=
    h.ilock.anyError
  unfold ilock at hok ⊢
  rw [if_neg (by omega)] at hok ⊢
  split at hok
  · rename_i hl
    rw [if_pos hl]
    exact .inl ⟨rfl, hl⟩
  rename_i hl
  rw [if_neg hl]
  rw [Bool.not_eq_true] at hl
  split at hok
  · rename_i hv
    rw [if_pos hv]
    exact ⟨.setInode rfl rfl, hok, fun k' hk ↦ setInode_icache_ne hk, hl, by rw [setInode_icache_self]⟩
  rename_i hv
  rw [if_neg hv]
  dsimp only at hok ⊢
  split at hok
  · rename_i ht
    rw [if_pos ht]
    exact .inr ⟨rfl, ht⟩
  · rename_i ht
    rw [if_neg ht]
    exact ⟨.setInode rfl rfl, hok, fun k' hk ↦ setInode_icache_ne hk, hl, by rw [setInode_icache_self]⟩

theorem iunlock_ok (h : Consistent sb s) (hl : (s.icache k).locked = true) :
    ∃ s', s.iunlock k = .ok s' ∧ Locks sb k false s s' ∧
      s'.icache k = { s.icache k with locked := false } := by
  have hr := (h.locked k hl).1
  have heq : s.iunlock k = .ok (s.setInode k { s.icache k with locked := false }) := by
    rw [iunlock, if_neg (by simp [hl]; omega)]
  refine ⟨_, heq, ⟨.setInode rfl rfl, ?_, fun k' hk ↦ setInode_icache_ne hk, hl, ?_⟩,
    setInode_icache_self⟩
  swap
  · rw [setInode_icache_self]
  have hok := h.iunlock (k := k)
  rwa [heq] at hok

theorem Gets.ref_eq {i : ℕ} (g : Gets i s k s') : (s'.icache k).ref = (s.icache k).ref + 1 := by
  rcases g.self with ⟨-, -, hself⟩ | ⟨-, h0, hself⟩
  · rw [hself]
  · rw [hself, h0]

theorem gets_idup (hr : 0 < (s.icache k).ref) : Gets (s.icache k).inum s k (s.idup k) :=
  ⟨rfl, fun _ hk ↦ setInode_icache_ne hk, .inl ⟨hr, rfl, setInode_icache_self⟩⟩

theorem Gets.locked_eq {i : ℕ} (g : Gets i s k s') (k' : Fin NINODE) :
    (s'.icache k').locked = (s.icache k').locked := by
  by_cases hk : k' = k
  · subst hk
    rcases g.self with ⟨-, -, hself⟩ | ⟨-, -, hself⟩ <;> rw [hself]
  · rw [g.others k' hk]

theorem Gets.inum_eq {i : ℕ} (g : Gets i s k s') {k' : Fin NINODE} (hr : 0 < (s.icache k').ref) :
    (s'.icache k').inum = (s.icache k').inum := by
  by_cases hk : k' = k
  · subst hk
    rcases g.self with ⟨-, -, hself⟩ | ⟨-, h0, -⟩
    · rw [hself]
    · omega
  · rw [g.others k' hk]

def Last (k : Fin NINODE) (s : State) : Prop :=
  (s.icache k).valid = true ∧ (s.icache k).nlink = 0 ∧ (s.icache k).ref = 1

/-- Slot `k` has one reference less. With the last one to an inode without a link, the inode is freed,
and its blocks. -/
structure Releases (sb : Superblock) (k : Fin NINODE) (s s' : State) : Prop where
  consistent : Consistent sb s'
  others : ∀ k', k' ≠ k → s'.icache k' = s.icache k'
  inum : (s'.icache k).inum = (s.icache k).inum
  ref : (s'.icache k).ref = (s.icache k).ref - 1
  locked : (s'.icache k).locked = false
  kept : ¬ Last k s → s'.cache = s.cache
  data : ∀ c, sb.datastart ≤ c → s'.cache c = s.cache c
  dinode : ∀ d, d < sb.ninodes → d ≠ (s.icache k).inum → s'.dinode sb d = s.dinode sb d
  freed : Last k s → (s'.dinode sb (s.icache k).inum).type = 0

theorem Releases.inum_eq (h : Releases sb k s s') (k' : Fin NINODE) :
    (s'.icache k').inum = (s.icache k').inum := by
  by_cases hk : k' = k
  · rw [hk, h.inum]
  · rw [h.others k' hk]

theorem iput_ensures (h : Consistent sb s) (hr : 0 < (s.icache k).ref) :
    Ensures (Releases sb k s) (fun e ↦ e = .sleeps ∧ (s.icache k).locked = true) (s.iput sb k) := by
  have hok : Ensures (Consistent sb) (fun _ ↦ True) (s.iput sb k) :=
    (h.iput hr).anyError
  unfold iput at hok ⊢
  split
  · rename_i hl
    exact ⟨rfl, hl⟩
  rename_i hl
  rw [if_neg hl] at hok
  rw [Bool.not_eq_true] at hl
  split
  · rename_i hlast
    obtain ⟨s₁, h₁, htr, -⟩ := (itrunc_ensures h.toWellFormed hr hlast.1).exists_ok
    rw [if_pos hlast, h₁, ok_bind] at hok
    rw [h₁, ok_bind]
    have hlt := h.inum k hr
    have hfits : { (s₁.icache k).toDinode with type := 0 }.Fits := by
      have hfits : (s.icache k).toDinode.Fits := (h.cached k hr hlast.1).1 ▸ dinode_fits
      rw [htr.self]
      exact ⟨Nat.two_pow_pos 16, hfits.major, hfits.minor, hfits.nlink, Nat.two_pow_pos 32,
        fun _ ↦ Nat.two_pow_pos 32⟩
    have hinum : (s₁.icache k).inum = (s.icache k).inum := by rw [htr.self]
    rw [iupdate_setInode] at hok ⊢
    refine ⟨hok, fun k' hk ↦ ?_, ?_, ?_, ?_, fun hn ↦ absurd hlast hn, fun c hc ↦ ?_,
      fun d hd hne ↦ ?_, fun _ ↦ ?_⟩
    · rw [setInode_icache_ne hk, setInode_icache_ne hk, putDinode_icache, setInode_icache_ne hk,
        htr.others k' hk]
    · simp only [setInode_icache_self, putDinode_icache, hinum]
    · simp only [setInode_icache_self, putDinode_icache, htr.self]
    · simp only [setInode_icache_self, putDinode_icache, htr.self, hl]
    · rw [setInode_cache, setInode_cache]
      simp only [hinum]
      rw [cache_putDinode hlt hc, setInode_cache, htr.cache c hc]
    · rw [setInode_dinode, setInode_dinode]
      simp only [hinum]
      rw [dinode_putDinode_ne hne.symm, setInode_dinode, htr.dinode d hd hne]
    · rw [setInode_dinode, setInode_dinode]
      simp only [hinum]
      rw [dinode_putDinode_self hfits]
  · rename_i hlast
    rw [if_neg hlast] at hok
    refine ⟨hok, fun k' hk ↦ setInode_icache_ne hk, ?_, ?_, ?_, fun _ ↦ rfl, fun _ _ ↦ rfl,
      fun _ _ _ ↦ rfl, fun hl ↦ absurd hl hlast⟩
    · rw [setInode_icache_self]
    · rw [setInode_icache_self]
    · rw [setInode_icache_self]
      exact hl

theorem iunlock_iput_ensures (h : Consistent sb s) (hl : (s.icache k).locked = true) :
    Ensures (Releases sb k s) (fun _ ↦ False) (s.iunlock k >>= fun s ↦ s.iput sb k) := by
  obtain ⟨s₁, h₁, hlock, hself⟩ := iunlock_ok h hl
  have hr : 0 < (s₁.icache k).ref := by
    rw [hlock.ref]
    exact (h.locked k hl).1
  have hlast : Last k s₁ ↔ Last k s := by rw [Last, hself, Last]
  have hdinode (d : ℕ) : s₁.dinode sb d = s.dinode sb d := by rw [dinode, hlock.cache, dinode]
  rw [h₁, ok_bind]
  refine ((iput_ensures hlock.consistent hr).weaken fun e he ↦ ?_).mono fun s₂ hrel ↦ ?_
  · rw [hlock.self] at he
    cases he.2
  · refine ⟨hrel.consistent, fun k' hk ↦ ?_, ?_, ?_, hrel.locked, fun hn ↦ ?_, fun c hc ↦ ?_,
      fun d hd hne ↦ ?_, fun hl ↦ ?_⟩
    · rw [hrel.others k' hk, hlock.others k' hk]
    · rw [hrel.inum, hlock.inum]
    · rw [hrel.ref, hlock.ref]
    · rw [hrel.kept (mt hlast.mp hn), hlock.cache]
    · rw [hrel.data c hc, hlock.cache]
    · rw [hrel.dinode d hd (by rwa [hlock.inum]), hdinode]
    · rw [← hlock.inum, hrel.freed (hlast.mpr hl)]

end Xv6Bfs.Fs

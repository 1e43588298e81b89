import Xv6Bfs.Fs.Directory

namespace Xv6Bfs.Fs

open Lib.Bytes Lib.Execution Lib.Ownership Disk State

instance (c : Call) : Decidable c.Uint :=
  match c with
  | .readi _ _ _ => inferInstanceAs (Decidable (_ ∧ _))
  | .writei _ _ _ => inferInstanceAs (Decidable (_ ∧ _))

/-- A call of a function of `fs.c` by the rest of the kernel. -/
inductive Op
  | iget (inum : ℕ)
  | ialloc (type : ℕ)
  | idup (k : Fin NINODE)
  | ilock (k : Fin NINODE)
  | iunlock (k : Fin NINODE)
  | iput (k : Fin NINODE)
  | itrunc (k : Fin NINODE)
  | setAttrs (k : Fin NINODE) (major minor nlink : ℕ)
  | call (c : Call)
  | dirlookup (k : Fin NINODE) (name : List UInt8)
  | dirlink (k : Fin NINODE) (name : List UInt8) (inum : ℕ)

namespace Op

variable (sb : Superblock) (devsw : Devsw)

/-- A caller has a reference to the inode, and holds its lock where the function needs it. -/
def step (op : Op) (s : State) : Except Panic State :=
  match op with
  | iget inum => do
    let (_, s) ← s.iget inum
    .ok s
  | ialloc type =>
    if type < 2 ^ 16 then do
      let (_, s) ← s.ialloc sb type
      .ok s
    else .error .disabled
  | idup k => if 0 < (s.icache k).ref then .ok (s.idup k) else .error .disabled
  | ilock k => s.ilock sb k
  | iunlock k => s.iunlock k
  | iput k => if 0 < (s.icache k).ref then s.iput sb k else .error .disabled
  | itrunc k => if (s.icache k).locked then s.itrunc sb k else .error .disabled
  | setAttrs k major minor nlink =>
    if (s.icache k).locked ∧ major < 2 ^ 16 ∧ minor < 2 ^ 16 ∧ nlink < 2 ^ 16 then
      .ok (s.setAttrs sb k major minor nlink)
    else .error .disabled
  | call c =>
    if (s.icache c.slot).locked ∧ c.Uint then do
      let (_, s) ← c.run sb devsw s
      .ok s
    else .error .disabled
  | dirlookup k name =>
    if (s.icache k).locked then do
      let (_, s) ← s.dirlookup sb devsw k name
      .ok s
    else .error .disabled
  | dirlink k name inum =>
    if (s.icache k).locked then do
      let (_, s) ← s.dirlink sb devsw k name inum
      .ok s
    else .error .disabled

def Named (op : Op) (s : State) : Prop :=
  match op with
  | iget inum => inum < sb.ninodes
  | dirlookup k _ => Fs.Named sb k s
  | dirlink k _ _ => Fs.Named sb k s
  | _ => True

variable {sb devsw} {s : State}

theorem run_ensures {c : Call} (h : Consistent sb s) (hl : (s.icache c.slot).locked = true)
    (hu : c.Uint) :
    Ensures (fun r ↦ Consistent sb r.2) (fun e ↦ e = .ballocOutOfBlocks) (c.run sb devsw s) := by
  cases c with
  | readi k off n =>
    obtain ⟨r, hr⟩ : ∃ r, s.readi sb devsw k off n = .ok (r, s) := h.readi hl hu.1 hu.2
    rw [Call.run, hr]
    exact h
  | writei k src off => exact Ensures.bind (h.writei hl hu.2) (fun r hr ↦ hr)

theorem step_ensures {op : Op} (h : Consistent sb s) (hn : op.Named sb s) :
    Ensures (Consistent sb) (fun e ↦ e ≠ .freeingFreeBlock) (op.step sb devsw s) := by
  cases op <;> simp only [step]
  case iget inum =>
    refine Ensures.bind (iget_ensures.weaken fun e he ↦ ?_) (fun r hr ↦ h.gets hn hr)
    simp [he.1]
  case ialloc type =>
    split
    · refine Ensures.bind ((h.ialloc ‹_›).weaken fun e he ↦ ?_) (fun r hr ↦ hr)
      rcases he with rfl | rfl <;> nofun
    · nofun
  case idup k =>
    split
    · exact h.idup ‹_›
    · nofun
  case ilock k =>
    refine h.ilock.weaken fun e he ↦ ?_
    rcases he with rfl | rfl | rfl <;> nofun
  case iunlock k =>
    refine h.iunlock.weaken fun e he ↦ ?_
    simp [he]
  case iput k =>
    split
    · exact (h.iput ‹_›).weaken fun e he ↦ by simp [he]
    · nofun
  case itrunc k =>
    split
    · rename_i hl
      obtain ⟨hr, hv⟩ := h.locked k hl
      refine ((h.toWellFormed.itrunc hr hv).weaken fun e he ↦ he.elim).mono
        (fun s' ⟨hw, hothers, hself, _⟩ ↦ h.of_slot hw hothers fun _ ↦ ?_)
      rw [hself]
      exact ⟨hr, hv⟩
    · nofun
  case setAttrs k major minor nlink =>
    split
    · rename_i hok
      exact h.setAttrs hok.1 hok.2.1 hok.2.2.1 hok.2.2.2
    · nofun
  case call c =>
    split
    · rename_i hok
      exact Ensures.bind ((run_ensures h hok.1 hok.2).weaken fun e he ↦ by simp [he]) (fun r hr ↦ hr)
    · nofun
  case dirlookup k name =>
    split
    · rename_i hl
      refine Ensures.bind ((h.dirlookup hl hn).weaken fun e he ↦ ?_) (fun r hr ↦ hr.1)
      rcases he with rfl | rfl | rfl <;> nofun
    · nofun
  case dirlink k name inum =>
    split
    · rename_i hl
      exact Ensures.bind (h.dirlink hl hn) (fun r hr ↦ hr)
    · nofun

end Op

/-- Every block of the data area is free or at one place of one inode, each inode has the blocks
for its size, and the inodes in memory are those on the disk. -/
structure BlocksOwned (sb : Superblock) (s : State) : Prop where
  area : ∀ i p, i < sb.ninodes → (s.dinode sb i).type ≠ 0 → p ≤ MAXFILE →
    addr s.cache (s.dinode sb i) p ≠ 0 →
    sb.datastart ≤ addr s.cache (s.dinode sb i) p ∧ addr s.cache (s.dinode sb i) p < sb.size ∧
      s.bit sb (addr s.cache (s.dinode sb i) p) = true
  once : ∀ i p j q, i < sb.ninodes → (s.dinode sb i).type ≠ 0 → p ≤ MAXFILE →
    j < sb.ninodes → (s.dinode sb j).type ≠ 0 → q ≤ MAXFILE →
    addr s.cache (s.dinode sb i) p ≠ 0 →
    addr s.cache (s.dinode sb i) p = addr s.cache (s.dinode sb j) q → i = j ∧ p = q
  used : ∀ b, sb.datastart ≤ b → b < sb.size → s.bit sb b = true →
    ∃ i p, i < sb.ninodes ∧ (s.dinode sb i).type ≠ 0 ∧ p ≤ MAXFILE ∧ addr s.cache (s.dinode sb i) p = b
  blocks : ∀ i, i < sb.ninodes → (s.dinode sb i).type ≠ 0 →
    (∀ p, p < MAXFILE → (addr s.cache (s.dinode sb i) p ≠ 0 ↔ p < blocksOf (s.dinode sb i).size)) ∧
    (addr s.cache (s.dinode sb i) MAXFILE ≠ 0 ↔ NDIRECT * BSIZE < (s.dinode sb i).size)
  cached : ∀ k, 0 < (s.icache k).ref → (s.icache k).valid = true → (s.icache k).locked = false →
    (s.icache k).toDinode = s.dinode sb (s.icache k).inum

theorem WellFormed.blocksOwned {sb : Superblock} {s : State} (h : WellFormed sb s) :
    BlocksOwned sb s := by
  have hown : ∀ {i p}, i < sb.ninodes → (s.dinode sb i).type ≠ 0 → p ≤ MAXFILE →
      addr s.cache (s.dinode sb i) p ≠ 0 →
      own sb s.cache (s.dinode sb) (i, p) = some (addr s.cache (s.dinode sb i) p) :=
    fun hi ht hp ha ↦ own_eq_some.mpr ⟨hi, ht, hp, rfl, ha⟩
  have hne : ∀ {i p}, i < sb.ninodes → (s.dinode sb i).type ≠ 0 → p ≤ MAXFILE →
      (addr s.cache (s.dinode sb i) p ≠ 0 ↔ own sb s.cache (s.dinode sb) (i, p) ≠ none) := by
    intro i p hi ht hp
    simp [own, hi, ht, hp]
  refine ⟨fun i p hi ht hp ha ↦ ?_, fun i p j q hi ht hp hj ht' hq ha he ↦ ?_, fun b hlo hhi hb ↦ ?_,
    fun i hi ht ↦ ⟨fun p hp ↦ ?_, ?_⟩, fun k hr hv _ ↦ (h.cached k hr hv).1⟩
  · have hx := hown hi ht hp ha
    exact ⟨(h.owned.mem _ _ hx).1, (h.owned.mem _ _ hx).2, by simpa using h.owned.not_free hx⟩
  · have := h.owned.inj _ _ _ (hown hi ht hp ha) (he ▸ hown hj ht' hq (he ▸ ha))
    simpa using this
  · obtain ⟨⟨i, p⟩, hx⟩ := h.owned.exists_owner (a := b) ⟨hlo, hhi⟩ (by simp [hb])
    obtain ⟨hi, ht, hp, ha, -⟩ := own_eq_some.mp hx
    exact ⟨i, p, hi, ht, hp, ha⟩
  · rw [hne hi ht hp.le, (h.noHoles i hi ht).block p hp]
  · rw [hne hi ht le_rfl, (h.noHoles i hi ht).indirect]
    unfold blocksOf NDIRECT BSIZE
    omega

theorem blocks_have_one_owner {sb : Superblock} {devsw : Devsw} {s : State} (h : Consistent sb s)
    {l : List Op} (hn : Meets (Op.step sb devsw) (Op.Named sb) l s) :
    (∀ s', exec (Op.step sb devsw) l s = .ok s' → BlocksOwned sb s') ∧
      exec (Op.step sb devsw) l s ≠ .error .freeingFreeBlock := by
  have hstep : ∀ (op : Op) s s', Consistent sb s → op.Named sb s → op.step sb devsw s = .ok s' →
      Consistent sb s' := fun op s s' h hn he ↦ (Op.step_ensures h hn).of_ok he
  refine ⟨fun s' he ↦ (exec_invariant_of_meets hstep h hn he).blocksOwned, ?_⟩
  exact exec_ne_error_of_meets hstep (fun op s h hn he ↦ (Op.step_ensures h hn).of_error he rfl) h hn

theorem diskOf_consistent {type n : ℕ} (h : type = T_FILE ∨ type = T_DIR) (hn : n < IPB) (h1 : 1 < n) :
    Consistent (diskOf n hn) (smallInode type) := by
  refine ⟨smallInode_wellFormed h hn h1, fun k hl ↦ ?_⟩
  by_cases hk : k.val = 0
  · simp [smallInode, hk]
  · simp [smallInode, hk] at hl

theorem smallInode_consistent {type : ℕ} (h : type = T_FILE ∨ type = T_DIR) :
    Consistent smallDisk (smallInode type) := diskOf_consistent h _ (by decide)

theorem smallFile_consistent : Consistent smallDisk smallFile := smallInode_consistent (.inl rfl)

def smallRun : List Op :=
  [.call (.writei ⟨0, NINODE_pos⟩ [1, 2, 3] 0), .setAttrs ⟨0, NINODE_pos⟩ 0 0 0,
    .iunlock ⟨0, NINODE_pos⟩, .iput ⟨0, NINODE_pos⟩]

theorem blocks_have_one_owner_small : ∃ s',
    exec (Op.step smallDisk noDevice) smallRun smallFile = .ok s' ∧
      BlocksOwned smallDisk s' := by
  have hrun : Ensures (fun _ ↦ True) (fun _ ↦ False)
      (exec (Op.step smallDisk noDevice) smallRun smallFile) := by decide +kernel
  have hnamed : Meets (Op.step smallDisk noDevice) (Op.Named smallDisk) smallRun
      smallFile :=
    ⟨trivial, fun _ _ ↦ ⟨trivial, fun _ _ ↦ ⟨trivial, fun _ _ ↦ ⟨trivial, fun _ _ ↦ trivial⟩⟩⟩⟩
  obtain ⟨s', he, -⟩ := hrun.exists_ok
  exact ⟨s', he, (blocks_have_one_owner smallFile_consistent hnamed).1 s' he⟩

/-- Inode 1 of the small disk is a directory of one block. Its last entry names inode 17, which would
be where that entry is itself, and the end of its name would be the first block of that inode. -/
def strayEntry : State where
  cache := fun b ↦
    if b = 2 then putDinode (fun _ ↦ 0) DINODE ⟨T_DIR, 0, 0, 1, 80, fun i ↦ if i.val = 0 then 4 else 0⟩
    else if b = 3 then fun i ↦ if i.val = 0 then 31 else 0
    else if b = 4 then patch (patch (patch (fun _ ↦ 0) 0 (dirent 1 [46])) 16 (dirent 1 [46, 46])) 64
      [17, 0, 97, 0, 0, 0, 0, 0, 0, 0, 0, 0, 5, 0, 0, 0]
    else fun _ ↦ 0
  icache := fun _ ↦ ⟨⟨0, 0, 0, 0, 0, fun _ ↦ 0⟩, 0, 0, false, false⟩
  logged := []

theorem strayEntry_dinode : strayEntry.dinode smallDisk 1 =
    ⟨T_DIR, 0, 0, 1, 80, fun i ↦ if i.val = 0 then 4 else 0⟩ :=
  getDinode_putDinode_self (b := fun _ ↦ 0) (o := DINODE) (by decide)
    ⟨by decide, by decide, by decide, by decide, by decide, by decide⟩

theorem strayEntry_free : (strayEntry.dinode smallDisk 0).type = 0 := by decide +kernel

theorem strayEntry_own (x : ℕ × ℕ) : own smallDisk strayEntry.cache (strayEntry.dinode smallDisk) x =
    if x = (1, 0) then some 4 else none := by
  obtain ⟨i, p⟩ := x
  have haddr : addr strayEntry.cache (strayEntry.dinode smallDisk 1) p = if p = 0 then 4 else 0 := by
    rw [strayEntry_dinode]
    unfold addr
    split
    · rfl
    · have : p ≠ 0 := by
        rintro rfl
        simp [NDIRECT] at *
      simp [this, NDIRECT]
  have hcase : i = 0 ∨ i = 1 ∨ 2 ≤ i := by omega
  unfold own
  rcases hcase with rfl | rfl | hi
  · simp [strayEntry_free]
  · by_cases hp : p = 0
    · subst hp
      rw [haddr, strayEntry_dinode]
      decide
    · simp [haddr, hp]
  · have hlt : ¬ i < smallDisk.ninodes := by
      have : smallDisk.ninodes = 2 := rfl
      omega
    have hne : i ≠ 1 := by omega
    simp [hlt, hne]

theorem strayEntry_consistent : Consistent smallDisk strayEntry := by
  have hbits : ∀ b : Fin 8, strayEntry.bit smallDisk b = decide (b.val < 5) := by decide +kernel
  refine ⟨⟨⟨fun x a hx ↦ ?_, fun x y a hx hy ↦ ?_, fun b hb ↦ ?_⟩, fun b hb ↦ ?_, fun i hi ht ↦ ?_, ?_, ?_,
    ?_⟩, ?_⟩
  · rw [strayEntry_own] at hx
    split at hx
    · obtain rfl : 4 = a := by simpa using hx
      exact ⟨by decide, by decide⟩
    · cases hx
  · rw [strayEntry_own] at hx hy
    split at hx <;> split at hy <;> simp_all
  · have hlt : b < 8 := hb.2
    have hlo : 4 ≤ b := hb.1
    have := hbits ⟨b, hlt⟩
    simp only at this
    rw [this]
    simp only [strayEntry_own]
    constructor
    · intro hb5 x hx
      split at hx
      · obtain rfl : 4 = b := by simpa using hx
        simp at hb5
      · cases hx
    · intro hno
      have hne : b ≠ 4 := by
        rintro rfl
        exact hno (1, 0) (by simp)
      simp
      omega
  · have hlt : b < 4 := hb
    have := hbits ⟨b, by omega⟩
    simp only at this
    rw [this]
    simp
    omega
  · have hi2 : i < 2 := hi
    obtain rfl | rfl : i = 0 ∨ i = 1 := by omega
    · exact absurd strayEntry_free ht
    · have hblocks : blocksOf (strayEntry.dinode smallDisk 1).size = 1 := by rw [strayEntry_dinode]; decide
      rw [hblocks]
      refine ⟨fun p hp ↦ ?_, ?_, by decide⟩
      · rw [strayEntry_own]
        simp only [Prod.mk.injEq, true_and]
        split <;> simp <;> omega
      · rw [strayEntry_own]
        decide
  · exact fun k hr ↦ absurd hr (lt_irrefl 0)
  · exact fun k hr ↦ absurd hr (lt_irrefl 0)
  · exact fun k _ hr ↦ absurd hr (lt_irrefl 0)
  · exact fun k hl ↦ absurd hl (by simp [strayEntry])

def strayRun : List Op :=
  [.iget 1, .ilock ⟨0, by decide⟩, .dirlookup ⟨0, by decide⟩ [97], .ilock ⟨1, by decide⟩,
    .iunlock ⟨1, by decide⟩, .iput ⟨1, by decide⟩]

theorem strayEntry_frees_free_block : Consistent smallDisk strayEntry ∧
    exec (Op.step smallDisk noDevice) strayRun strayEntry =
      .error .freeingFreeBlock := by
  have hrun : Ensures (fun _ ↦ False) (· = Panic.freeingFreeBlock)
      (exec (Op.step smallDisk noDevice) strayRun strayEntry) := by decide +kernel
  obtain ⟨e, he, rfl⟩ := hrun.exists_error
  exact ⟨strayEntry_consistent, he⟩

end Xv6Bfs.Fs

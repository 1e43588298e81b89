import Xv6Bfs.Files.Counts

namespace Xv6Bfs.Files

open Lib.Execution Disk Fs Fs.State Sysfile Function

section

variable (sb : Superblock) (devsw : Devsw)

def isdiremptyLoop (dp : Fin NINODE) : List ℕ → State → Except Panic (Bool × State)
  | [], s => .ok (true, s)
  | off :: l, s => do
    let (r, s) ← s.readi sb devsw dp off DIRENT
    match r with
    | none => .error .isdirempty
    | some de =>
      if de.length ≠ DIRENT then .error .isdirempty
      else if deInum de ≠ 0 then .ok (false, s)
      else isdiremptyLoop dp l s

/-- The loop starts after the entries `.` and `..`. -/
def isdirempty (dp : Fin NINODE) (s : State) : Except Panic (Bool × State) :=
  isdiremptyLoop sb devsw dp ((offsets (s.icache dp).size).drop 2) s

def clear (dp : Fin NINODE) (off : ℕ) (s : State) : Except Panic State := do
  let (r, s) ← s.writei sb devsw dp (List.replicate DIRENT 0) off
  if r ≠ some DIRENT then .error .unlinkWritei else .ok s

def icache : Inodes (Fin NINODE) State where
  inum k s := (s.icache k).inum
  attrs k s := ⟨(s.icache k).type, (s.icache k).major, (s.icache k).minor, (s.icache k).nlink⟩
  iget := State.iget
  ialloc := State.ialloc sb
  idup := State.idup
  ilock := State.ilock sb
  iunlock := State.iunlock
  iput := State.iput sb
  setAttrs k a s := (s.setInode k { s.icache k with
    type := a.type, major := a.major, minor := a.minor, nlink := a.nlink }).iupdate sb k
  dirlookup k name := State.dirlookup sb devsw k name.1
  dirlink k name := State.dirlink sb devsw k name.1
  isdirempty := isdirempty sb devsw
  clear := clear sb devsw

end

variable {sb : Superblock} {devsw : Devsw} {s s' s'' : State} {h : Fin NINODE}
  {n k : Multiset (Fin NINODE)}

def Same (s s' : State) : Prop :=
  ∀ h, (s'.icache h).ref = (s.icache h).ref ∧ (s'.icache h).locked = (s.icache h).locked ∧
    (s'.icache h).inum = (s.icache h).inum

namespace Same

theorem refl (s : State) : Same s s := fun _ ↦ ⟨rfl, rfl, rfl⟩

theorem trans (hs : Same s s') (hs' : Same s' s'') : Same s s'' := fun h ↦
  ⟨(hs' h).1.trans (hs h).1, (hs' h).2.1.trans (hs h).2.1, (hs' h).2.2.trans (hs h).2.2⟩

theorem of_icache (hs : s'.icache = s.icache) : Same s s' := fun h ↦ by
  rw [hs]
  exact ⟨rfl, rfl, rfl⟩

theorem setInode {ip : Inode} (hr : ip.ref = (s.icache h).ref) (hl : ip.locked = (s.icache h).locked)
    (hi : ip.inum = (s.icache h).inum) : Same s (s.setInode h ip) := by
  intro h'
  rcases eq_or_ne h' h with rfl | hne
  · simp [State.setInode, hr, hl, hi]
  · simp [State.setInode, hne]

theorem update {ip : Inode} (hr : ip.ref = (s.icache h).ref) (hl : ip.locked = (s.icache h).locked)
    (hi : ip.inum = (s.icache h).inum) : Same s ((s.setInode h ip).iupdate sb h) :=
  (setInode hr hl hi).trans (of_icache rfl)

theorem bfree (b : ℕ) (s : State) : Ensures (Same s) (fun _ ↦ True) (s.bfree sb b) := by
  unfold State.bfree
  dsimp only
  split
  · exact of_icache rfl
  · trivial

theorem balloc (s : State) : Ensures (fun r ↦ Same s r.2) (fun _ ↦ True) (s.balloc sb) := by
  unfold State.balloc
  split
  · exact of_icache rfl
  · trivial

theorem ballocAddr (i : Fin (NDIRECT + 1)) (s : State) :
    Ensures (fun r ↦ Same s r.2) (fun _ ↦ True) (s.ballocAddr sb h i) :=
  (balloc s).bind (fun _ hr ↦ hr.trans (setInode rfl rfl rfl))

theorem ballocEntry (ind bn : ℕ) (s : State) :
    Ensures (fun r ↦ Same s r.2) (fun _ ↦ True) (s.ballocEntry sb ind bn) :=
  (balloc s).bind (fun _ hr ↦ hr.trans (of_icache rfl))

-- the entries of an indirect block are never computed
attribute [local irreducible] word

theorem bmap (bn : ℕ) (s : State) : Ensures (fun r ↦ Same s r.2) (fun _ ↦ True) (s.bmap sb h bn) := by
  unfold State.bmap
  split
  · dsimp only
    split
    · exact ballocAddr _ s
    · exact refl s
  dsimp only
  split
  · have hentry : ∀ ind s₁, Same s s₁ → Ensures (fun r ↦ Same s r.2) (fun _ ↦ True)
        (if word (s₁.cache ind) (bn - NDIRECT) = 0 then s₁.ballocEntry sb ind (bn - NDIRECT)
          else .ok (word (s₁.cache ind) (bn - NDIRECT), s₁)) := by
      intro ind s₁ h₁
      split
      · exact (ballocEntry ind _ s₁).mono fun r hr ↦ h₁.trans hr
      · exact h₁
    split
    · apply (ballocAddr _ s).bind
      rintro ⟨ind, s₁⟩ h₁
      exact hentry ind s₁ h₁
    · simp only [ok_bind]
      exact hentry _ s (refl s)
  · trivial

theorem itrunc (h : Fin NINODE) (s : State) : Ensures (Same s) (fun _ ↦ True) (s.itrunc sb h) := by
  have hlast : ∀ s₂, Same s s₂ →
      Same s ((s₂.setInode h { s₂.icache h with size := 0 }).iupdate sb h) := fun s₂ h₂ ↦
    h₂.trans (update rfl rfl rfl)
  refine Ensures.through (Same s) (Ensures.exec_prefix (fun _ ↦ Same s) ?_ (refl s)) ?_
  · intro _ i _ _ s₁ h₁
    split
    · exact (bfree _ s₁).bind fun s₂ h₂ ↦ (h₁.trans h₂).trans (setInode rfl rfl rfl)
    · exact h₁
  intro s₁ h₁
  dsimp only
  split
  · refine Ensures.through (Same s) (Ensures.exec_prefix (fun _ ↦ Same s) ?_ h₁) ?_
    · intro _ j _ _ s₂ h₂
      split
      · exact (bfree _ s₂).mono fun s₃ h₃ ↦ h₂.trans h₃
      · exact h₂
    intro s₂ h₂
    apply (bfree _ s₂).bind
    intro s₃ h₃
    exact hlast _ ((h₂.trans h₃).trans (setInode rfl rfl rfl))
  · exact hlast s₁ h₁

theorem readLoop (fuel off rest : ℕ) (s : State) :
    Ensures (fun r ↦ Same s r.2) (fun _ ↦ True) (s.readLoop sb h fuel off rest) := by
  induction fuel generalizing off rest s with
  | zero => exact refl s
  | succ fuel ih =>
    unfold State.readLoop
    split
    · exact refl s
    apply (bmap _ s).bind
    rintro ⟨b, s₁⟩ h₁
    apply (ih _ _ s₁).bind
    rintro ⟨tail, s₂⟩ h₂
    exact h₁.trans h₂

theorem writeLoop (fuel : ℕ) (src : List UInt8) (off : ℕ) (s : State) :
    Ensures (Same s) (fun _ ↦ True) (s.writeLoop sb h fuel src off) := by
  induction fuel generalizing src off s with
  | zero => exact refl s
  | succ fuel ih =>
    unfold State.writeLoop
    split
    · exact refl s
    apply (bmap _ s).bind
    rintro ⟨b, s₁⟩ h₁
    exact (ih _ _ _).mono fun s₂ h₂ ↦ h₁.trans ((of_icache rfl).trans h₂)

theorem readi (off len : ℕ) (s : State) :
    Ensures (fun r ↦ Same s r.2) (fun _ ↦ True) (s.readi sb devsw h off len) := by
  unfold State.readi
  dsimp only
  split
  · split
    · exact refl s
    · split <;> exact refl s
  split
  · exact refl s
  · exact (readLoop _ _ _ s).bind (fun r hr ↦ hr)

theorem writei (src : List UInt8) (off : ℕ) (s : State) :
    Ensures (fun r ↦ Same s r.2) (fun _ ↦ True) (s.writei sb devsw h src off) := by
  unfold State.writei
  dsimp only
  split
  · split
    · exact refl s
    · split <;> exact refl s
  split
  · exact refl s
  split
  · exact refl s
  apply (writeLoop _ _ _ s).bind
  intro s₁ h₁
  split
  · exact h₁.trans (update rfl rfl rfl)
  · exact h₁

end Same

structure Accounted (n k : Multiset (Fin NINODE)) (s : State) : Prop where
  ref : ∀ h, (s.icache h).ref = n.count h
  distinct : ∀ h h', 0 < (s.icache h).ref → 0 < (s.icache h').ref →
    (s.icache h).inum = (s.icache h').inum → h = h'
  locked : ∀ h, (s.icache h).locked = true ↔ h ∈ k
  nodup : k.Nodup

namespace Accounted

theorem same (hs : Accounted n k s) (h : Same s s') : Accounted n k s' := by
  refine ⟨fun i ↦ (h i).1.trans (hs.ref i), fun i j hi hj he ↦ ?_, fun i ↦ ?_, hs.nodup⟩
  · rw [(h i).1] at hi
    rw [(h j).1] at hj
    rw [(h i).2.2, (h j).2.2] at he
    exact hs.distinct i j hi hj he
  · rw [(h i).2.1, hs.locked]

theorem set {ip : Inode} {n' k' : Multiset (Fin NINODE)} (hs : Accounted n k s)
    (href : ip.ref = n'.count h) (hn : ∀ i, i ≠ h → n'.count i = n.count i)
    (hinum : ∀ i, i ≠ h → 0 < (s.icache i).ref → 0 < ip.ref → (s.icache i).inum ≠ ip.inum)
    (hlock : ip.locked = true ↔ h ∈ k') (hk : ∀ i, i ≠ h → (i ∈ k' ↔ i ∈ k)) (hk' : k'.Nodup) :
    Accounted n' k' (s.setInode h ip) := by
  have hself : (s.setInode h ip).icache h = ip := update_self ..
  have hne : ∀ i, i ≠ h → (s.setInode h ip).icache i = s.icache i := fun i hi ↦ update_of_ne hi ..
  refine ⟨fun i ↦ ?_, fun i j hi hj he ↦ ?_, fun i ↦ ?_, hk'⟩
  · rcases eq_or_ne i h with rfl | hi
    · rw [hself, href]
    · rw [hne i hi, hs.ref, hn i hi]
  · by_cases hih : i = h <;> by_cases hjh : j = h
    · rw [hih, hjh]
    · subst hih
      rw [hself] at hi he
      rw [hne j hjh] at hj he
      exact absurd he.symm (hinum j hjh hj hi)
    · subst hjh
      rw [hself] at hj he
      rw [hne i hih] at hi he
      exact absurd he (hinum i hih hi hj)
    · rw [hne i hih] at hi he
      rw [hne j hjh] at hj he
      exact hs.distinct i j hi hj he
  · rcases eq_or_ne i h with rfl | hi
    · rw [hself, hlock]
    · rw [hne i hi, hs.locked, hk i hi]

theorem count_cons (i : Fin NINODE) (hi : i ≠ h) : (h ::ₘ n).count i = n.count i :=
  Multiset.count_cons_of_ne hi n

theorem idup (hs : Accounted n k s) (hr : 0 < (s.icache h).ref) :
    Accounted (h ::ₘ n) k (s.setInode h { s.icache h with ref := (s.icache h).ref + 1 }) := by
  refine hs.set ?_ count_cons ?_ (hs.locked h) (fun _ _ ↦ Iff.rfl) hs.nodup
  · rw [Multiset.count_cons_self, ← hs.ref]
  · intro i hi hri _ he
    exact hi (hs.distinct i h hri hr he)

theorem iget (inum : ℕ) (hs : Accounted n k s) :
    Ensures (fun r ↦ Accounted (r.1 ::ₘ n) k r.2) (fun _ ↦ True) (s.iget inum) := by
  unfold State.iget
  split
  · rename_i i hi
    have hfound : 0 < (s.icache i).ref ∧ (s.icache i).inum = inum := by
      simpa using List.find?_some hi
    exact hs.idup hfound.1
  rename_i hnone
  have hunused : ∀ i, 0 < (s.icache i).ref → (s.icache i).inum ≠ inum := by
    simpa using hnone
  split
  · rename_i i hi
    have hfree : (s.icache i).ref = 0 := by simpa using List.find?_some hi
    refine hs.set ?_ count_cons (fun j _ hj _ ↦ hunused j hj) (hs.locked i) (fun _ _ ↦ Iff.rfl) hs.nodup
    rw [Multiset.count_cons_self, ← hs.ref, hfree]
  · trivial

theorem ialloc (type : ℕ) (hs : Accounted n k s) :
    Ensures (fun r ↦ Accounted (r.1 ::ₘ n) k r.2) (fun _ ↦ True) (s.ialloc sb type) := by
  unfold State.ialloc
  split
  · rename_i inum _
    have hput : Accounted n k (s.putDinode sb inum ⟨type, 0, 0, 0, 0, fun _ ↦ 0⟩) :=
      hs.same (.of_icache rfl)
    exact hput.iget inum
  · trivial

theorem ilock (h : Fin NINODE) (hs : Accounted n k s) :
    Ensures (Accounted n (h ::ₘ k)) (fun _ ↦ True) (s.ilock sb h) := by
  unfold State.ilock
  split
  · trivial
  split
  · trivial
  rename_i hr hl
  have hk : h ∉ k := fun hk ↦ hl ((hs.locked h).mpr hk)
  have hlocked : ∀ ip : Inode, ip.ref = (s.icache h).ref → ip.inum = (s.icache h).inum →
      ip.locked = true → Accounted n (h ::ₘ k) (s.setInode h ip) := by
    intro ip href hinum hlock
    refine hs.set (href.trans (hs.ref h)) (fun _ _ ↦ rfl) ?_ (by simp [hlock]) ?_
      (Multiset.nodup_cons.mpr ⟨hk, hs.nodup⟩)
    · intro i hi hri _ he
      exact hi (hs.distinct i h hri (by omega) (he.trans hinum))
    · intro i hi
      simp [hi]
  split
  · exact hlocked _ rfl rfl rfl
  dsimp only
  split
  · trivial
  · exact hlocked _ rfl rfl rfl

theorem iunlock (hs : Accounted n (h ::ₘ k) s) :
    Ensures (Accounted n k) (fun _ ↦ True) (s.iunlock h) := by
  obtain ⟨hk, hnodup⟩ := Multiset.nodup_cons.mp hs.nodup
  unfold State.iunlock
  split
  · trivial
  rename_i hl
  refine hs.set (hs.ref h) (fun _ _ ↦ rfl) ?_ (by simp [hk]) ?_ hnodup
  · intro i hi hri hrh he
    exact hi (hs.distinct i h hri hrh he)
  · intro i hi
    simp [hi]

theorem iput (hs : Accounted (h ::ₘ n) k s) : Ensures (Accounted n k) (fun _ ↦ True) (s.iput sb h) := by
  have hlast : ∀ s₁, Accounted (h ::ₘ n) k s₁ →
      Accounted n k (s₁.setInode h { s₁.icache h with ref := (s₁.icache h).ref - 1 }) := by
    intro s₁ h₁
    have href := h₁.ref h
    rw [Multiset.count_cons_self] at href
    refine h₁.set (by simp [href]) (fun i hi ↦ (count_cons i hi).symm) ?_ (h₁.locked h)
      (fun _ _ ↦ Iff.rfl) h₁.nodup
    intro i hi hri _ he
    exact hi (h₁.distinct i h hri (by omega) he)
  unfold State.iput
  split
  · trivial
  split
  · apply (Same.itrunc h s).bind
    intro s₁ h₁
    have h₂ : Same s₁ ((s₁.setInode h { s₁.icache h with type := 0 }).iupdate sb h) :=
      .update rfl rfl rfl
    exact hlast _ (hs.same ((h₁.trans h₂).trans (.setInode rfl rfl rfl)))
  · exact hlast s hs

theorem dirlookup (dp : Fin NINODE) (name : List UInt8) (hs : Accounted n k s) :
    Ensures (fun r ↦ Holds Accounted n k (r.1.map Prod.fst, r.2)) (fun _ ↦ True)
      (s.dirlookup sb devsw dp name) := by
  unfold State.dirlookup
  split
  · trivial
  rename_i ht
  clear ht
  generalize offsets _ = l
  induction l generalizing s with
  | nil => exact hs
  | cons off l ih =>
    unfold State.dirlookupLoop
    apply (Same.readi off DIRENT s).bind
    rintro ⟨r, s₁⟩ h₁
    replace hs := hs.same h₁
    cases r with
    | none => trivial
    | some de =>
      dsimp only
      split
      · trivial
      split
      · exact ih hs
      split
      · exact (hs.iget _).bind (fun r hr ↦ hr)
      · exact ih hs

theorem dirlinkLoop (dp : Fin NINODE) (l : List ℕ) (s : State) :
    Ensures (fun r ↦ Same s r.2) (fun _ ↦ True) (s.dirlinkLoop sb devsw dp l) := by
  induction l generalizing s with
  | nil => exact .refl s
  | cons off l ih =>
    unfold State.dirlinkLoop
    apply (Same.readi off DIRENT s).bind
    rintro ⟨r, s₁⟩ h₁
    cases r with
    | none => trivial
    | some de =>
      dsimp only
      split
      · trivial
      split
      · exact h₁
      · exact (ih s₁).mono fun r hr ↦ h₁.trans hr

theorem dirlink (dp : Fin NINODE) (name : List UInt8) (inum : ℕ) (hs : Accounted n k s) :
    Ensures (fun r ↦ Accounted n k r.2) (fun _ ↦ True) (s.dirlink sb devsw dp name inum) := by
  unfold State.dirlink
  apply (hs.dirlookup dp name).bind
  rintro ⟨ip, s₁⟩ h₁
  match ip with
  | some (i, _) => exact (iput h₁).bind (fun s' hs' ↦ hs')
  | none =>
    replace h₁ : Accounted n k s₁ := h₁
    apply (dirlinkLoop dp _ s₁).bind
    rintro ⟨hole, s₂⟩ h₂
    apply (Same.writei _ _ s₂).bind
    rintro ⟨r, s₃⟩ h₃
    dsimp only
    split
    · trivial
    · exact h₁.same (h₂.trans h₃)

theorem isdirempty (dp : Fin NINODE) (hs : Accounted n k s) :
    Ensures (fun r ↦ Accounted n k r.2) (fun _ ↦ True) (isdirempty sb devsw dp s) := by
  unfold Files.isdirempty
  generalize List.drop 2 _ = l
  induction l generalizing s with
  | nil => exact hs
  | cons off l ih =>
    unfold Files.isdiremptyLoop
    apply (Same.readi off DIRENT s).bind
    rintro ⟨r, s₁⟩ h₁
    replace hs := hs.same h₁
    cases r with
    | none => trivial
    | some de =>
      dsimp only
      split
      · trivial
      split
      · exact hs
      · exact ih hs

theorem clear (dp : Fin NINODE) (off : ℕ) (hs : Accounted n k s) :
    Ensures (Accounted n k) (fun _ ↦ True) (clear sb devsw dp off s) := by
  apply (Same.writei _ off s).bind
  rintro ⟨r, s₁⟩ h₁
  dsimp only
  split
  · trivial
  · exact hs.same h₁

end Accounted

def icacheAccounts (sb : Superblock) (devsw : Devsw) : Accounts (icache sb devsw) where
  holds := Accounted
  err _ := True
  any _ := trivial
  iget inum hs := hs.iget inum
  ialloc type hs := hs.ialloc type
  idup hs hmem := hs.idup (by rw [hs.ref]; exact Multiset.count_pos.mpr hmem)
  ilock h hs := hs.ilock h
  iunlock hs := hs.iunlock
  iput hs := hs.iput
  setAttrs _ _ hs := hs.same (.update rfl rfl rfl)
  dirlookup h name hs := hs.dirlookup h name.1
  dirlink h name inum hs := hs.dirlink h name.1 inum
  isdirempty h hs := hs.isdirempty h
  clear h off hs := hs.clear h off

structure InodesExact {Q : Type} (t : System (Fin NINODE) Q State) : Prop where
  ref : ∀ h, (t.tab.fs.icache h).ref =
    (Finset.univ.filter fun f ↦ (t.tab.file f).type = .FD_INODE ∧ 0 < (t.tab.file f).ref ∧
      (t.tab.file f).ip = some h).card + (Finset.univ.filter fun p ↦ (t.proc p).cwd = some h).card
  distinct : ∀ h h', 0 < (t.tab.fs.icache h).ref → 0 < (t.tab.fs.icache h').ref →
    (t.tab.fs.icache h).inum = (t.tab.fs.icache h').inum → h = h'
  unlocked : ∀ h, (t.tab.fs.icache h).locked = false

theorem Inv.inodesExact {Q : Type} {t : System (Fin NINODE) Q State}
    (ht : Inv (icacheAccounts sb devsw).toLedger t) : InodesExact t := by
  have hs : Accounted (∑ f, (t.tab.file f).inode + t.cwds) 0 t.tab.fs := ht.books.inodes
  refine ⟨fun h ↦ ?_, hs.distinct, fun h ↦ ?_⟩
  · rw [hs.ref, Multiset.count_add, Multiset.count_sum', System.cwds, Multiset.count_sum',
      Finset.card_filter, Finset.card_filter]
    refine congrArg₂ (· + ·) (Finset.sum_congr rfl fun f _ ↦ ?_)
      (Finset.sum_congr rfl fun p _ ↦ count_target _ _)
    have hpos : (t.tab.file f).type = .FD_INODE → 0 < (t.tab.file f).ref := by
      intro htype
      by_contra hr
      rw [ht.books.unused f (by omega)] at htype
      cases htype
    unfold File.inode
    split
    · rename_i htype
      rw [count_target]
      simp [htype, hpos htype]
    · rename_i htype
      simp [htype]
  · have := hs.locked h
    simpa using this

/-- The inode cache is exact in every state that is reached from an empty cache, on any disk, with
`namei("/")` for the first process. -/
theorem inode_refs_exact {Q : Type} [DecidableEq Q] {initproc : Fin NPROC} {cwd root : Fin NINODE}
    {name : Name} {calls : List (Fin NPROC × Call Q)} {t : System (Fin NINODE) Q State}
    (hfree : ∀ h, (s.icache h).ref = 0 ∧ (s.icache h).locked = false)
    (hroot : namei (icache sb devsw) cwd ⟨[47], by decide⟩ s = .ok (some (root, name), s'))
    (he : Lib.Execution.exec (Call.step (icache sb devsw) initproc) calls (boot initproc s' root) =
      .ok t) : InodesExact t := by
  have hs : Accounted 0 0 s := by
    refine ⟨fun h ↦ by simp [hfree], fun h h' hr ↦ ?_, fun h ↦ by simp [hfree], Multiset.nodup_zero⟩
    have := (hfree h).1
    omega
  have hs' : Accounted {root} 0 s' := ((icacheAccounts sb devsw).namei_root hs).of_ok hroot
  have hinit : Inv (icacheAccounts sb devsw).toLedger (boot initproc s' root : System _ Q _) :=
    Inv.init initproc hs'
  exact ((hinit.run initproc calls (icacheAccounts sb devsw).serves).of_ok he).inodesExact

def smallRoot : State where
  cache := fun b ↦
    if b = 2 then Fs.putDinode (fun _ ↦ 0) DINODE ⟨T_DIR, 0, 0, 1, 0, fun _ ↦ 0⟩
    else if b = 3 then fun i ↦ if i.val = 0 then 15 else 0
    else fun _ ↦ 0
  icache := fun _ ↦ ⟨⟨0, 0, 0, 0, 0, fun _ ↦ 0⟩, 0, 0, false, false⟩
  logged := []

def init0 : Fin NPROC := ⟨0, by decide⟩

def slot0 : Fin NINODE := ⟨0, NINODE_pos⟩

def smallRun : Except Error (System (Fin NINODE) ℕ State) :=
  Lib.Execution.exec (Call.step (icache smallDisk noDevice) init0)
    [(init0, .open ⟨[47], by decide⟩ 0), (init0, .open ⟨[47, 120], by decide⟩ 0),
      (init0, .nicefork true true)]
    (boot init0 (smallRoot.setInode slot0 { smallRoot.icache slot0 with inum := 1, ref := 1 }) slot0)

theorem inode_refs_exact_fork : ∃ t, smallRun = .ok t ∧ (t.tab.fs.icache slot0).ref = 3 ∧
    InodesExact t := by
  have hrun : Ensures (fun t ↦ (t.tab.fs.icache slot0).ref = 3) (fun _ ↦ False) smallRun := by
    decide +kernel
  obtain ⟨t, ht, href⟩ := hrun.exists_ok
  have hroot : namei (icache smallDisk noDevice) slot0 ⟨[47], by decide⟩
      smallRoot = .ok (some (_, _), _) := rfl
  exact ⟨t, ht, href, inode_refs_exact (fun _ ↦ ⟨rfl, rfl⟩) hroot ht⟩

end Xv6Bfs.Files

import Xv6Bfs.Paths.Resolve

namespace Xv6Bfs.Paths

open Lib.Execution Disk Fs Fs.State Sysfile

/-- The calls that change directories, and `chdir`. -/
inductive DirCall
  | link (old new : Path)
  | unlink (path : Path)
  | mkdir (path : Path)
  | mknod (path : Path) (major minor : ℕ)
  | chdir (path : Path)

section

variable (sb : Superblock) (devsw : Devsw)

def chdir (cwd : Fin NINODE) (path : Path) (s : State) : Except Panic (ℤ × Fin NINODE × State) := do
  let (r, s) ← chdirInode (Files.icache sb devsw) cwd path s
  match r with
  | none => .ok (-1, cwd, s)
  | some ip => do
    let s ← s.iput sb cwd
    .ok (0, ip, s)

def DirCall.run (cwd : Fin NINODE) (c : DirCall) (s : State) : Except Panic (ℤ × Fin NINODE × State) :=
  let keep (x : Except Panic (ℤ × State)) : Except Panic (ℤ × Fin NINODE × State) := do
    let (r, s) ← x
    .ok (r, cwd, s)
  match c with
  | link old new => keep (Sysfile.link (Files.icache sb devsw) cwd old new s)
  | unlink path => keep (Sysfile.unlink (Files.icache sb devsw) cwd path s)
  | mkdir path => keep (make (Files.icache sb devsw) cwd path T_DIR 0 0 s)
  | mknod path major minor => keep (make (Files.icache sb devsw) cwd path T_DEV major minor s)
  | chdir path => Paths.chdir sb devsw cwd path s

end

/-- The disk is as it was before, with the same references to the same inodes. What is in memory of an
inode is what is on the disk, and no lock is held. -/
structure Unchanged (sb : Superblock) (s s' : State) : Prop where
  cache : s'.cache = s.cache
  ref : ∀ h, (s'.icache h).ref = (s.icache h).ref
  inum : ∀ h, 0 < (s.icache h).ref → (s'.icache h).inum = (s.icache h).inum
  unlocked : ∀ h, (s'.icache h).locked = false
  consistent : Consistent sb s'

variable {sb : Superblock} {devsw : Devsw} {s s' s₀ : State} {l k : List (Fin NINODE)} {h ip : Fin NINODE}

theorem Settled.locked (hs : Settled sb s₀) (hb : Borrows sb s s₀ l k) (h : Fin NINODE) :
    (s.icache h).locked = true ↔ h ∈ k := by
  rw [hb.locked, hs.unlocked, or_iff_left Bool.false_ne_true]

theorem Settled.unchanged (hs : Settled sb s₀) (hb : Borrows sb s s₀ [] []) : Unchanged sb s₀ s where
  cache := (hb.settled hs).1
  ref := hb.ref
  inum := hb.inum
  unlocked h := by
    rw [← Bool.not_eq_true, hs.locked hb]
    exact List.not_mem_nil
  consistent := hb.consistent

structure Raised (sb : Superblock) (s₀ : State) (ip : Fin NINODE) (s : State) : Prop where
  before : Settled sb s₀
  settled : Settled sb s
  cache : s.cache = (s₀.putDinode sb (s.icache ip).inum { s₀.dinode sb (s.icache ip).inum with
    nlink := ((s₀.dinode sb (s.icache ip).inum).nlink + 1) % 2 ^ 16 }).cache
  ref : ∀ h, (s.icache h).ref = (s₀.icache h).ref + [ip].count h
  inum : ∀ h, 0 < (s₀.icache h).ref → (s.icache h).inum = (s₀.icache h).inum
  linked : Linked sb s₀ (s.icache ip).inum

structure SetsNlink (sb : Superblock) (ip : Fin NINODE) (n : ℕ) (s s' : State) : Prop where
  consistent : Consistent sb s'
  cache : s'.cache = (s.putDinode sb (s.icache ip).inum
    { s.dinode sb (s.icache ip).inum with nlink := n }).cache
  same : Files.Same s s'

theorem setNlink (hok : Consistent sb s) (hl : (s.icache ip).locked = true) {n : ℕ} (hn : n < 2 ^ 16) :
    SetsNlink sb ip n s ((Files.icache sb devsw).setAttrs ip
      { (Files.icache sb devsw).attrs ip s with nlink := n } s) := by
  obtain ⟨hr, hv⟩ := hok.locked ip hl
  have hcached := (hok.cached ip hr hv).1
  have hfits : (s.icache ip).toDinode.Fits := hcached ▸ dinode_fits
  refine ⟨hok.setAttrs hl hfits.major hfits.minor hn, ?_, .update rfl rfl rfl⟩
  rw [← hcached]
  change ((s.setInode ip _).iupdate sb ip).cache = _
  rw [iupdate_setInode]
  rfl

namespace SetsNlink

variable {n : ℕ}

theorem dinode_ne (hset : SetsNlink sb ip n s s') {d : ℕ} (hd : d ≠ (s.icache ip).inum) :
    s'.dinode sb d = s.dinode sb d := by
  rw [State.dinode, hset.cache]
  exact dinode_putDinode_ne (Ne.symm hd)

theorem dinode_self (hset : SetsNlink sb ip n s s') (hn : n < 2 ^ 16) :
    s'.dinode sb (s.icache ip).inum = { s.dinode sb (s.icache ip).inum with nlink := n } := by
  have hfits : (s.dinode sb (s.icache ip).inum).Fits := dinode_fits
  rw [State.dinode, hset.cache]
  exact dinode_putDinode_self ⟨hfits.type, hfits.major, hfits.minor, hn, hfits.size, hfits.addrs⟩

theorem type_eq (hset : SetsNlink sb ip n s s') (hn : n < 2 ^ 16) (d : ℕ) :
    (s'.dinode sb d).type = (s.dinode sb d).type := by
  by_cases hd : d = (s.icache ip).inum
  · rw [hd, hset.dinode_self hn]
  · rw [hset.dinode_ne hd]

theorem keeps (hset : SetsNlink sb ip n s s') (hn : n < 2 ^ 16) (hok : Consistent sb s)
    (hr : 0 < (s.icache ip).ref) {d : ℕ} (hd : d < sb.ninodes) (ht : (s.dinode sb d).type ≠ 0) :
    Keeps sb d s s' := by
  have hfits : (s.dinode sb (s.icache ip).inum).Fits := dinode_fits
  have hput : Keeps sb d s (s.putDinode sb (s.icache ip).inum
      { s.dinode sb (s.icache ip).inum with nlink := n }) := by
    refine .of_putDinode rfl hok.toWellFormed hd ht (hok.inum ip hr)
      ⟨hfits.type, hfits.major, hfits.minor, hn, hfits.size, hfits.addrs⟩ ?_
    rintro rfl
    exact ⟨rfl, rfl, rfl⟩
  exact hput.trans (.of_cache hset.cache)

end SetsNlink

theorem Borrows.raised (hs : Settled sb s₀) (hb : Borrows sb s s₀ [ip] [ip]) :
    ∃ s', (incNlink (Files.icache sb devsw) ip s).iunlock ip = .ok s' ∧ Raised sb s₀ ip s' := by
  have hl : (s.icache ip).locked = true := hb.locked_mem List.mem_cons_self
  have hr := hb.ref_pos List.mem_cons_self
  have hv := (hb.consistent.locked ip hl).2
  have hn : ((s.icache ip).nlink + 1) % 2 ^ 16 < 2 ^ 16 := Nat.mod_lt _ (by decide)
  have hset : SetsNlink sb ip (((s.icache ip).nlink + 1) % 2 ^ 16) s (incNlink (Files.icache sb devsw) ip s) :=
    setNlink hb.consistent hl hn
  obtain ⟨hcache, hlinks⟩ := hb.settled hs
  have hsame (d : ℕ) : s.dinode sb d = s₀.dinode sb d := by rw [State.dinode, hcache, State.dinode]
  obtain ⟨s', hs', hlock, -⟩ := iunlock_ok hset.consistent (by rw [(hset.same ip).2.1, hl])
  have hinum (h : Fin NINODE) : (s'.icache h).inum = (s.icache h).inum := by
    rw [hlock.inum, (hset.same h).2.2]
  have href (h : Fin NINODE) : (s'.icache h).ref = (s₀.icache h).ref + [ip].count h := by
    rw [hlock.ref, (hset.same h).1, hb.ref]
  have hinum₀ (h : Fin NINODE) (hr : 0 < (s₀.icache h).ref) : (s'.icache h).inum = (s₀.icache h).inum := by
    rw [hinum, hb.inum h hr]
  have hnlink : (s.icache ip).nlink = (s₀.dinode sb (s.icache ip).inum).nlink := by
    rw [(hb.consistent.cached ip hr hv).1, hsame]
  have hdinode (d : ℕ) : s'.dinode sb d =
      (incNlink (Files.icache sb devsw) ip s).dinode sb d := by
    rw [State.dinode, hlock.cache, State.dinode]
  have htype (d : ℕ) : (s'.dinode sb d).type = (s₀.dinode sb d).type := by
    rw [hdinode, hset.type_eq hn, hsame]
  have hfiles {d : ℕ} (hd : d < sb.ninodes) (ht : (s'.dinode sb d).type = T_DIR) :
      s'.files sb d = s₀.files sb d := by
    have hne : (s.dinode sb d).type ≠ 0 := by
      rw [hsame, ← htype, ht]
      decide
    have hraise : Keeps sb d s s' := (hset.keeps hn hb.consistent hr hd hne).trans (.of_cache hlock.cache)
    exact ((Keeps.of_cache hcache).trans hraise).files
  have hlinked {i : ℕ} (hi : Linked sb s₀ i) : Linked sb s' i := by
    intro ht hn
    by_cases he : i = (s.icache ip).inum
    · exact ⟨ip, by rw [href]; simp, by rw [hinum, he]⟩
    · rw [hdinode, hset.dinode_ne he, hsame] at ht hn
      obtain ⟨h, hr, hh⟩ := hi ht hn
      exact ⟨h, by rw [href]; omega, by rw [hinum₀ h hr, hh]⟩
  refine ⟨s', hs', hs, ⟨⟨?_, ?_⟩, hlock.consistent, ?_, hs.root, hlinked hs.linkedRoot, ?_⟩, ?_, href,
    hinum₀, ?_⟩
  · intro d hd ht
    rw [hfiles hd ht]
    exact hs.whole d hd ((htype d).symm.trans ht)
  · intro d hd ht
    rw [hfiles hd ht]
    exact hs.named d hd ((htype d).symm.trans ht)
  · intro h
    by_cases hh : h = ip
    · rw [hh, hlock.self]
    · rw [hlock.others h hh, (hset.same h).2.1, ← Bool.not_eq_true, hs.locked hb, List.mem_singleton]
      exact hh
  · intro d hd ht de hde h0
    rw [hfiles hd ht] at hde
    exact hlinked (hs.linked d hd ((htype d).symm.trans ht) de hde h0)
  · rw [hinum, hlock.cache, hset.cache, hnlink, hsame]
    exact cache_putDinode_congr hcache
  · rw [hinum]
    exact hlinks ip List.mem_cons_self

theorem Raised.restored (hraised : Raised sb s₀ ip s) (hb : Borrows sb s' s [] [ip]) :
    Borrows sb (decNlink (Files.icache sb devsw) ip s') s₀ [ip] [ip] := by
  have hl : (s'.icache ip).locked = true := hb.locked_mem List.mem_cons_self
  obtain ⟨hr, hv⟩ := hb.consistent.locked ip hl
  have hn : ((s'.icache ip).nlink + (2 ^ 16 - 1)) % 2 ^ 16 < 2 ^ 16 := Nat.mod_lt _ (by decide)
  have hset : SetsNlink sb ip (((s'.icache ip).nlink + (2 ^ 16 - 1)) % 2 ^ 16) s'
      (decNlink (Files.icache sb devsw) ip s') :=
    setNlink hb.consistent hl hn
  have hip : (s.icache ip).inum = (s'.icache ip).inum := by
    rw [hb.inum]
    rw [hraised.ref]
    simp
  have hback : (decNlink (Files.icache sb devsw) ip s').cache = s₀.cache := by
    have hcache := (hb.settled hraised.settled).1.trans hraised.cache
    rw [hip] at hcache
    have hfits : (s₀.dinode sb (s'.icache ip).inum).Fits := dinode_fits
    have hdinode : s'.dinode sb (s'.icache ip).inum = { s₀.dinode sb (s'.icache ip).inum with
        nlink := ((s₀.dinode sb (s'.icache ip).inum).nlink + 1) % 2 ^ 16 } := by
      rw [State.dinode, hcache]
      exact dinode_putDinode_self ⟨hfits.type, hfits.major, hfits.minor, Nat.mod_lt _ (by decide),
        hfits.size, hfits.addrs⟩
    have hold : { s'.dinode sb (s'.icache ip).inum with
        nlink := ((s'.icache ip).nlink + (2 ^ 16 - 1)) % 2 ^ 16 } = s₀.dinode sb (s'.icache ip).inum := by
      have hnlink : (s'.icache ip).nlink = ((s₀.dinode sb (s'.icache ip).inum).nlink + 1) % 2 ^ 16 := by
        rw [(hb.consistent.cached ip hr hv).1, hdinode]
      have hmod : ((s'.icache ip).nlink + (2 ^ 16 - 1)) % 2 ^ 16 =
          (s₀.dinode sb (s'.icache ip).inum).nlink := by
        have := hfits.nlink
        omega
      rw [hdinode, hmod]
    rw [hset.cache, hold]
    exact cache_putDinode_dinode hcache
  refine ⟨(Borrows.refl hraised.before.consistent).toRemains.of_cache hset.consistent hback,
    fun h ↦ ?_, fun h hr ↦ ?_, fun h ↦ ?_, fun h _ ↦ hraised.before.unlocked h,
    List.nodup_singleton ip, fun _ ↦ ⟨hback, fun h hh ↦ ?_⟩⟩
  · rw [(hset.same h).1, hb.ref, List.count_nil, hraised.ref]
    rfl
  · rw [(hset.same h).2.2, hb.inum h (by rw [hraised.ref]; omega), hraised.inum h hr]
  · rw [(hset.same h).2.1, hb.locked, hraised.settled.unlocked, hraised.before.unlocked]
  · obtain rfl := List.mem_singleton.mp hh
    rw [(hset.same h).2.2, ← hip]
    exact hraised.linked

theorem Borrows.dirlookup_carries (hs : Settled sb s₀) (hb : Borrows sb s s₀ l k) (hk : h ∈ k)
    (name : List UInt8) : Ensures (Carries sb s₀ l k) (fun _ ↦ True) (s.dirlookup sb devsw h name) := by
  by_cases ht : (s.icache h).type = T_DIR
  · exact ((hb.dirlookup hs.consistent hs.toDirectories hk ht name).mono fun _ hr ↦ hr.1).anyError
  · rw [State.dirlookup, if_pos ht]
    trivial

theorem Borrows.dirlink (hs : Settled sb s₀) (hb : Borrows sb s s₀ l k) (hk : h ∈ k) (name : List UInt8)
    (inum : ℕ) : Ensures (fun r ↦ r.1 < 0 → Borrows sb r.2 s₀ l k) (fun _ ↦ True)
      (s.dirlink sb devsw h name inum) := by
  apply (hb.dirlookup_carries hs hk name).bind
  rintro ⟨found, s₁⟩ h₁
  cases found with
  | some x =>
    have hput := (Borrows.iput h₁).anyError
    exact hput.bind fun s₂ h₂ _ ↦ h₂
  | none =>
    apply (ensures_true _).bind
    rintro ⟨hole, s₂⟩ -
    apply (ensures_true _).bind
    rintro ⟨r, s₃⟩ -
    dsimp only
    split
    · trivial
    · exact fun hlt ↦ absurd hlt (Int.lt_irrefl 0)

theorem Raised.linkBad (hraised : Raised sb s₀ ip s) (hb : Borrows sb s' s [] []) :
    Ensures (fun r ↦ Unchanged sb s₀ r.2) (fun _ ↦ True)
      (linkBad (Files.icache sb devsw) ip s') := by
  have hr : 0 < (s'.icache ip).ref := by
    rw [hb.ref, hraised.ref]
    simp
  apply (hb.ilock hr).anyError.bind
  intro s₁ h₁
  apply (hraised.restored h₁).iunlockput.anyError.bind
  intro s₂ h₂
  exact hraised.before.unchanged h₂

theorem Raised.linkEntry (hraised : Raised sb s₀ ip s) {cwd : Fin NINODE}
    (hcwd : 0 < (s₀.icache cwd).ref) (new : Path) :
    Ensures (fun r ↦ r.1 = -1 → Unchanged sb s₀ r.2) (fun _ ↦ True)
      (linkEntry (Files.icache sb devsw) cwd ip new s) := by
  have hs := hraised.settled
  have hcwd' : 0 < (s.icache cwd).ref := by
    rw [hraised.ref]
    omega
  apply (hs.namex hcwd' new true).bind
  rintro ⟨r, s₁⟩ h₁
  match r with
  | none => exact (hraised.linkBad h₁).mono fun r hr _ ↦ hr
  | some (dp, name) =>
    replace h₁ : Borrows sb s₁ s [dp] [] := h₁
    apply (h₁.ilock (h₁.ref_pos List.mem_cons_self)).anyError.bind
    intro s₂ h₂
    apply (h₂.dirlink hs List.mem_cons_self name.1 _).bind
    rintro ⟨r, s₃⟩ h₃
    by_cases hr : r < 0
    · apply (h₃ hr).iunlockput.anyError.bind
      intro s₄ h₄
      rw [if_pos hr]
      exact (hraised.linkBad h₄).mono fun r hr _ ↦ hr
    · apply (ensures_true _).bind
      intro s₄ _
      rw [if_neg hr]
      apply (ensures_true _).bind
      intro s₅ _
      exact nofun

theorem link_unchanged (hs : Settled sb s) {cwd : Fin NINODE} (hcwd : 0 < (s.icache cwd).ref)
    (old new : Path) : Ensures (fun r ↦ r.1 = -1 → Unchanged sb s r.2) (fun _ ↦ True)
      (Sysfile.link (Files.icache sb devsw) cwd old new s) := by
  apply (hs.namex hcwd old false).bind
  rintro ⟨r, s₁⟩ h₁
  match r with
  | none => exact fun _ ↦ hs.unchanged h₁
  | some (ip, _) =>
    replace h₁ : Borrows sb s₁ s [ip] [] := h₁
    apply (h₁.ilock (h₁.ref_pos List.mem_cons_self)).anyError.bind
    intro s₂ h₂
    split
    · apply h₂.iunlockput.anyError.bind
      intro s₃ h₃ _
      exact hs.unchanged h₃
    · obtain ⟨s₃, h₃, hraised⟩ := h₂.raised hs
      change Ensures _ _ ((incNlink (Files.icache sb devsw) ip s₂).iunlock ip >>= _)
      rw [h₃, ok_bind]
      exact hraised.linkEntry hcwd new

theorem isdirempty_ensures (hok : Consistent sb s) (hl : (s.icache h).locked = true) :
    Ensures (fun r ↦ r.2 = s) (fun _ ↦ True) (Files.isdirempty sb devsw h s) := by
  have hsize := hok.size_le (hok.locked h hl).1 (hok.locked h hl).2
  have hlim : MAXFILE * BSIZE = 71680 := by decide
  unfold Files.isdirempty
  have hmem : ∀ off ∈ (offsets (s.icache h).size).drop 2, off < 2 ^ 32 := by
    intro off hoff
    obtain ⟨e, rfl, hlt⟩ := mem_offsets (List.mem_of_mem_drop hoff)
    omega
  generalize (offsets (s.icache h).size).drop 2 = offs at hmem
  induction offs with
  | nil => rfl
  | cons off offs ih =>
    obtain ⟨r, hr⟩ := @Consistent.readi sb devsw s h off DIRENT hok hl (hmem off List.mem_cons_self)
      (by decide)
    rw [Files.isdiremptyLoop, hr, ok_bind]
    cases r with
    | none => trivial
    | some de =>
      dsimp only
      split
      · trivial
      split
      · rfl
      · exact ih fun off' hoff ↦ hmem off' (List.mem_cons_of_mem off hoff)

section

variable {cwd : Fin NINODE} (hs : Settled sb s) (hcwd : 0 < (s.icache cwd).ref) (path : Path)
include hs hcwd

theorem unlink_unchanged :
    Ensures (fun r ↦ r.1 = -1 → Unchanged sb s r.2) (fun _ ↦ True)
      (Sysfile.unlink (Files.icache sb devsw) cwd path s) := by
  have hbad {s₁ : State} {dp : Fin NINODE} (h₁ : Borrows sb s₁ s [dp] [dp]) :
      Ensures (fun r ↦ r.1 = -1 → Unchanged sb s r.2) (fun _ ↦ True)
        (unlinkBad (Files.icache sb devsw) dp s₁) := by
    apply h₁.iunlockput.anyError.bind
    intro s₂ h₂ _
    exact hs.unchanged h₂
  have hentry (dp : Fin NINODE) (off : ℕ) (ip : Fin NINODE) (s₁ : State) :
      Ensures (fun r ↦ r.1 = -1 → Unchanged sb s r.2) (fun _ ↦ True)
        (unlinkEntry (Files.icache sb devsw) dp off ip s₁) := by
    refine (ensures_true _).bind fun s₂ _ ↦ (ensures_true _).bind fun s₃ _ ↦
      (ensures_true _).bind fun s₄ _ ↦ ?_
    exact nofun
  apply (hs.namex hcwd path true).bind
  rintro ⟨r, s₁⟩ h₁
  match r with
  | none => exact fun _ ↦ hs.unchanged h₁
  | some (dp, name) =>
    replace h₁ : Borrows sb s₁ s [dp] [] := h₁
    apply (h₁.ilock (h₁.ref_pos List.mem_cons_self)).anyError.bind
    intro s₂ h₂
    split
    · exact hbad h₂
    apply (h₂.dirlookup_carries hs List.mem_cons_self name.1).bind
    rintro ⟨r, s₃⟩ h₃
    match r with
    | none => exact hbad h₃
    | some (ip, off) =>
      replace h₃ : Borrows sb s₃ s [ip, dp] [dp] := h₃
      apply (h₃.ilock (h₃.ref_pos List.mem_cons_self)).anyError.bind
      intro s₄ h₄
      split
      · trivial
      split
      · apply (isdirempty_ensures h₄.consistent (h₄.locked_mem List.mem_cons_self)).bind
        rintro ⟨empty, s₅⟩ rfl
        dsimp only
        split
        · exact hentry dp off ip s₅
        · apply h₄.iunlockput.anyError.bind
          intro s₆ h₆
          exact hbad h₆
      · exact hentry dp off ip s₄

theorem create_unchanged (type major minor : ℕ) :
    Ensures (fun r ↦ r.1 = none → Unchanged sb s r.2) (fun _ ↦ True)
      (create (Files.icache sb devsw) cwd path type major minor s) := by
  apply (hs.namex hcwd path true).bind
  rintro ⟨r, s₁⟩ h₁
  match r with
  | none => exact fun _ ↦ hs.unchanged h₁
  | some (dp, name) =>
    replace h₁ : Borrows sb s₁ s [dp] [] := h₁
    apply (h₁.ilock (h₁.ref_pos List.mem_cons_self)).anyError.bind
    intro s₂ h₂
    apply (h₂.dirlookup_carries hs List.mem_cons_self name.1).bind
    rintro ⟨r, s₃⟩ h₃
    match r with
    | none =>
      apply (ensures_true _).bind
      intro r _
      exact nofun
    | some (ip, off) =>
      replace h₃ : Borrows sb s₃ s [ip, dp] [dp] := h₃
      apply h₃.swap.iunlockput.anyError.bind
      intro s₄ h₄
      apply (h₄.ilock (h₄.ref_pos List.mem_cons_self)).anyError.bind
      intro s₅ h₅
      split
      · exact nofun
      · apply h₅.iunlockput.anyError.bind
        intro s₆ h₆ _
        exact hs.unchanged h₆

theorem make_unchanged (type major minor : ℕ) :
    Ensures (fun r ↦ r.1 = -1 → Unchanged sb s r.2) (fun _ ↦ True)
      (make (Files.icache sb devsw) cwd path type major minor s) := by
  apply (create_unchanged hs hcwd path type major minor).bind
  rintro ⟨r, s₁⟩ h₁
  cases r with
  | none => exact fun _ ↦ h₁ rfl
  | some ip =>
    apply (ensures_true _).bind
    intro s₂ _
    exact nofun

theorem chdir_unchanged :
    Ensures (fun r ↦ r.1 = -1 → r.2.1 = cwd ∧ Unchanged sb s r.2.2) (fun _ ↦ True)
      (chdir sb devsw cwd path s) := by
  have hinode : Ensures (fun r ↦ r.1 = none → Unchanged sb s r.2) (fun _ ↦ True)
      (chdirInode (Files.icache sb devsw) cwd path s) := by
    apply (hs.namex hcwd path false).bind
    rintro ⟨r, s₁⟩ h₁
    match r with
    | none => exact fun _ ↦ hs.unchanged h₁
    | some (ip, _) =>
      replace h₁ : Borrows sb s₁ s [ip] [] := h₁
      apply (h₁.ilock (h₁.ref_pos List.mem_cons_self)).anyError.bind
      intro s₂ h₂
      split
      · apply h₂.iunlockput.anyError.bind
        intro s₃ h₃ _
        exact hs.unchanged h₃
      · apply (ensures_true _).bind
        intro s₃ _
        exact nofun
  apply hinode.bind
  rintro ⟨r, s₁⟩ h₁
  cases r with
  | none => exact fun _ ↦ ⟨rfl, h₁ rfl⟩
  | some ip =>
    apply (ensures_true _).bind
    intro s₂ _
    exact nofun

end

/-- A call that fails leaves the file system, the references and the current directory as they were. -/
theorem failed_call_changes_nothing (hs : Settled sb s) {cwd : Fin NINODE}
    (hcwd : 0 < (s.icache cwd).ref) {c : DirCall} {cwd' : Fin NINODE}
    (hrun : c.run sb devsw cwd s = .ok (-1, cwd', s')) : cwd' = cwd ∧ Unchanged sb s s' := by
  have hkeep {x : Except Panic (ℤ × State)}
      (hx : Ensures (fun r ↦ r.1 = -1 → Unchanged sb s r.2) (fun _ ↦ True) x)
      (h : (x >>= fun r ↦ Except.ok (r.1, cwd, r.2)) = .ok (-1, cwd', s')) :
      cwd' = cwd ∧ Unchanged sb s s' := by
    obtain ⟨r, rfl, hr⟩ := bind_eq_ok.mp h
    obtain ⟨h₁, heq⟩ := Prod.mk.inj (Except.ok.inj hr)
    obtain ⟨rfl, rfl⟩ := Prod.mk.inj heq
    exact ⟨rfl, hx h₁⟩
  cases c with
  | link old new => exact hkeep (link_unchanged hs hcwd old new) hrun
  | unlink path => exact hkeep (unlink_unchanged hs hcwd path) hrun
  | mkdir path => exact hkeep (make_unchanged hs hcwd path _ _ _) hrun
  | mknod path major minor => exact hkeep (make_unchanged hs hcwd path _ _ _) hrun
  | chdir path => exact (chdir_unchanged hs hcwd path).of_ok hrun rfl

theorem linked_settled : ∃ s, linked = .ok s ∧ Settled smallDisk s ∧ 0 < (s.icache Files.slot0).ref := by
  have hrun : Ensures (fun s ↦ ∀ k, (s.icache k).locked = false) (fun _ ↦ False) linked := by
    decide +kernel
  obtain ⟨s, hs, hok, hdirs, hr, hinum⟩ := linked_ok
  have hlinked {i : ℕ} (hi : i < smallDisk.ninodes) (h0 : i ≠ 0) : Linked smallDisk s i := by
    have hi : i < 2 := hi
    obtain rfl : i = 1 := by omega
    exact fun _ _ ↦ ⟨Files.slot0, hr, hinum⟩
  exact ⟨s, hs, ⟨hdirs, hok, hrun.of_ok hs, by decide, hlinked (by decide) (by decide),
    fun d hd ht de hde h0 ↦ hlinked (hdirs.named d hd ht de hde) h0⟩, hr⟩

/-- `mkdir("/a")` where the name is taken. -/
theorem failed_call_changes_nothing_mkdir : ∃ s s', linked = .ok s ∧
    DirCall.run smallDisk noDevice Files.slot0 (.mkdir ⟨[47, 97], by decide⟩) s =
      .ok (-1, Files.slot0, s') ∧ Unchanged smallDisk s s' := by
  have hrun : Ensures (fun s ↦ Ensures (fun r ↦ r.1 = -1) (fun _ ↦ False)
      (DirCall.run smallDisk noDevice Files.slot0 (.mkdir ⟨[47, 97], by decide⟩) s))
      (fun _ ↦ False) linked := by
    decide +kernel
  obtain ⟨s, hs, hsettled, hr⟩ := linked_settled
  obtain ⟨⟨_, cwd, s'⟩, hret, rfl⟩ := (hrun.of_ok hs).exists_ok
  obtain ⟨rfl, hsame⟩ := failed_call_changes_nothing hsettled hr hret
  exact ⟨s, s', hs, hret, hsame⟩

end Xv6Bfs.Paths

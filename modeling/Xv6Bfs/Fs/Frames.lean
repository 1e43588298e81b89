import Xv6Bfs.Fs.BlockOwnership
import Xv6Bfs.Fs.Slots

namespace Xv6Bfs.Fs

open Lib.Bytes Lib.Execution Disk State

variable {sb : Superblock} {devsw : Devsw} {s s' s'' : State} {k : Fin NINODE} {d : ℕ}

structure Keeps (sb : Superblock) (d : ℕ) (s s' : State) : Prop where
  type : (s'.dinode sb d).type = (s.dinode sb d).type
  files : s'.files sb d = s.files sb d

namespace Keeps

theorem refl : Keeps sb d s s := ⟨rfl, rfl⟩

theorem trans (h : Keeps sb d s s') (h' : Keeps sb d s' s'') : Keeps sb d s s'' :=
  ⟨h'.type.trans h.type, h'.files.trans h.files⟩

theorem of_cache (h : s'.cache = s.cache) : Keeps sb d s s' := by
  obtain ⟨cache, icache, logged⟩ := s'
  obtain rfl : cache = s.cache := h
  exact ⟨rfl, rfl⟩

theorem of_data (h : WellFormed sb s) (hd : d < sb.ninodes) (ht : (s.dinode sb d).type ≠ 0)
    (htype : (s'.dinode sb d).type = (s.dinode sb d).type)
    (hsize : (s'.dinode sb d).size = (s.dinode sb d).size)
    (haddrs : (s'.dinode sb d).addrs = (s.dinode sb d).addrs)
    (hcache : ∀ c, sb.datastart ≤ c → s'.cache c = s.cache c) : Keeps sb d s s' := by
  refine ⟨htype, ?_⟩
  rw [State.files, contents, hsize]
  refine bytes_congr fun o _ ho ↦ ?_
  obtain ⟨c, hc⟩ := (h.noHoles d hd ht).exists_block (by omega : o < _)
  have haddr : addr s'.cache (s'.dinode sb d) (o / BSIZE) = addr s.cache (s.dinode sb d) (o / BSIZE) :=
    addr_congr (fun _ ↦ by rw [haddrs]) (by rw [haddrs])
      fun hl ↦ hcache _ (h.owned.mem _ _ (own_last hd ht hl)).1
  obtain ⟨-, -, -, ha, -⟩ := own_eq_some.mp hc
  rw [byte, byte, haddr]
  refine congrArg (peek · _) (hcache _ ?_)
  rw [ha]
  exact (h.owned.mem _ _ hc).1

theorem of_dinode (h : WellFormed sb s) (hd : d < sb.ninodes) (ht : (s.dinode sb d).type ≠ 0)
    (hdinode : s'.dinode sb d = s.dinode sb d)
    (hcache : ∀ c, sb.datastart ≤ c → s'.cache c = s.cache c) : Keeps sb d s s' :=
  of_data h hd ht (by rw [hdinode]) (by rw [hdinode]) (by rw [hdinode]) hcache

theorem of_putDinode {s₀ : State} {i : ℕ} {v : Dinode} (hs₀ : s₀.cache = s.cache)
    (h : WellFormed sb s) (hd : d < sb.ninodes) (ht : (s.dinode sb d).type ≠ 0) (hi : i < sb.ninodes)
    (hfits : v.Fits) (hsame : i = d → v.type = (s.dinode sb d).type ∧ v.size = (s.dinode sb d).size ∧
      v.addrs = (s.dinode sb d).addrs) : Keeps sb d s (s₀.putDinode sb i v) := by
  obtain ⟨cache, icache, logged⟩ := s₀
  obtain rfl : cache = s.cache := hs₀
  have hcache : ∀ c, sb.datastart ≤ c →
      ((⟨s.cache, icache, logged⟩ : State).putDinode sb i v).cache c = s.cache c :=
    fun c hc ↦ cache_putDinode hi hc
  by_cases hid : i = d
  · subst hid
    obtain ⟨htype, hsize, haddrs⟩ := hsame rfl
    have hself := @dinode_putDinode_self sb ⟨s.cache, icache, logged⟩ i _ hfits
    refine of_data h hd ht ?_ ?_ ?_ hcache
    · rw [hself, htype]
    · rw [hself, hsize]
    · rw [hself, haddrs]
  · exact of_dinode h hd ht (dinode_putDinode_ne hid) hcache

variable (h : Consistent sb s) (hd : d < sb.ninodes) (ht : (s.dinode sb d).type ≠ 0)

include h hd ht

theorem itrunc (hr : 0 < (s.icache k).ref) (hv : (s.icache k).valid = true)
    (hk : (s.icache k).inum ≠ d) : Ensures (Keeps sb d s) (fun _ ↦ False) (s.itrunc sb k) :=
  (itrunc_ensures h.toWellFormed hr hv).mono fun _ ⟨htr, _⟩ ↦
    of_dinode h.toWellFormed hd ht (htr.dinode d hd hk.symm) htr.cache

theorem iput (hr : 0 < (s.icache k).ref)
    (hk : (s.icache k).inum = d →
      ¬ ((s.icache k).valid ∧ (s.icache k).nlink = 0 ∧ (s.icache k).ref = 1)) :
    Ensures (Keeps sb d s) (fun _ ↦ True) (s.iput sb k) := by
  refine (iput_ensures h hr).anyError.mono fun s' hrel ↦ ?_
  by_cases he : (s.icache k).inum = d
  · exact of_cache (hrel.kept (hk he))
  · exact of_dinode h.toWellFormed hd ht (hrel.dinode d hd (Ne.symm he)) hrel.data

theorem ialloc (type : ℕ) :
    Ensures (fun r ↦ Keeps sb d s r.2) (fun _ ↦ True) (s.ialloc sb type) := by
  unfold State.ialloc
  split
  · rename_i i hfind
    have hfree : (s.dinode sb i).type = 0 := by simpa using List.find?_some hfind
    have hlt : i < sb.ninodes := by
      have := List.mem_range'_1.mp (List.mem_of_find?_eq_some hfind)
      omega
    have hne : i ≠ d := by
      rintro rfl
      exact ht hfree
    refine iget_ensures.anyError.mono fun r hg ↦ trans ?_ (of_cache hg.cache)
    exact of_dinode h.toWellFormed hd ht (dinode_putDinode_ne hne) fun c hc ↦ cache_putDinode hlt hc
  · trivial

theorem setAttrs (hl : (s.icache k).locked = true) {major minor nlink : ℕ}
    (hmajor : major < 2 ^ 16) (hminor : minor < 2 ^ 16) (hnlink : nlink < 2 ^ 16) :
    Keeps sb d s (s.setAttrs sb k major minor nlink) := by
  obtain ⟨hr, hv⟩ := h.locked k hl
  have hcached := (h.cached k hr hv).1
  have hlt := h.inum k hr
  have hfits : (s.icache k).toDinode.Fits := hcached ▸ dinode_fits
  rw [State.setAttrs, iupdate_setInode]
  refine of_putDinode (s := s) rfl h.toWellFormed hd ht hlt
    ⟨hfits.type, hmajor, hminor, hnlink, hfits.size, hfits.addrs⟩ fun he ↦ ?_
  rw [← he]
  simp only
  rw [← hcached]
  exact ⟨rfl, rfl, rfl⟩

theorem writei {src : List UInt8} {off : ℕ} (hl : (s.icache k).locked = true)
    (hlen : src.length < 2 ^ 32) (hk : (s.icache k).inum ≠ d) :
    Ensures (fun r ↦ Keeps sb d s r.2) (fun _ ↦ True) (s.writei sb devsw k src off) := by
  obtain ⟨hr, hv⟩ := h.locked k hl
  by_cases htype : (s.icache k).type = T_DEV
  · unfold State.writei
    simp only [if_pos htype]
    split
    · exact refl
    · split <;> exact refl
  · by_cases hok : off ≤ (s.icache k).size ∧ off + src.length < 2 ^ 32 ∧
        off + src.length ≤ MAXFILE * BSIZE
    · refine (h.toWellFormed.writei_ensures hr hv htype hok.1 hok.2.2).anyError.mono
        fun r ⟨_, w⟩ ↦ ⟨by rw [w.dinode d hd hk.symm], w.foreign d hd hk.symm ht⟩
    · rw [h.toWellFormed.writei_fails hr hv htype hlen hok]
      exact refl

end Keeps

theorem Gets.not_last {i : ℕ} (g : Gets i s k s') :
    ¬ ((s'.icache k).valid ∧ (s'.icache k).nlink = 0 ∧ (s'.icache k).ref = 1) := by
  rintro ⟨hv, -, hr⟩
  rcases g.self with ⟨hpos, -, hself⟩ | ⟨-, -, hself⟩
  · rw [hself] at hr
    simp only at hr
    omega
  · rw [hself] at hv
    cases hv

theorem Gets.ref_pos {i : ℕ} (g : Gets i s k s') : 0 < (s'.icache k).ref := by
  rcases g.self with ⟨hpos, -, hself⟩ | ⟨-, -, hself⟩ <;> simp [hself]

theorem Gets.inum {i : ℕ} (g : Gets i s k s') : (s'.icache k).inum = i := by
  rcases g.self with ⟨-, hi, hself⟩ | ⟨-, -, hself⟩
  · rw [hself, ← hi]
  · rw [hself]

def LooksUp (sb : Superblock) (s : State) (r : Option (Fin NINODE × ℕ) × State) : Prop :=
  r = (none, s) ∨ ∃ k' off i, r.1 = some (k', off) ∧ i < sb.ninodes ∧ Gets i s k' r.2

theorem Consistent.looksUpLoop {name : List UInt8} {l : List ℕ} (h : Consistent sb s)
    (hl : (s.icache k).locked = true) (ht : (s.icache k).type = T_DIR) (hnamed : Named sb k s)
    (hmem : ∀ off ∈ l, off ∈ offsets (s.icache k).size) :
    Ensures (LooksUp sb s) (fun _ ↦ True) (s.dirlookupLoop sb devsw k name l) := by
  induction l with
  | nil => exact .inl rfl
  | cons off l ih =>
    obtain ⟨e, rfl, hlt⟩ := mem_offsets (hmem _ (.head _))
    have ih := ih fun off' hoff ↦ hmem off' (.tail _ hoff)
    rw [State.dirlookupLoop, h.readi_dirent hl ht hlt, ok_bind]
    simp only
    split
    · trivial
    split
    · exact ih
    split
    · apply iget_ensures.anyError.bind
      intro r hg
      exact .inr ⟨r.1, DIRENT * e, _, rfl, hnamed e hlt, hg⟩
    · exact ih

theorem Consistent.looksUp {name : List UInt8} (h : Consistent sb s) (hl : (s.icache k).locked = true)
    (hnamed : Named sb k s) :
    Ensures (fun r ↦ LooksUp sb s r ∧ (s.icache k).type = T_DIR) (fun _ ↦ True)
      (s.dirlookup sb devsw k name) := by
  unfold State.dirlookup
  split
  · trivial
  · rename_i ht
    rw [not_not] at ht
    exact (h.looksUpLoop hl ht hnamed fun _ h ↦ h).mono fun r hr ↦ ⟨hr, ht⟩

theorem Keeps.dirlink {name : List UInt8} {inum : ℕ} (h : Consistent sb s) (hd : d < sb.ninodes)
    (ht : (s.dinode sb d).type ≠ 0) (hl : (s.icache k).locked = true) (hnamed : Named sb k s)
    (hk : (s.icache k).inum ≠ d) :
    Ensures (fun r ↦ Keeps sb d s r.2) (fun _ ↦ True) (s.dirlink sb devsw k name inum) := by
  apply (h.looksUp hl hnamed).bind
  rintro ⟨ip, s₁⟩ ⟨hup, htype⟩
  rcases hup with he | ⟨k', off, i, he, hi, hg⟩
  · cases he
    apply (h.dirlinkLoop hl htype fun _ h ↦ h).anyError.bind
    rintro ⟨hole, s₂⟩ rfl
    apply (Keeps.writei h hd ht hl (by simp [DIRENT]) hk).bind
    rintro ⟨r, s₃⟩ h₃
    dsimp only
    split
    · trivial
    · exact h₃
  · obtain rfl : ip = some (k', off) := he
    have h₁ : Keeps sb d s s₁ := .of_cache hg.cache
    apply (Keeps.iput (h.gets hi hg) hd (h₁.type ▸ ht) hg.ref_pos fun _ ↦ hg.not_last).bind
    intro s₂ h₂
    exact h₁.trans h₂

namespace Op

/-- The call does not write to the file `d`, and does not free it. -/
def Spares (d : ℕ) (op : Op) (s : State) : Prop :=
  match op with
  | iput k => (s.icache k).inum = d →
      ¬ ((s.icache k).valid ∧ (s.icache k).nlink = 0 ∧ (s.icache k).ref = 1)
  | itrunc k => (s.icache k).inum ≠ d
  | call (.writei k _ _) => (s.icache k).inum ≠ d
  | dirlink k _ _ => (s.icache k).inum ≠ d
  | _ => True

theorem step_keeps {op : Op} (h : Consistent sb s) (hn : op.Named sb s) (hs : op.Spares d s)
    (hd : d < sb.ninodes) (ht : (s.dinode sb d).type ≠ 0) :
    Ensures (Keeps sb d s) (fun _ ↦ True) (op.step sb devsw s) := by
  cases op <;> simp only [step]
  case iget inum =>
    exact iget_ensures.anyError.bind fun r hg ↦ .of_cache hg.cache
  case ialloc type =>
    split
    · exact (Keeps.ialloc h hd ht type).bind fun r hr ↦ hr
    · trivial
  case idup k =>
    split
    · exact .of_cache rfl
    · trivial
  case ilock k =>
    unfold State.ilock
    split
    · trivial
    split
    · trivial
    split
    · exact .of_cache rfl
    dsimp only
    split
    · trivial
    · exact .of_cache rfl
  case iunlock k =>
    unfold State.iunlock
    split
    · trivial
    · exact .of_cache rfl
  case iput k =>
    split
    · rename_i hr
      exact Keeps.iput h hd ht hr hs
    · trivial
  case itrunc k =>
    split
    · rename_i hl
      obtain ⟨hr, hv⟩ := h.locked k hl
      exact (Keeps.itrunc h hd ht hr hv hs).anyError
    · trivial
  case setAttrs k major minor nlink =>
    split
    · rename_i hok
      exact Keeps.setAttrs h hd ht hok.1 hok.2.1 hok.2.2.1 hok.2.2.2
    · trivial
  case call c =>
    split
    · rename_i hok
      cases c with
      | readi k off n =>
        obtain ⟨r, hr⟩ : ∃ r, s.readi sb devsw k off n = .ok (r, s) := h.readi hok.1 hok.2.1 hok.2.2
        rw [Call.run, hr]
        exact .refl
      | writei k src off =>
        have hrun : Ensures (fun r ↦ Keeps sb d s r.2) (fun _ ↦ True)
            ((Call.writei k src off).run sb devsw s) :=
          (Keeps.writei h hd ht hok.1 hok.2.2 hs).bind fun r hr ↦ hr
        exact hrun.bind fun r hr ↦ hr
    · trivial
  case dirlookup k name =>
    split
    · rename_i hl
      apply (h.looksUp hl hn).bind
      rintro ⟨ip, s₁⟩ ⟨he | ⟨k', off, i, -, -, hg⟩, -⟩
      · cases he
        exact .refl
      · exact .of_cache hg.cache
    · trivial
  case dirlink k name inum =>
    split
    · rename_i hl
      exact (Keeps.dirlink h hd ht hl hn hs).bind fun r hr ↦ hr
    · trivial

end Op

end Xv6Bfs.Fs

import Xv6Bfs.Fs.DirectoryMap
import Xv6Bfs.Paths.Namex

namespace Xv6Bfs.Paths

open Lib.Execution Lib.SlotMap Disk Fs Fs.State Sysfile

section

variable (sb : Superblock) (s : State)

structure Directories : Prop where
  whole : ∀ d < sb.ninodes, (s.dinode sb d).type = T_DIR → DIRENT ∣ (s.files sb d).length
  named : ∀ d < sb.ninodes, (s.dinode sb d).type = T_DIR →
    ∀ de ∈ dirents (s.files sb d), deInum de < sb.ninodes

def Linked (i : ℕ) : Prop :=
  (s.dinode sb i).type ≠ 0 → (s.dinode sb i).nlink = 0 → ∃ k, 0 < (s.icache k).ref ∧ (s.icache k).inum = i

structure Settled : Prop extends Directories sb s where
  consistent : Consistent sb s
  unlocked : ∀ k, (s.icache k).locked = false
  root : ROOTINO < sb.ninodes
  linkedRoot : Linked sb s ROOTINO
  linked : ∀ d < sb.ninodes, (s.dinode sb d).type = T_DIR → ∀ de ∈ dirents (s.files sb d),
    deInum de ≠ 0 → Linked sb s (deInum de)

/-- What is left of the file system `s₀`: inodes without a link or a reference have been freed, and
nothing else has changed. -/
structure Remains (s₀ : State) : Prop where
  consistent : Consistent sb s
  data : ∀ c, sb.datastart ≤ c → s.cache c = s₀.cache c
  disk : ∀ d < sb.ninodes, s.dinode sb d = s₀.dinode sb d ∨
    (s.dinode sb d).type = 0 ∧ ¬ Linked sb s₀ d

/-- A call that began in `s₀` has the references in `l` and the locks in `k`. If everything that can be
found in `s₀` is linked, then the references are to inodes that `iput` does not free. -/
structure Borrows (s₀ : State) (l k : List (Fin NINODE)) : Prop extends Remains sb s s₀ where
  ref : ∀ h, (s.icache h).ref = (s₀.icache h).ref + l.count h
  inum : ∀ h, 0 < (s₀.icache h).ref → (s.icache h).inum = (s₀.icache h).inum
  locked : ∀ h, (s.icache h).locked = true ↔ h ∈ k ∨ (s₀.icache h).locked = true
  own : ∀ h ∈ k, (s₀.icache h).locked = false
  nodup : k.Nodup
  settled : Settled sb s₀ → s.cache = s₀.cache ∧ ∀ h ∈ l, Linked sb s₀ (s.icache h).inum

end

variable {sb : Superblock} {devsw : Devsw} {s s' s₀ : State} {l k : List (Fin NINODE)} {h : Fin NINODE}

theorem Settled.binding_linked (hs : Settled sb s) {d i : ℕ} {name : List UInt8} (hd : d < sb.ninodes)
    (ht : (s.dinode sb d).type = T_DIR) (hi : s.bindings sb d name = some i) : Linked sb s i := by
  obtain ⟨de, hde, hb⟩ := List.exists_of_findSome?_eq_some hi
  obtain ⟨b, hbind, hb⟩ := Option.bind_eq_some_iff.mp hb
  unfold binding at hbind
  split at hbind
  · cases hbind
  · rename_i h0
    obtain rfl := Option.some.inj hbind
    split at hb
    · rw [← Option.some.inj hb]
      exact hs.linked d hd ht de hde h0
    · cases hb

namespace Remains

theorem of_cache (h : Remains sb s s₀) (hok : Consistent sb s') (hcache : s'.cache = s.cache) :
    Remains sb s' s₀ where
  consistent := hok
  data c hc := by rw [hcache, h.data c hc]
  disk d hd := by
    rw [State.dinode, hcache]
    exact h.disk d hd

theorem dinode (h : Remains sb s s₀) {d : ℕ} (hd : d < sb.ninodes) (ht : (s.dinode sb d).type ≠ 0) :
    s.dinode sb d = s₀.dinode sb d := (h.disk d hd).resolve_right fun hfreed ↦ ht hfreed.1

theorem keeps (h : Remains sb s s₀) (h₀ : Consistent sb s₀) {d : ℕ} (hd : d < sb.ninodes)
    (ht : (s.dinode sb d).type ≠ 0) : Keeps sb d s₀ s := by
  have hdinode := h.dinode hd ht
  exact .of_dinode h₀.toWellFormed hd (hdinode ▸ ht) hdinode h.data

theorem locked (h : Remains sb s s₀) (h₀ : Consistent sb s₀) {k : Fin NINODE}
    (hl : (s.icache k).locked = true) :
    (s.icache k).inum < sb.ninodes ∧ Keeps sb (s.icache k).inum s₀ s ∧
      (s₀.dinode sb (s.icache k).inum).type = (s.icache k).type := by
  obtain ⟨hr, hv⟩ := h.consistent.locked k hl
  obtain ⟨hdinode, ht⟩ := h.consistent.cached k hr hv
  have hd := h.consistent.inum k hr
  have hkeep := h.keeps h₀ hd (by rwa [← hdinode])
  exact ⟨hd, hkeep, by rw [← hkeep.type, ← hdinode]⟩

theorem releases {k : Fin NINODE} (h : Remains sb s s₀) (hr : Releases sb k s s')
    (hlast : Last k s → ¬ Linked sb s₀ (s.icache k).inum) : Remains sb s' s₀ := by
  refine ⟨hr.consistent, fun c hc ↦ by rw [hr.data c hc, h.data c hc], fun d hd ↦ ?_⟩
  by_cases hd' : d = (s.icache k).inum
  · by_cases hl : Last k s
    · rw [hd']
      exact .inr ⟨hr.freed hl, hlast hl⟩
    · exact (h.of_cache hr.consistent (hr.kept hl)).disk d hd
  · rw [hr.dinode d hd hd']
    exact h.disk d hd

end Remains

def Looks (sb : Superblock) (s : State) (found : Option ℕ) (r : Option (Fin NINODE × ℕ) × State) : Prop :=
  (r = (none, s) ∧ found = none) ∨
    ∃ k' off i, r.1 = some (k', off) ∧ found = some i ∧ i < sb.ninodes ∧ Gets i s k' r.2

theorem dirlookup_looks {name : List UInt8} {k : Fin NINODE} (h : Consistent sb s)
    (hl : (s.icache k).locked = true) (ht : (s.icache k).type = T_DIR)
    (hwhole : DIRENT ∣ (s.files sb (s.icache k).inum).length)
    (hnamed : ∀ de ∈ dirents (s.files sb (s.icache k).inum), deInum de < sb.ninodes) :
    Ensures (Looks sb s (s.bindings sb (s.icache k).inum (key name)))
      (fun e ↦ e = .igetNoInodes ∧ ∀ h, 0 < (s.icache h).ref) (s.dirlookup sb devsw k name) := by
  obtain ⟨hr, hv⟩ := h.locked k hl
  have hfile : s.files sb (s.icache k).inum = contents s.cache (s.icache k).toDinode := by
    rw [State.files, h.contents_eq hr hv]
  rw [hfile, length_contents] at hwhole
  have hlook : s.bindings sb (s.icache k).inum (key name) =
      ((List.range ((s.icache k).size / DIRENT)).find? fun e ↦
        deInum (s.entry k e) ≠ 0 ∧ key name = key (deName (s.entry k e))).map
        fun e ↦ deInum (s.entry k e) := by
    rw [State.bindings, hfile, List.find?_eq_findSome?_guard, List.map_findSome?, lookup, dirents,
      List.findSome?_map, length_contents]
    refine congrArg (List.findSome? · _) (funext fun e ↦ ?_)
    change ((binding (s.entry k e)).bind fun b ↦ if b.1 = key name then some b.2 else none) = _
    rw [binding]
    by_cases h0 : deInum (s.entry k e) = 0
    · simp [h0]
    · by_cases hk : key name = key (deName (s.entry k e))
      · simp [h0, hk]
      · simp [h0, hk, Ne.symm hk]
  rw [h.dirlookup_eq hl ht hwhole]
  split
  · rename_i hnone
    rw [hnone] at hlook
    exact .inl ⟨rfl, hlook⟩
  · rename_i e hsome
    rw [hsome] at hlook
    have he := List.mem_range.mp (List.mem_of_find?_eq_some hsome)
    have hmem : s.entry k e ∈ dirents (s.files sb (s.icache k).inum) :=
      hfile ▸ List.mem_of_getElem? (entry_eq he)
    apply iget_ensures.bind
    intro r hg
    exact .inr ⟨r.1, DIRENT * e, _, rfl, hlook, hnamed _ hmem, hg⟩

theorem Remains.dirlookup {name : List UInt8} {k : Fin NINODE} (h₀ : Consistent sb s₀)
    (hdirs : Directories sb s₀) (h : Remains sb s s₀) (hl : (s.icache k).locked = true)
    (ht : (s.icache k).type = T_DIR) :
    Ensures (Looks sb s (s₀.bindings sb (s.icache k).inum (key name)))
      (fun e ↦ e = .igetNoInodes ∧ ∀ h, 0 < (s.icache h).ref) (s.dirlookup sb devsw k name) := by
  obtain ⟨hd, hkeep, htype⟩ := h.locked h₀ hl
  have hwhole := hdirs.whole _ hd (htype.trans ht)
  have hnamed := hdirs.named _ hd (htype.trans ht)
  have hbind : s.bindings sb (s.icache k).inum = s₀.bindings sb (s.icache k).inum := by
    rw [State.bindings, hkeep.files, State.bindings]
  rw [← hkeep.files] at hwhole hnamed
  rw [← hbind]
  exact dirlookup_looks h.consistent hl ht hwhole hnamed

namespace Borrows

theorem refl (h : Consistent sb s) : Borrows sb s s [] [] where
  consistent := h
  data _ _ := rfl
  disk _ _ := .inl rfl
  ref _ := rfl
  inum _ _ := rfl
  locked h := by simp
  own := nofun
  nodup := List.nodup_nil
  settled _ := ⟨rfl, nofun⟩

theorem swap {h' : Fin NINODE} (hb : Borrows sb s s₀ (h :: h' :: l) k) :
    Borrows sb s s₀ (h' :: h :: l) k where
  toRemains := hb.toRemains
  ref i := by rw [hb.ref, (List.Perm.swap h' h l).count_eq]
  inum := hb.inum
  locked := hb.locked
  own := hb.own
  nodup := hb.nodup
  settled hs := ⟨(hb.settled hs).1,
    fun i hi ↦ (hb.settled hs).2 i ((List.Perm.swap h' h l).mem_iff.mpr hi)⟩

section

variable (hb : Borrows sb s s₀ l k)
include hb

theorem ref_pos (hl : h ∈ l) : 0 < (s.icache h).ref := by
  rw [hb.ref]
  exact Nat.add_pos_right _ (List.count_pos_iff.mpr hl)

theorem locked_mem (hk : h ∈ k) : (s.icache h).locked = true :=
  (hb.locked h).mpr (.inl hk)

theorem gets {i : ℕ} (hi : i < sb.ninodes)
    (hlinked : Settled sb s₀ → Linked sb s₀ i) (g : Gets i s h s') : Borrows sb s' s₀ (h :: l) k := by
  refine ⟨hb.toRemains.of_cache (hb.consistent.gets hi g) g.cache, fun h' ↦ ?_, fun h' hr ↦ ?_,
    fun h' ↦ ?_, hb.own, hb.nodup, fun hs ↦ ⟨g.cache.trans (hb.settled hs).1, fun h' hl ↦ ?_⟩⟩
  · by_cases hh : h' = h
    · subst hh
      rw [g.ref_eq, hb.ref, List.count_cons_self, Nat.add_assoc]
    · rw [g.others h' hh, hb.ref, List.count_cons_of_ne (Ne.symm hh)]
  · rw [g.inum_eq (by rw [hb.ref]; omega), hb.inum h' hr]
  · rw [g.locked_eq, hb.locked]
  · rcases List.mem_cons.mp hl with rfl | hl
    · rw [g.inum]
      exact hlinked hs
    · rw [g.inum_eq (hb.ref_pos hl)]
      exact (hb.settled hs).2 h' hl

theorem idup (hr : 0 < (s₀.icache h).ref) : Borrows sb (s.idup h) s₀ (h :: l) k := by
  have hpos : 0 < (s.icache h).ref := by
    rw [hb.ref]
    omega
  refine hb.gets (hb.consistent.inum h hpos) (fun _ _ _ ↦ ⟨h, hr, ?_⟩) (gets_idup hpos)
  exact (hb.inum h hr).symm

theorem locks (hlock : Locks sb h true s s') : Borrows sb s' s₀ l (h :: k) := by
  have hfree : ¬ (h ∈ k ∨ (s₀.icache h).locked = true) := by
    rw [← hb.locked, hlock.before]
    decide
  obtain ⟨hk, h₀⟩ := not_or.mp hfree
  refine ⟨hb.toRemains.of_cache hlock.consistent hlock.cache, fun h' ↦ ?_, fun h' hr ↦ ?_, fun h' ↦ ?_,
    fun h' hl ↦ ?_, List.nodup_cons.mpr ⟨hk, hb.nodup⟩,
    fun hs ↦ ⟨hlock.cache.trans (hb.settled hs).1, fun h' hl ↦ ?_⟩⟩
  · rw [hlock.ref, hb.ref]
  · rw [hlock.inum, hb.inum h' hr]
  · by_cases hh : h' = h
    · subst hh
      simp [hlock.self]
    · rw [hlock.others h' hh, hb.locked, List.mem_cons, or_iff_right hh]
  · rcases List.mem_cons.mp hl with rfl | hl
    · exact Bool.not_eq_true _ ▸ h₀
    · exact hb.own h' hl
  · rw [hlock.inum]
    exact (hb.settled hs).2 h' hl

end

theorem iunlock (hb : Borrows sb s s₀ l (h :: k)) :
    ∃ s', s.iunlock h = .ok s' ∧ Borrows sb s' s₀ l k := by
  obtain ⟨s', hs', hlock, -⟩ := iunlock_ok hb.consistent (hb.locked_mem List.mem_cons_self)
  obtain ⟨hk, hnodup⟩ := List.nodup_cons.mp hb.nodup
  refine ⟨s', hs', hb.toRemains.of_cache hlock.consistent hlock.cache, fun h' ↦ ?_, fun h' hr ↦ ?_,
    fun h' ↦ ?_, fun h' hl ↦ hb.own h' (List.mem_cons_of_mem h hl), hnodup,
    fun hs ↦ ⟨hlock.cache.trans (hb.settled hs).1, fun h' hl ↦ ?_⟩⟩
  · rw [hlock.ref, hb.ref]
  · rw [hlock.inum, hb.inum h' hr]
  · by_cases hh : h' = h
    · subst hh
      simp [hlock.self, hk, hb.own h' List.mem_cons_self]
    · rw [hlock.others h' hh, hb.locked, List.mem_cons, or_iff_right hh]
  · rw [hlock.inum]
    exact (hb.settled hs).2 h' hl

theorem not_last (hb : Borrows sb s s₀ (h :: l) k) (hlinked : Linked sb s₀ (s.icache h).inum) :
    ¬ Last h s := by
  rintro ⟨hv, hn, hr⟩
  have hpos : 0 < (s.icache h).ref := hb.ref_pos List.mem_cons_self
  obtain ⟨hdinode, ht⟩ := hb.consistent.cached h hpos hv
  rw [hdinode] at hn ht
  rw [hb.dinode (hb.consistent.inum h hpos) ht] at hn ht
  obtain ⟨h', hr', hinum⟩ := hlinked ht hn
  have href' := hb.ref h'
  have heq : h' = h := by
    refine hb.consistent.distinct h' h (by omega) hpos ?_
    rw [hb.inum h' hr', hinum]
  subst heq
  rw [List.count_cons_self] at href'
  omega

theorem releases (hb : Borrows sb s s₀ (h :: l) k) (h₀ : (s₀.icache h).locked = false)
    (hr : Releases sb h s s') : Borrows sb s' s₀ l (k.erase h) := by
  refine ⟨hb.toRemains.releases hr fun hlast hlinked ↦ hb.not_last hlinked hlast, fun h' ↦ ?_,
    fun h' h₀ ↦ ?_, fun h' ↦ ?_, fun h' hl ↦ hb.own h' (List.mem_of_mem_erase hl), hb.nodup.erase h,
    fun hs ↦ ?_⟩
  · by_cases hh : h' = h
    · subst hh
      rw [hr.ref, hb.ref, List.count_cons_self]
      omega
    · rw [hr.others h' hh, hb.ref, List.count_cons_of_ne (Ne.symm hh)]
  · rw [hr.inum_eq, hb.inum h' h₀]
  · rw [hb.nodup.mem_erase_iff]
    by_cases hh : h' = h
    · subst hh
      simp [hr.locked, h₀]
    · rw [hr.others h' hh, hb.locked, and_iff_right hh]
  · obtain ⟨hcache, hlinked⟩ := hb.settled hs
    refine ⟨(hr.kept (hb.not_last (hlinked h List.mem_cons_self))).trans hcache, fun h' hl ↦ ?_⟩
    rw [hr.inum_eq]
    exact hlinked h' (List.mem_cons_of_mem h hl)

theorem ilock (hb : Borrows sb s s₀ l k) (hr : 0 < (s.icache h).ref) :
    Ensures (fun s' ↦ Borrows sb s' s₀ l (h :: k)) (fun e ↦ e = .sleeps ∧ (s.icache h).locked = true ∨
      e = .ilockNoType ∧ (s.dinode sb (s.icache h).inum).type = 0) (s.ilock sb h) :=
  (ilock_ensures hb.consistent hr).mono fun _ ↦ hb.locks

theorem iput (hb : Borrows sb s s₀ (h :: l) k) :
    Ensures (fun s' ↦ Borrows sb s' s₀ l k) (fun e ↦ e = .sleeps ∧ (s.icache h).locked = true)
      (s.iput sb h) := by
  by_cases hl : (s.icache h).locked = true
  · rw [State.iput, if_pos hl]
    exact ⟨rfl, hl⟩
  · refine (iput_ensures hb.consistent (hb.ref_pos List.mem_cons_self)).mono fun s' hr ↦ ?_
    obtain ⟨hk, h₀⟩ := not_or.mp (mt (hb.locked h).mpr hl)
    have := hb.releases (Bool.not_eq_true _ ▸ h₀) hr
    rwa [List.erase_of_not_mem hk] at this

theorem iunlockput_inum (hb : Borrows sb s s₀ (h :: l) (h :: k)) :
    Ensures (fun s' ↦ Borrows sb s' s₀ l k ∧ ∀ h', (s'.icache h').inum = (s.icache h').inum)
      (fun _ ↦ False) (Sysfile.iunlockput (Files.icache sb devsw) h s) := by
  refine (iunlock_iput_ensures hb.consistent (hb.locked_mem List.mem_cons_self)).mono fun s' hr ↦ ?_
  have hreleased := hb.releases (hb.own h List.mem_cons_self) hr
  rw [List.erase_cons_head] at hreleased
  exact ⟨hreleased, hr.inum_eq⟩

theorem iunlockput (hb : Borrows sb s s₀ (h :: l) (h :: k)) :
    Ensures (fun s' ↦ Borrows sb s' s₀ l k) (fun _ ↦ False)
      (Sysfile.iunlockput (Files.icache sb devsw) h s) := hb.iunlockput_inum.mono fun _ hb ↦ hb.1

def Carries (sb : Superblock) (s₀ : State) (l k : List (Fin NINODE)) {α : Type}
    (r : Option (Fin NINODE × α) × State) : Prop :=
  match r.1 with
  | none => Borrows sb r.2 s₀ l k
  | some x => Borrows sb r.2 s₀ (x.1 :: l) k

theorem dirlookup (h₀ : Consistent sb s₀) (hdirs : Directories sb s₀) (hb : Borrows sb s s₀ l k)
    (hk : h ∈ k) (ht : (s.icache h).type = T_DIR) (name : List UInt8) :
    Ensures (fun r ↦ Carries sb s₀ l k r ∧
        (r.1.map fun x ↦ (r.2.icache x.1).inum) = s₀.bindings sb (s.icache h).inum (key name))
      (fun e ↦ e = .igetNoInodes ∧ ∀ h, 0 < (s.icache h).ref) (s.dirlookup sb devsw h name) := by
  have hlock := hb.locked_mem hk
  obtain ⟨hd, -, htype⟩ := hb.toRemains.locked h₀ hlock
  refine (hb.toRemains.dirlookup h₀ hdirs hlock ht).mono fun r hlooks ↦ ?_
  rcases hlooks with ⟨rfl, hnone⟩ | ⟨h', off, i, hr, hfound, hi, hg⟩
  · exact ⟨hb, hnone.symm⟩
  · refine ⟨?_, ?_⟩
    · rw [Carries, hr]
      exact hb.gets hi (fun hs ↦ hs.binding_linked hd (htype.trans ht) hfound) hg
    · rw [hr, hfound, ← hg.inum]
      rfl

end Borrows

end Xv6Bfs.Paths

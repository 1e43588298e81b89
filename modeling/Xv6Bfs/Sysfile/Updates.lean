import Xv6Bfs.Sysfile.Lookup
import Mathlib.Algebra.BigOperators.Ring.Finset

namespace Xv6Bfs.Sysfile

open Lib.Execution Lib.FiniteSum Disk Fs Function

/-- What holds of the file system: the references are right, the directories are a tree, and they fit
on the disk. -/
structure Inv (base : ℕ → ℕ) (l k : List ℕ) (s : Store) : Prop where
  refs : Refs base l k s
  tree : Tree s.ninodes s.ino
  ninodes : s.ninodes ≤ 2 ^ 16
  size : s.size ≤ FSSIZE
  room : s.used ≤ s.size * BSIZE

def Dead (v : Ino) : Prop := v.type = T_DIR ∧ v.nlink = 0

structure Kept (base : ℕ → ℕ) (l k : List ℕ) (s s' : Store) : Prop where
  inv : Inv base l k s'
  dead : ∀ j, Dead (s'.ino j) → Dead (s.ino j)

variable {base base' : ℕ → ℕ} {l l' k k' : List ℕ} {s s' : Store} {x d dp ip cwd : ℕ} {path : Path}
  {name : Name}

theorem IsDir.contrib_le {v : Ino} (h : v.type = T_DIR → IsDir d v) (i : ℕ) :
    contrib v i ≤ v.entries.length := by
  by_cases hl : Live v
  · rw [contrib_of_live hl, (h hl.1).entries]
    have : cnt (rest v) i ≤ (rest v).length := List.countP_le_length
    simp only [List.length_cons]
    split <;> omega
  · rw [contrib_of_not_live hl]
    exact Nat.zero_le _

theorem fails_of_ne {ino : ℕ → Ino} {e : Panic} (h : e ≠ .disabled) (h' : e ≠ .ilockNoType) : Fails ino e :=
  ⟨h, fun he ↦ absurd he h'⟩

theorem Same.used (h : Same s s') : s'.used = s.used := by
  rw [Store.used, Store.used, h.ninodes, h.ino]

theorem Same.setIno (h : Same s s') (x : ℕ) (v : Ino) : Same (s.setIno x v) (s'.setIno x v) :=
  ⟨h.size, h.ninodes, by simp only [Store.setIno, h.ino]⟩

theorem setIno_setIno (v w : Ino) : (s.setIno x v).setIno x w = s.setIno x w := by
  simp only [Store.setIno, update_idem]

theorem used_setIno (v : Ino) (hx : x < s.ninodes) :
    (s.setIno x v).used + DIRENT * (s.ino x).entries.length = s.used + DIRENT * v.entries.length :=
  sum_update_add (Finset.mem_range.mpr hx) (fun v ↦ DIRENT * v.entries.length) s.ino v

theorem Kept.trans {s'' : Store} (h : Kept base l k s s') (h' : Kept base' l' k' s' s'') :
    Kept base' l' k' s s'' := ⟨h'.inv, fun j hj ↦ h.dead j (h'.dead j hj)⟩

namespace Inv

theorem of_same (h : Inv base l k s) (hs : Same s s') (hr : Refs base' l' k' s') : Inv base' l' k' s' where
  refs := hr
  tree := by rw [hs.ninodes, hs.ino]; exact h.tree
  ninodes := hs.ninodes ▸ h.ninodes
  size := hs.size ▸ h.size
  room := by
    rw [hs.used, hs.size]
    exact h.room

theorem kept (h : Inv base l k s) (hs : Same s s') (hr : Refs base' l' k' s') : Kept base' l' k' s s' :=
  ⟨h.of_same hs hr, fun _ hj ↦ hs.ino ▸ hj⟩

theorem nlink_lt (h : Inv base l k s) (hx : (s.ino x).type ≠ 0) : (s.ino x).nlink + 1 < 2 ^ 16 := by
  have hle : ∑ d ∈ Finset.range s.ninodes, contrib (s.ino d) x ≤
      ∑ d ∈ Finset.range s.ninodes, (s.ino d).entries.length :=
    Finset.sum_le_sum fun d _ ↦ IsDir.contrib_le (h.tree.dir d) x
  have hroom := h.room
  have hsize := h.size
  rw [Store.used, ← Finset.mul_sum] at hroom
  rw [h.tree.nlink x hx]
  simp only [DIRENT, BSIZE, FSSIZE] at *
  omega

theorem root (h : Inv base l k s) : (s.ino ROOTINO).type ≠ 0 := h.tree.root.1.type_ne_zero

end Inv

theorem Refs.iputLast (h : Refs base l k s) (hx : 0 < base x) (hl : x ∉ l) (hk : x ∉ k) :
    ∃ s', s.iput x = .ok s' ∧ Refs (update base x (base x - 1)) l k s' ∧ s'.size = s.size ∧
      s'.ninodes = s.ninodes ∧ (s'.ino = s.ino ∨ (s.ino x).nlink = 0 ∧
        s'.ino = update s.ino x { s.ino x with type := 0, entries := [] }) := by
  have hlock : s.locked x = false := by
    rw [← Bool.not_eq_true, h.locked]
    exact hk
  have hbase := h.ref x
  rw [List.count_eq_zero.mpr hl, Nat.add_zero] at hbase
  have href : ∀ j, update s.ref x (s.ref x - 1) j = update base x (base x - 1) j + l.count j := by
    intro j
    by_cases hj : j = x
    · subst hj
      rw [update_self, update_self, hbase, List.count_eq_zero.mpr hl]
      omega
    · rw [update_of_ne hj, update_of_ne hj, h.ref]
  have hpos : ∀ j, 0 < update base x (base x - 1) j → 0 < base j := by
    intro j hj
    have := update_pred hx j
    omega
  have hlk : ∀ j ∈ k, j ≠ x := by
    rintro j hj rfl
    exact hk hj
  by_cases hfree : s.valid x = true ∧ (s.ino x).nlink = 0 ∧ s.ref x = 1
  · obtain ⟨hv, hnl, hr⟩ := hfree
    refine ⟨{ s.setIno x { s.ino x with type := 0, entries := [] } with
      valid := update s.valid x false, ref := update s.ref x (s.ref x - 1) }, ?_, ?_, rfl, rfl, .inr ⟨hnl, rfl⟩⟩
    · simp only [Store.iput]
      rw [if_neg (by simp [hlock]), if_pos ⟨hv, hnl, hr⟩]
      rfl
    · have hzero : update base x (base x - 1) x = 0 := by
        rw [update_self]
        omega
      refine ⟨href, h.locked, h.nodup, fun j hj ↦ ?_, fun j hj hv' ↦ ?_, fun j hj ↦ ?_, fun j ht hl' ↦ ?_⟩
      all_goals simp only [Store.setIno] at *
      · rw [update_of_ne (hlk j hj), update_of_ne (hlk j hj)]
        exact h.lock j hj
      all_goals
        have hjx : j ≠ x := by
          rintro rfl
          simp_all
        simp only [update_of_ne hjx] at *
      · exact h.valid j hj hv'
      · exact h.held j hj
      · exact h.orphan j ht hl'
  · refine ⟨{ s with ref := update s.ref x (s.ref x - 1) }, ?_, ⟨href, h.locked, h.nodup, fun j hj ↦ ?_,
      fun j hj hv ↦ ?_, fun j hj ↦ h.held j (hpos j hj), fun j ht hl' ↦ ?_⟩, rfl, rfl, .inl rfl⟩
    · simp [Store.iput, hlock, hfree]
    · simpa only [update_of_ne (hlk j hj)] using h.lock j hj
    · refine h.valid j ?_ hv
      have hle := update_pred (show 0 < s.ref x by omega) j
      simp only at hj
      omega
    · obtain ⟨hb, hv⟩ := h.orphan j ht hl'
      refine ⟨?_, hv⟩
      by_cases hjx : j = x
      · subst hjx
        rw [update_self]
        have : s.ref j ≠ 1 := fun hr ↦ hfree ⟨hv, hl', hr⟩
        omega
      · rwa [update_of_ne hjx]

theorem Inv.iputLast (h : Inv base l k s) (hx : 0 < base x) (hl : x ∉ l) (hk : x ∉ k) :
    ∃ s', s.iput x = .ok s' ∧ Kept (update base x (base x - 1)) l k s s' := by
  obtain ⟨s', he, hr, hsize, hn, hino⟩ := h.refs.iputLast hx hl hk
  rcases hino with hino | ⟨hnl, hino⟩
  · exact ⟨s', he, h.kept ⟨hsize, hn, hino⟩ hr⟩
  · have ht := h.refs.held x hx
    refine ⟨s', he, ⟨hr, ?_, hn ▸ h.ninodes, hsize ▸ h.size, ?_⟩, fun j hj ↦ ?_⟩
    · rw [hn, hino]
      exact h.tree.free ht hnl rfl
    · generalize hv : ({ s.ino x with type := 0, entries := [] } : Ino) = v at hino
      have hused := used_setIno v (h.tree.alloc x ht).2
      have hroom := h.room
      rw [Same.used (s := s.setIno x v) ⟨hsize, hn, hino⟩, hsize]
      simp only [← hv, List.length_nil] at hused ⊢
      omega
    · rw [hino] at hj
      by_cases hjx : j = x
      · subst hjx
        rw [update_self] at hj
        exact absurd hj.1 (show (0 : ℕ) ≠ T_DIR by decide)
      · rwa [update_of_ne hjx] at hj

theorem dirlink_none (ino : ℕ → Ino) (name : Name) {i : ℕ} {v : Ino} (hx : s.ino x = v) (hdir : v.type = T_DIR)
    (hl : lookup v.entries name = none) (hi : i < 2 ^ 16) :
    Ensures (fun r ↦ r = (0, s.setIno x ⟨v.toAttrs, addEntry v.entries ⟨i, name⟩⟩) ∧
        r.2.used ≤ s.size * BSIZE) (Fails ino) (s.dirlink x name i) := by
  unfold Store.dirlink Store.dirlookup
  simp only [hx, hdir, hl, Nat.mod_eq_of_lt hi, ne_eq, not_true_eq_false, if_false, ok_bind]
  split
  · exact fails_of_ne (by decide) (by decide)
  split
  · exact fails_of_ne (by decide) (by decide)
  · rename_i hused
    exact ⟨rfl, not_lt.mp hused⟩

theorem Refs.dirlink_some (ino : ℕ → Ino) {i e : ℕ} (h : Refs base l k s) (hx : (s.ino x).type = T_DIR)
    (hl : lookup (s.ino x).entries name = some e) :
    Ensures (fun r ↦ r.1 = -1 ∧ Same s r.2 ∧ Refs base l k r.2) (Fails ino) (s.dirlink x name i) := by
  obtain ⟨s₁, h₁, hs₁, hr₁⟩ := h.dirlookup name hx
  rw [hl] at h₁ hr₁
  simp only [Store.dirlink, h₁, ok_bind, Option.map_some]
  by_cases hk : ((s.ino x).entries.getD e emptyEntry).inum ∈ k
  · rw [Store.iput, if_pos ((hr₁.locked _).mpr hk)]
    exact fails_of_ne (by decide) (by decide)
  · obtain ⟨s₂, h₂, hr₂, hs₂⟩ := hr₁.iput hk
    rw [h₂, ok_bind]
    exact ⟨rfl, hs₁.trans hs₂, hr₂⟩

theorem ialloc_eq {type : ℕ} (htype : type ≠ 0) (href : s.ref x = 0) (hlock : s.locked x = false)
    (hi : (List.range' 1 (s.ninodes - 1)).find? (fun inum ↦ (s.ino inum).type = 0) = some x) :
    ∃ s₁, s.ialloc type = .ok (x, s₁) ∧ s₁.ilock x = .ok { s with
      ino := update s.ino x ⟨⟨type, 0, 0, 0⟩, []⟩, ref := update s.ref x 1
      valid := update s.valid x true, locked := update s.locked x true } := by
  refine ⟨{ s with
      ino := update s.ino x ⟨⟨type, 0, 0, 0⟩, []⟩, ref := update s.ref x 1
      valid := update s.valid x false }, ?_, ?_⟩
  · simp only [Store.ialloc, hi, Store.iget, Store.setIno, href, if_true]
  · simp [Store.ilock, hlock, htype]

theorem Refs.alloc {v : Ino} (h : Refs base l k s) (hx : (s.ino x).type = 0) (hl : x ∉ l) (hk : x ∉ k)
    (hv : v.type ≠ 0) (hlink : v.nlink ≠ 0) :
    Refs base (x :: l) (x :: k) { s with
      ino := update s.ino x v, ref := update s.ref x 1
      valid := update s.valid x true, locked := update s.locked x true } := by
  have hbase : base x = 0 := by
    by_contra hb
    exact h.held x (Nat.pos_of_ne_zero hb) hx
  have href : s.ref x = 0 := by rw [h.ref, hbase, List.count_eq_zero.mpr hl]
  refine ⟨fun j ↦ ?_, fun j ↦ ?_, List.nodup_cons.mpr ⟨hk, h.nodup⟩, fun j hj ↦ ?_, fun j hj hv' ↦ ?_,
    fun j hj ↦ ?_, fun j ht hl' ↦ ?_⟩
  · have := h.ref_cons x j
    rwa [href] at this
  all_goals rcases eq_or_ne j x with rfl | hjx
  any_goals
    simp_all
    done
  all_goals simp only [update_of_ne hjx, List.mem_cons, hjx, false_or] at *
  · exact h.locked j
  · exact h.lock j hj
  · exact h.valid j hj hv'
  · exact h.held j hj
  · exact h.orphan j ht hl'

theorem Inv.edit {v w : Ino} (h : Inv base l' k' s) (hr : Refs base l k s')
    (hs : Same ((s.setIno ip v).setIno dp w) s') (hv : v.nlink ≠ 0) (hw : w.nlink ≠ 0)
    (htree : Tree s.ninodes (update (update s.ino ip v) dp w)) (hused : s'.used ≤ s.size * BSIZE) :
    Kept base l k s s' := by
  obtain ⟨hsize, hn, hino⟩ := hs
  simp only [Store.setIno] at hsize hn hino
  refine ⟨⟨hr, ?_, hn ▸ h.ninodes, hsize ▸ h.size, hsize ▸ hused⟩, fun j hj ↦ ?_⟩
  · rw [hn, hino]
    exact htree
  · rw [hino] at hj
    by_cases hjd : j = dp
    · subst hjd
      rw [update_self] at hj
      exact absurd hj.2 hw
    · rw [update_of_ne hjd] at hj
      by_cases hji : j = ip
      · subst hji
        rw [update_self] at hj
        exact absurd hj.2 hv
      · rwa [update_of_ne hji] at hj

theorem createEntry_ensures {s₀ : Store} {v w : Ino} (h₀ : Inv base l' k' s₀)
    (hr : Refs base [ip, dp] [ip, dp] s) (hs : Same ((s₀.setIno ip v).setIno dp w) s)
    (hv : v.nlink ≠ 0) (hw : Live w)
    (hip : ip < s₀.ninodes) (hl : lookup w.entries name = none)
    (htree : Tree s₀.ninodes (update (update s₀.ino ip v) dp ⟨w.toAttrs, addEntry w.entries ⟨ip, name⟩⟩)) :
    Ensures (fun r ↦ Kept base [r.1] [r.1] s₀ r.2) (Fails s₀.ino)
      (createEntry store dp name ip s) := by
  have hwdp : s.ino dp = w := by
    rw [hs.ino]
    exact update_self ..
  refine (dirlink_none s₀.ino name hwdp hw.1 hl (hip.trans_le h₀.ninodes)).bind ?_
  rintro ⟨r, s₁⟩ ⟨hs₁, hused⟩
  cases hs₁
  have hr₁ : Refs base [ip, dp] [ip, dp] (s.setIno dp ⟨w.toAttrs, addEntry w.entries ⟨ip, name⟩⟩) :=
    hr.setIno hw.type_ne_zero fun h ↦ absurd h hw.2.ne'
  obtain ⟨s₂, h₂, hr₂, hs₂⟩ := (hr₁.perm (.swap ..) (.swap ..)).iunlockput
  simp only [h₂, ok_bind, lt_irrefl, if_false]
  rw [hs.size, ← hs₂.used] at hused
  refine h₀.edit (w := ⟨w.toAttrs, addEntry w.entries ⟨ip, name⟩⟩) hr₂ ?_ hv hw.2.ne' htree hused
  exact setIno_setIno w _ ▸ (hs.setIno dp _).trans hs₂

theorem incNlink_eq (hx : (s.ino x).nlink + 1 < 2 ^ 16) :
    incNlink store x s = s.setIno x { s.ino x with nlink := (s.ino x).nlink + 1 } := by
  simp only [incNlink, store, Store.setAttrs, Nat.mod_eq_of_lt hx]

theorem decNlink_eq (h : 0 < (s.ino x).nlink) (hx : (s.ino x).nlink < 2 ^ 16) :
    decNlink store x s = s.setIno x { s.ino x with nlink := (s.ino x).nlink - 1 } := by
  have : ((s.ino x).nlink + (2 ^ 16 - 1)) % 2 ^ 16 = (s.ino x).nlink - 1 := by omega
  simp only [decNlink, store, Store.setAttrs, this]

theorem createDots_ensures {attrs : Attrs} (ino : ℕ → Ino) (h : Refs base l k s) (hip : s.ino ip = ⟨attrs, []⟩)
    (hdir : attrs.type = T_DIR) (hlink : attrs.nlink ≠ 0) (hip0 : ip ≠ 0) (hip' : ip < 2 ^ 16)
    (hdp : dp < 2 ^ 16) (hne : ip ≠ dp) (htype : (s.ino dp).type ≠ 0) (hlt : (s.ino dp).nlink + 1 < 2 ^ 16) :
    Ensures (fun s' ↦ Refs base l k s' ∧ s'.size = s.size ∧ s'.ninodes = s.ninodes ∧
        s'.ino = update (update s.ino ip ⟨attrs, [⟨ip, dot⟩, ⟨dp, dotdot⟩]⟩) dp
          { s.ino dp with nlink := (s.ino dp).nlink + 1 }) (Fails ino)
      (createDots store dp ip s) := by
  have htype' : attrs.type ≠ 0 := by
    rw [hdir]
    decide
  have hcmp : namecmp dotdot.1 dot.1 ≠ 0 := by decide
  unfold createDots
  simp only [incNlink_eq hlt]
  generalize hw : ({ s.ino dp with nlink := (s.ino dp).nlink + 1 } : Ino) = w
  have hr₀ : Refs base l k (s.setIno dp w) := h.setIno (hw ▸ htype) fun h ↦ absurd h (by simp [← hw])
  refine (dirlink_none ino dot ((update_of_ne hne _ _).trans hip) hdir rfl hip').bind ?_
  rintro ⟨r, s₁⟩ ⟨hs₁, -⟩
  cases hs₁
  have hr₁ := hr₀.setIno (x := ip) (v := ⟨attrs, [⟨ip, dot⟩]⟩) htype' fun h ↦ absurd h hlink
  refine (dirlink_none ino dotdot (update_self ..) hdir ?_ hdp).bind ?_
  · simp [lookup, addEntry, hcmp]
  rintro ⟨r, s₂⟩ ⟨hs₂, -⟩
  cases hs₂
  have hentries : addEntry (addEntry [] ⟨ip, dot⟩) ⟨dp, dotdot⟩ = [⟨ip, dot⟩, ⟨dp, dotdot⟩] :=
    addEntry_cons hip0
  refine ⟨hr₁.setIno htype' fun h ↦ absurd h hlink, rfl, rfl, ?_⟩
  simp only [Store.setIno, hentries, update_idem]
  rw [update_comm hne]

def Store.alloc (s : Store) (i : ℕ) (v : Ino) : Store :=
  { s with ino := update s.ino i v, ref := update s.ref i 1, valid := update s.valid i true
           locked := update s.locked i true }

theorem createNew_ensures (type major minor : ℕ) (h : Inv base [dp] [dp] s) (hlive : Live (s.ino dp))
    (hl : lookup (s.ino dp).entries name = none) (htype : type ≠ 0) :
    Ensures (fun r ↦ Kept base [r.1] [r.1] s r.2) (Fails s.ino)
      (createNew store dp name type major minor s) := by
  unfold createNew
  cases hfind : (List.range' 1 (s.ninodes - 1)).find? (fun inum ↦ (s.ino inum).type = 0) with
  | none =>
    have hnone : store.ialloc type s = .error .iallocNoInodes := by
      simp only [store, Store.ialloc, hfind]
    rw [hnone]
    exact fails_of_ne (by decide) (by decide)
  | some i =>
    have hfree : (s.ino i).type = 0 := by simpa using List.find?_some hfind
    have hi : i ≠ 0 ∧ i < s.ninodes := by
      have := List.mem_range'_1.mp (List.mem_of_find?_eq_some hfind)
      omega
    have hne : i ≠ dp := by
      rintro rfl
      exact hlive.type_ne_zero hfree
    have href : s.ref i = 0 := by
      have hb : base i = 0 := by
        by_contra hb
        exact h.refs.held i (Nat.pos_of_ne_zero hb) hfree
      rw [h.refs.ref, hb]
      simp [hne.symm]
    have hlock : s.locked i = false := by
      rw [← Bool.not_eq_true, h.refs.locked]
      simpa using hne
    obtain ⟨s₁, h₁, h₂⟩ := ialloc_eq htype href hlock hfind
    have h₁' : store.ialloc type s = .ok (i, s₁) := h₁
    have h₂' : store.ilock i s₁ = .ok (s.alloc i ⟨⟨type, 0, 0, 0⟩, []⟩) := h₂
    have hset : store.setAttrs i ⟨type, major % 2 ^ 16, minor % 2 ^ 16, 1⟩
        (s.alloc i ⟨⟨type, 0, 0, 0⟩, []⟩) = s.alloc i ⟨⟨type, major % 2 ^ 16, minor % 2 ^ 16, 1⟩, []⟩ := by
      simp [store, Store.setAttrs, Store.setIno, Store.alloc]
    have hattrs : (store.attrs i (s.alloc i ⟨⟨type, 0, 0, 0⟩, []⟩)).type = type := by
      simp [store, Store.alloc]
    simp only [h₁', h₂', ok_bind, hattrs, hset]
    have hr : Refs base [i, dp] [i, dp] (s.alloc i ⟨⟨type, major % 2 ^ 16, minor % 2 ^ 16, 1⟩, []⟩) :=
      h.refs.alloc hfree (by simpa using hne) (by simpa using hne) htype Nat.one_ne_zero
    generalize ha : (⟨type, major % 2 ^ 16, minor % 2 ^ 16, 1⟩ : Attrs) = attrs at *
    have hattrs : attrs.type = type ∧ attrs.nlink = 1 := by simp [← ha]
    have hdp : ∀ v : Ino, update s.ino i v dp = s.ino dp := fun v ↦ update_of_ne hne.symm _ _
    by_cases hdir : type = T_DIR
    · rw [if_pos hdir]
      have hlt : ((s.alloc i ⟨attrs, []⟩).ino dp).nlink + 1 < 2 ^ 16 := by
        simpa only [Store.alloc, hdp] using h.nlink_lt hlive.type_ne_zero
      refine (createDots_ensures s.ino hr (update_self ..) (hattrs.1.trans hdir) (by simp [hattrs.2]) hi.1
        (hi.2.trans_le h.ninodes) ((h.tree.alloc dp hlive.type_ne_zero).2.trans_le h.ninodes) hne
        ?_ hlt).bind ?_
      · simpa only [Store.alloc, hdp] using hlive.type_ne_zero
      · rintro s' ⟨hr', hsize, hn, hino⟩
        simp only [Store.alloc, hdp, update_idem] at hino
        refine createEntry_ensures h hr' ⟨hsize, hn, hino⟩ (by simp [hattrs.2]) ⟨hlive.1, Nat.succ_pos _⟩ hi.2 hl ?_
        exact h.tree.addDir hlive hl hi hfree (hattrs.1.trans hdir) hattrs.2 rfl rfl hlive.1 rfl
    · rw [if_neg hdir]
      refine createEntry_ensures (v := ⟨attrs, []⟩) (w := s.ino dp) h hr ⟨rfl, rfl, ?_⟩ (by simp [hattrs.2])
        hlive hi.2 hl ?_
      · simp only [Store.alloc, Store.setIno]
        rw [← hdp ⟨attrs, []⟩, update_eq_self]
      · refine h.tree.addLeaf hlive hl hi (by rw [hfree]; decide) (by simpa [hattrs] using ⟨htype, hdir⟩) ?_ rfl
        rw [Finset.sum_eq_zero fun d _ ↦ h.tree.contrib_eq_zero (.inr hfree) hi.1 d]
        exact hattrs.2

theorem create_ensures (type major minor : ℕ) (h : Inv base [] [] s) (hcwd : 0 < base cwd)
    (hlive : ∀ dp ∈ entered s.ino cwd path, (s.ino dp).nlink ≠ 0) (htype : type ≠ 0) :
    Ensures (fun r ↦ Kept base r.1.toList r.1.toList s r.2) (Fails s.ino)
      (create store cwd path type major minor s) := by
  unfold create
  refine (namex_ensures path true h.refs h.root hcwd).bind ?_
  rintro ⟨r, s₁⟩ ⟨hres, hs₁, hr₁⟩
  cases r with
  | none => exact h.kept hs₁ hr₁
  | some q =>
    obtain ⟨dp, name⟩ := q
    have hdir := resolve_dir hres.symm
    refine (hr₁.ilock List.mem_cons_self fun _ ↦ by rw [hs₁.ino, hdir]; decide).bind ?_
    rintro s₂ ⟨hr₂, hs₂, -, -⟩
    have hs := hs₁.trans hs₂
    obtain ⟨s₃, h₃, hs₃, hr₃⟩ := hr₂.dirlookup name (by rw [hs.ino]; exact hdir)
    have h₃' : store.dirlookup dp name s₂ = _ := h₃
    rw [h₃', ok_bind]
    rw [hs.ino] at hr₃ ⊢
    cases hl : lookup (s.ino dp).entries name with
    | none =>
      rw [hl] at hr₃
      have hldp : Live (s.ino dp) :=
        ⟨hdir, Nat.pos_of_ne_zero (hlive dp (by simp [entered, ← hres, hl]))⟩
      have hnew := createNew_ensures type major minor (h.of_same (hs.trans hs₃) hr₃)
        (by rwa [(hs.trans hs₃).ino]) (by rwa [(hs.trans hs₃).ino]) htype
      rw [(hs.trans hs₃).ino] at hnew
      exact hnew.bind fun r hr ↦ ⟨hr.inv, fun j hj ↦ (hs.trans hs₃).ino ▸ hr.dead j hj⟩
    | some e =>
      rw [hl] at hr₃
      obtain ⟨s₄, h₄, hr₄, hs₄⟩ := (hr₃.perm (.swap ..) (.refl _)).iunlockput
      have hs' := hs.trans (hs₃.trans hs₄)
      simp only [Option.map_some, h₄, ok_bind]
      have htype : Sound s.ino → (s₄.ino ((s.ino dp).entries.getD e emptyEntry).inum).type ≠ 0 := by
        rw [hs'.ino]
        exact fun hsound ↦ hsound.lookup hdir hl
      refine (hr₄.ilock List.mem_cons_self htype).bind ?_
      rintro s₅ ⟨hr₅, hs₅, -, -⟩
      split
      · exact h.kept (hs'.trans hs₅) hr₅
      · obtain ⟨s₆, h₆, hr₆, hs₆⟩ := hr₅.iunlockput
        rw [h₆, ok_bind]
        exact h.kept (hs'.trans (hs₅.trans hs₆)) hr₆

theorem linkBad_ensures {s₀ : Store} (h₀ : Inv base [] [] s₀) (h : Refs base [ip] [] s)
    (hs : Same (s₀.setIno ip { s₀.ino ip with nlink := (s₀.ino ip).nlink + 1 }) s)
    (htype : (s₀.ino ip).type ≠ 0) :
    Ensures (fun r ↦ Kept base [] [] s₀ r.2) (Fails s₀.ino) (linkBad store ip s) := by
  have hself : s.ino ip = { s₀.ino ip with nlink := (s₀.ino ip).nlink + 1 } := by
    rw [hs.ino]
    exact update_self ..
  unfold linkBad
  refine (h.ilock List.mem_cons_self fun _ ↦ hself ▸ htype).bind ?_
  rintro s₁ ⟨hr₁, hs₁, -, -⟩
  have hself₁ : s₁.ino ip = { s₀.ino ip with nlink := (s₀.ino ip).nlink + 1 } := by rw [hs₁.ino, hself]
  have hlt := h₀.nlink_lt htype
  rw [decNlink_eq (by rw [hself₁]; exact Nat.succ_pos _) (by rw [hself₁]; exact hlt)]
  have hset : s₁.setIno ip { s₁.ino ip with nlink := (s₁.ino ip).nlink - 1 } = s₁.setIno ip (s₀.ino ip) := by
    rw [hself₁]
    rfl
  have hr₂ : Refs base [ip] [ip] (s₁.setIno ip (s₀.ino ip)) :=
    hr₁.setIno htype fun hl ↦ ⟨(h₀.refs.orphan ip htype hl).1, (hr₁.lock ip List.mem_cons_self).2⟩
  obtain ⟨s₂, h₂, hr₂, hs₂⟩ := hr₂.iunlockput
  rw [hset, h₂, ok_bind]
  have hs' := ((hs.trans hs₁).setIno ip (s₀.ino ip)).trans hs₂
  simp only [Store.setIno, update_idem, update_eq_self] at hs'
  exact h₀.kept hs' hr₂

theorem linkEntry_ensures {s₀ : Store} (h₀ : Inv base [] [] s₀) (h : Refs base [ip] [] s)
    (hs₀ : Same (s₀.setIno ip { s₀.ino ip with nlink := (s₀.ino ip).nlink + 1 }) s)
    (htype : (s₀.ino ip).type ≠ 0) (hdir : (s₀.ino ip).type ≠ T_DIR) (hcwd : 0 < base cwd)
    (hlive : ∀ dp ∈ entered s₀.ino cwd path, (s₀.ino dp).nlink ≠ 0) :
    Ensures (fun r ↦ Kept base [] [] s₀ r.2) (Fails s₀.ino) (linkEntry store cwd ip path s) := by
  have hold (i : ℕ) : (s.ino i).type = (s₀.ino i).type ∧ (s.ino i).entries = (s₀.ino i).entries := by
    rw [hs₀.ino]
    rcases eq_or_ne i ip with rfl | hi
    · simp [Store.setIno]
    · simp [Store.setIno, hi]
  obtain ⟨htypes, hentries⟩ := forall_and.mp hold
  have hroot : (s.ino ROOTINO).type ≠ 0 := by
    rw [htypes]
    exact h₀.root
  have hnamex := namex_ensures path true h hroot hcwd
  rw [resolve_congr htypes hentries] at hnamex
  unfold linkEntry
  refine (hnamex.weaken fun e he ↦
    (⟨he.1, fun h hs ↦ he.2 h (hs.congr htypes hentries)⟩ : Fails s₀.ino e)).bind ?_
  rintro ⟨r, s₁⟩ ⟨hres, hs₁, hr₁⟩
  cases r with
  | none => exact linkBad_ensures h₀ hr₁ (hs₀.trans hs₁) htype
  | some q =>
    obtain ⟨dp, name⟩ := q
    have hdp := resolve_dir hres.symm
    have hne : ip ≠ dp := by
      rintro rfl
      exact hdir hdp
    have hsame : s.ino dp = s₀.ino dp := by
      rw [hs₀.ino]
      exact update_of_ne hne.symm ..
    refine (hr₁.ilock List.mem_cons_self fun _ ↦ ?_).bind ?_
    · rw [hs₁.ino, hsame, hdp]
      decide
    rintro s₂ ⟨hr₂, hs₂, -, -⟩
    have hs := hs₁.trans hs₂
    have hdp₂ : s₂.ino dp = s₀.ino dp := by rw [hs.ino, hsame]
    cases hl : lookup (s₀.ino dp).entries name with
    | some e =>
      refine (hr₂.dirlink_some s₀.ino (by rw [hdp₂]; exact hdp) (by rw [hdp₂]; exact hl)).bind ?_
      rintro ⟨r, s₃⟩ ⟨rfl, hs₃, hr₃⟩
      obtain ⟨s₄, h₄, hr₄, hs₄⟩ := hr₃.iunlockput
      have hs' := hs.trans (hs₃.trans hs₄)
      simp only [h₄, ok_bind]
      rw [if_pos (by decide)]
      exact linkBad_ensures h₀ hr₄ (hs₀.trans hs') htype
    | none =>
      have hip := h₀.tree.alloc ip htype
      have hldp : Live (s₀.ino dp) :=
        ⟨hdp, Nat.pos_of_ne_zero (hlive dp (by simp [entered, ← hres, hl]))⟩
      refine (dirlink_none s₀.ino name hdp₂ hdp hl (hip.2.trans_le h₀.ninodes)).bind ?_
      rintro ⟨r, s₃⟩ ⟨hs₃, hused⟩
      cases hs₃
      have hr₃ : Refs base [dp, ip] [dp]
          (s₂.setIno dp ⟨(s₀.ino dp).toAttrs, addEntry (s₀.ino dp).entries ⟨ip, name⟩⟩) :=
        hr₂.setIno hldp.type_ne_zero fun h ↦ absurd h hldp.2.ne'
      obtain ⟨s₄, h₄, hr₄, hs₄⟩ := hr₃.iunlockput
      obtain ⟨s₅, h₅, hr₅, hs₅⟩ := hr₄.iput (by simp)
      have h₅' : store.iput ip s₄ = .ok s₅ := h₅
      have hs' := hs₄.trans hs₅
      simp only [h₄, ok_bind, h₅', lt_irrefl, if_false]
      rw [hs.size, hs₀.size, ← hs'.used] at hused
      refine h₀.edit hr₅ (((hs₀.trans hs).setIno dp _).trans hs') (Nat.succ_ne_zero _) hldp.2.ne'
        (h₀.tree.addLeaf hldp hl hip hdir ⟨htype, hdir⟩ ?_ rfl) hused
      rw [← h₀.tree.nlink ip htype]

theorem link_ensures {old new : Path} (h : Inv base [] [] s) (hcwd : 0 < base cwd)
    (hlive : ∀ ip name, resolve s.ino cwd old false = some (ip, name) → (s.ino ip).type ≠ T_DIR →
      ∀ dp ∈ entered s.ino cwd new, (s.ino dp).nlink ≠ 0) :
    Ensures (fun r ↦ Kept base [] [] s r.2) (Fails s.ino) (link store cwd old new s) := by
  unfold link
  refine (namex_ensures old false h.refs h.root hcwd).bind ?_
  rintro ⟨r, s₁⟩ ⟨hres, hs₁, hr₁⟩
  cases r with
  | none => exact h.kept hs₁ hr₁
  | some q =>
    obtain ⟨ip, name⟩ := q
    have hsound : Sound s.ino → (s₁.ino ip).type ≠ 0 := by
      rw [hs₁.ino]
      exact fun hsound ↦ resolve_type hsound h.root (h.refs.held cwd hcwd) hres.symm
    refine (hr₁.ilock List.mem_cons_self hsound).bind ?_
    rintro s₂ ⟨hr₂, hs₂, htype, -⟩
    have hs := hs₁.trans hs₂
    rw [hs₁.ino] at htype
    have hattrs : (store.attrs ip s₂).type = (s.ino ip).type := by
      rw [← hs.ino]
      rfl
    rw [hattrs]
    split
    · obtain ⟨s₃, h₃, hr₃, hs₃⟩ := hr₂.iunlockput
      rw [h₃, ok_bind]
      exact h.kept (hs.trans hs₃) hr₃
    · rename_i hdir
      rw [incNlink_eq (by rw [hs.ino]; exact h.nlink_lt htype), hs.ino]
      generalize hv : ({ s.ino ip with nlink := (s.ino ip).nlink + 1 } : Ino) = v
      have hr₂' : Refs base [ip] [ip] (s₂.setIno ip v) :=
        hr₂.setIno (hv ▸ htype) fun hl ↦ absurd hl (by simp [← hv])
      obtain ⟨s₃, h₃, hr₃, hs₃⟩ := hr₂'.iunlock
      have h₃' : store.iunlock ip (s₂.setIno ip v) = .ok s₃ := h₃
      rw [h₃', ok_bind]
      exact linkEntry_ensures h hr₃ (hv ▸ (hs.setIno ip v).trans hs₃) htype hdir hcwd
        (hlive ip name hres.symm hdir)

theorem unlinkEntry_ensures {s₀ : Store} {e : ℕ} (h₀ : Inv base [] [] s₀) (hr : Refs base [ip, dp] [ip, dp] s)
    (hs : Same s₀ s) (hlive : Live (s₀.ino dp)) (he : e < (rest (s₀.ino dp)).length)
    (hip : (rest (s₀.ino dp))[e].inum = ip) (hip0 : ip ≠ 0) (hlink : 0 < (s₀.ino ip).nlink)
    (htype : (s₀.ino ip).type ≠ 0)
    (hempty : (s₀.ino ip).type = T_DIR → ∀ j, j ≠ 0 → cnt (rest (s₀.ino ip)) j = 0) :
    Ensures (fun r ↦ Inv base [] [] r.2 ∧
        ∀ j, Dead (r.2.ino j) → Dead (s₀.ino j) ∨ j = ip ∧ (s₀.ino j).type = T_DIR) (Fails s₀.ino)
      (unlinkEntry store dp (DIRENT * (e + 2)) ip s) := by
  generalize hv : ({ s₀.ino ip with nlink := (s₀.ino ip).nlink - 1 } : Ino) = v
  generalize hw : ({ s₀.ino dp with
    nlink := if (s₀.ino ip).type = T_DIR then (s₀.ino dp).nlink - 1 else (s₀.ino dp).nlink
    entries := (s₀.ino dp).entries.set (e + 2) emptyEntry } : Ino) = w
  obtain ⟨hne, hwlive, htree⟩ := h₀.tree.remove (v := v) (w := w) hlive he hip hip0 hempty hv.symm
    (by rw [← hw]) (hw ▸ hlive.1) (by rw [← hw])
  -- The entry, and the link of `..` in a directory.
  have hclear : store.clear dp (DIRENT * (e + 2)) s =
      .ok (s.setIno dp { s₀.ino dp with entries := (s₀.ino dp).entries.set (e + 2) emptyEntry }) := by
    simp only [store, Store.clear, hs.ino, Nat.mul_div_cancel_left (e + 2) (show 0 < DIRENT by decide)]
  have hdec : (if (store.attrs ip (s.setIno dp { s₀.ino dp with
        entries := (s₀.ino dp).entries.set (e + 2) emptyEntry })).type = T_DIR then
      decNlink store dp (s.setIno dp { s₀.ino dp with entries := (s₀.ino dp).entries.set (e + 2) emptyEntry })
      else s.setIno dp { s₀.ino dp with entries := (s₀.ino dp).entries.set (e + 2) emptyEntry }) =
      s.setIno dp w := by
    have hattrs : (store.attrs ip (s.setIno dp { s₀.ino dp with
        entries := (s₀.ino dp).entries.set (e + 2) emptyEntry })).type = (s₀.ino ip).type := by
      simp only [store, Store.setIno, update_of_ne hne, hs.ino]
    rw [hattrs]
    split
    · rename_i hdir
      rw [decNlink_eq (by simpa [Store.setIno] using hlive.2)
        (by simpa [Store.setIno] using Nat.lt_of_succ_lt (h₀.nlink_lt hlive.type_ne_zero))]
      simp [Store.setIno, ← hw, hdir]
    · rename_i hdir
      simp [← hw, hdir]
  unfold unlinkEntry
  rw [hclear, ok_bind, hdec]
  have hr₁ : Refs base [ip, dp] [ip, dp] (s.setIno dp w) :=
    hr.setIno hwlive.type_ne_zero fun h ↦ absurd h hwlive.2.ne'
  obtain ⟨s₂, h₂, hr₂, hs₂⟩ := (hr₁.perm (.swap ..) (.swap ..)).iunlockput
  rw [h₂, ok_bind]
  have hs₂ := (hs.setIno dp w).trans hs₂
  have hip₂ : s₂.ino ip = s₀.ino ip := by
    rw [hs₂.ino]
    exact update_of_ne hne ..
  -- The reference of the call is the last one, perhaps.
  have hlt := h₀.nlink_lt htype
  rw [decNlink_eq (by rw [hip₂]; exact hlink) (by rw [hip₂]; omega), hip₂, hv]
  have hr₃ : Refs (update base ip (base ip + 1)) [] [ip] (s₂.setIno ip v) :=
    (hr₂.promote (hip₂ ▸ htype)).setIno (hv ▸ htype) fun _ ↦
      ⟨by rw [update_self]; exact Nat.succ_pos _, (hr₂.lock ip List.mem_cons_self).2⟩
  obtain ⟨s₄, h₄, hr₄, hs₄⟩ := hr₃.iunlock
  have hs' := (hs₂.setIno ip v).trans hs₄
  have hsize : s₄.size = s₀.size := hs'.size
  have hn : s₄.ninodes = s₀.ninodes := hs'.ninodes
  have hino₄ : s₄.ino = update (update s₀.ino ip v) dp w := hs'.ino.trans (update_comm hne.symm ..)
  have hused : s₄.used = s₀.used := by
    rw [Store.used, Store.used, hn]
    refine Finset.sum_congr rfl fun i _ ↦ ?_
    rw [hino₄, update_apply, update_apply]
    split
    · rename_i hi
      rw [hi, ← hw, List.length_set]
    · split
      · rename_i hi
        rw [hi, ← hv]
      · rfl
  have hinv : Inv (update base ip (base ip + 1)) [] [] s₄ :=
    ⟨hr₄, by rw [hn, hino₄]; exact htree, hn ▸ h₀.ninodes, hsize ▸ h₀.size, by rw [hused, hsize]; exact h₀.room⟩
  obtain ⟨s₅, h₅, hinv₅, hdead⟩ := hinv.iputLast (x := ip) (by simp) (by simp) (by simp)
  have hput : iunlockput store ip (s₂.setIno ip v) = .ok s₅ := by
    simp only [iunlockput, store, h₄, ok_bind, h₅]
  rw [hput, ok_bind]
  refine ⟨by simpa using hinv₅, fun j hj ↦ ?_⟩
  have hj₄ := hdead j hj
  rw [hino₄] at hj₄
  by_cases hjd : j = dp
  · subst hjd
    rw [update_self] at hj₄
    exact absurd hj₄.2 hwlive.2.ne'
  · rw [update_of_ne hjd] at hj₄
    by_cases hji : j = ip
    · subst hji
      rw [update_self, ← hv] at hj₄
      exact .inr ⟨rfl, hj₄.1⟩
    · rw [update_of_ne hji] at hj₄
      exact .inl hj₄

theorem unlinkBad_ensures {s₀ : Store} (h₀ : Inv base [] [] s₀) (hr : Refs base [dp] [dp] s) (hs : Same s₀ s) :
    Ensures (fun r ↦ Kept base [] [] s₀ r.2) (Fails s₀.ino) (unlinkBad store dp s) := by
  obtain ⟨s₁, h₁, hr₁, hs₁⟩ := hr.iunlockput
  rw [unlinkBad, h₁]
  exact h₀.kept (hs.trans hs₁) hr₁

section

variable (h : Inv base [] [] s) (hcwd : 0 < base cwd)
include h hcwd

theorem unlink_ensures :
    Ensures (fun r ↦ Inv base [] [] r.2 ∧ ∀ j, Dead (r.2.ino j) →
        Dead (s.ino j) ∨ removed s.ino cwd path = some j ∧ (s.ino j).type = T_DIR) (Fails s.ino)
      (unlink store cwd path s) := by
  have hkept : ∀ r : ℤ × Store, Kept base [] [] s r.2 → Inv base [] [] r.2 ∧
      ∀ j, Dead (r.2.ino j) → Dead (s.ino j) ∨ removed s.ino cwd path = some j ∧ (s.ino j).type = T_DIR :=
    fun r hr ↦ ⟨hr.inv, fun j hj ↦ .inl (hr.dead j hj)⟩
  unfold unlink
  refine (namex_ensures path true h.refs h.root hcwd).bind ?_
  rintro ⟨r, s₁⟩ ⟨hres, hs₁, hr₁⟩
  cases r with
  | none => exact hkept (-1, s₁) (h.kept hs₁ hr₁)
  | some q =>
    obtain ⟨dp, name⟩ := q
    have hdir := resolve_dir hres.symm
    refine (hr₁.ilock List.mem_cons_self fun _ ↦ by rw [hs₁.ino, hdir]; decide).bind ?_
    rintro s₂ ⟨hr₂, hs₂, -, -⟩
    have hs := hs₁.trans hs₂
    split
    · exact (unlinkBad_ensures h hr₂ hs).mono hkept
    rename_i hname
    obtain ⟨s₃, h₃, hs₃, hr₃⟩ := hr₂.dirlookup name (by rw [hs.ino]; exact hdir)
    have h₃' : store.dirlookup dp name s₂ = _ := h₃
    rw [h₃', ok_bind]
    rw [hs.ino] at hr₃ ⊢
    cases hl : lookup (s.ino dp).entries name with
    | none =>
      rw [hl] at hr₃
      exact (unlinkBad_ensures h hr₃ (hs.trans hs₃)).mono hkept
    | some e =>
      obtain ⟨e, rfl, he, hne, hget⟩ := (h.tree.dir dp hdir).lookup hl (fun h ↦ hname (.inl h))
        fun h ↦ hname (.inr h)
      have hremoved (hall : (s.ino (rest (s.ino dp))[e].inum).type = T_DIR →
          (rest (s.ino (rest (s.ino dp))[e].inum)).all (·.inum = 0) = true) :
          removed s.ino cwd path = some (rest (s.ino dp))[e].inum := by
        simp only [removed, ← hres, hl, Option.bind_eq_bind, Option.bind_some, hget, if_neg hname]
        exact if_neg fun h ↦ absurd (hall h.1) (by simp [h.2])
      have hlive : Live (s.ino dp) := by
        refine ⟨hdir, Nat.pos_of_ne_zero fun hl ↦ ?_⟩
        have := h.tree.dead dp _ hdir hl hne
        exact absurd this (List.countP_pos_iff.mpr ⟨_, List.getElem_mem he, by simp⟩).ne'
      rw [hl] at hr₃
      simp only [Option.map_some, hget, Option.toList_some, List.singleton_append] at hr₃ ⊢
      generalize hip : (rest (s.ino dp))[e].inum = ip at *
      have hs' := hs.trans hs₃
      have htype : (s.ino ip).type ≠ 0 := by
        refine h.tree.named dp ip hne ?_
        rw [contrib_of_live hlive]
        have : 0 < cnt (rest (s.ino dp)) ip :=
          List.countP_pos_iff.mpr ⟨_, List.getElem_mem he, by simpa using hip⟩
        omega
      refine (hr₃.ilock List.mem_cons_self fun _ ↦ by rw [hs'.ino]; exact htype).bind ?_
      rintro s₄ ⟨hr₄, hs₄, -, -⟩
      have hs'' := hs'.trans hs₄
      have hattrs : store.attrs ip s₄ = (s.ino ip).toAttrs := by
        rw [← hs''.ino]
        rfl
      rw [hattrs]
      split
      · exact fails_of_ne (by decide) (by decide)
      rename_i hlink
      have hentry (hall : (s.ino ip).type = T_DIR → (rest (s.ino ip)).all (·.inum = 0) = true) :
          Ensures (fun r ↦ Inv base [] [] r.2 ∧ ∀ j, Dead (r.2.ino j) →
            Dead (s.ino j) ∨ removed s.ino cwd path = some j ∧ (s.ino j).type = T_DIR) (Fails s.ino)
            (unlinkEntry store dp (DIRENT * (e + 2)) ip s₄) := by
        refine (unlinkEntry_ensures h hr₄ hs'' hlive he hip hne (by omega) htype fun hd j hj ↦ ?_).mono
          fun r hr ↦ ⟨hr.1, fun j hj ↦ (hr.2 j hj).imp_right fun hj ↦ ⟨by rw [hj.1, hremoved hall], hj.2⟩⟩
        refine List.countP_eq_zero.mpr fun de hde ↦ ?_
        have := List.all_eq_true.mp (hall hd) de hde
        simp only [decide_eq_true_eq] at this ⊢
        omega
      split
      · have hempty : store.isdirempty ip s₄ = .ok ((rest (s.ino ip)).all (·.inum = 0), s₄) := by
          rw [← hs''.ino]
          rfl
        rw [hempty, ok_bind]
        split
        · rename_i hall
          exact hentry fun _ ↦ hall
        · obtain ⟨s₅, h₅, hr₅, hs₅⟩ := hr₄.iunlockput
          rw [h₅, ok_bind]
          exact (unlinkBad_ensures h hr₅ (hs''.trans hs₅)).mono hkept
      · rename_i hdir'
        exact hentry fun hd ↦ absurd hd hdir'

theorem make_ensures (type major minor : ℕ)
    (hlive : ∀ dp ∈ entered s.ino cwd path, (s.ino dp).nlink ≠ 0) (htype : type ≠ 0) :
    Ensures (fun r ↦ Kept base [] [] s r.2) (Fails s.ino) (make store cwd path type major minor s) := by
  refine (create_ensures type major minor h hcwd hlive htype).bind ?_
  rintro ⟨r, s₁⟩ hk
  cases r with
  | none => exact hk
  | some ip =>
    obtain ⟨s₂, h₂, hr₂, hs₂⟩ := hk.inv.refs.iunlockput
    simp only [h₂, ok_bind]
    exact hk.trans (hk.inv.kept hs₂ hr₂)

theorem Inv.namei :
    Ensures (fun r ↦ Kept base (r.1.map Prod.fst).toList [] s r.2 ∧
        ∀ q ∈ r.1, Sound s.ino → (r.2.ino q.1).type ≠ 0) (Fails s.ino) (namei store cwd path s) := by
  refine (namex_ensures path false h.refs h.root hcwd).mono fun r hr ↦ ?_
  obtain ⟨hres, hs, hr⟩ := hr
  refine ⟨h.kept hs (by simpa using hr), fun q hq hsound ↦ ?_⟩
  rw [hq] at hres
  rw [hs.ino]
  exact resolve_type hsound h.root (h.refs.held cwd hcwd) hres.symm

theorem openInode_ensures {omode : ℕ}
    (hlive : omode &&& O_CREATE ≠ 0 → ∀ dp ∈ entered s.ino cwd path, (s.ino dp).nlink ≠ 0) :
    Ensures (fun r ↦ Kept base r.1.toList r.1.toList s r.2) (Fails s.ino)
      (openInode store cwd path omode s) := by
  unfold openInode
  split
  · rename_i hc
    exact create_ensures T_FILE 0 0 h hcwd (hlive hc) (by decide)
  · refine (h.namei hcwd).bind ?_
    rintro ⟨r, s₁⟩ ⟨hk, htype⟩
    cases r with
    | none => exact hk
    | some q =>
      refine (hk.inv.refs.ilock List.mem_cons_self (htype q rfl)).bind ?_
      rintro s₂ ⟨hr₂, hs₂, -, -⟩
      split
      · obtain ⟨s₃, h₃, hr₃, hs₃⟩ := hr₂.iunlockput
        rw [h₃, ok_bind]
        exact hk.trans (hk.inv.kept (hs₂.trans hs₃) hr₃)
      · exact hk.trans (hk.inv.kept hs₂ hr₂)

theorem chdirInode_ensures :
    Ensures (fun r ↦ Kept base r.1.toList [] s r.2 ∧ ∀ ip ∈ r.1, (r.2.ino ip).type ≠ 0) (Fails s.ino)
      (chdirInode store cwd path s) := by
  refine (h.namei hcwd).bind ?_
  rintro ⟨r, s₁⟩ ⟨hk, htype⟩
  cases r with
  | none => exact ⟨hk, nofun⟩
  | some q =>
    refine (hk.inv.refs.ilock List.mem_cons_self (htype q rfl)).bind ?_
    rintro s₂ ⟨hr₂, hs₂, hne, -⟩
    split
    · obtain ⟨s₃, h₃, hr₃, hs₃⟩ := hr₂.iunlockput
      rw [h₃, ok_bind]
      exact ⟨hk.trans (hk.inv.kept (hs₂.trans hs₃) hr₃), nofun⟩
    · obtain ⟨s₃, h₃, hr₃, hs₃⟩ := hr₂.iunlock
      have h₃' : store.iunlock q.1 s₂ = .ok s₃ := h₃
      simp only [h₃', ok_bind]
      refine ⟨hk.trans (hk.inv.kept (hs₂.trans hs₃) hr₃), ?_⟩
      rintro _ ⟨⟩
      simpa only [(hs₂.trans hs₃).ino] using hne

theorem execInode_ensures :
    Ensures (Kept base [] [] s) (Fails s.ino) (execInode store cwd path s) := by
  refine (h.namei hcwd).bind ?_
  rintro ⟨r, s₁⟩ ⟨hk, htype⟩
  cases r with
  | none => exact hk
  | some q =>
    refine (hk.inv.refs.ilock List.mem_cons_self (htype q rfl)).bind ?_
    rintro s₂ ⟨hr₂, hs₂, -, -⟩
    obtain ⟨s₃, h₃, hr₃, hs₃⟩ := hr₂.iunlockput
    rw [h₃]
    exact hk.trans (hk.inv.kept (hs₂.trans hs₃) hr₃)

end

end Xv6Bfs.Sysfile

import Xv6Bfs.Sysfile.Store
import Xv6Bfs.Lib.FiniteSum
import Mathlib.Algebra.Order.BigOperators.Group.Finset

namespace Xv6Bfs.Sysfile

open Fs Function Lib.FiniteSum

def Live (v : Ino) : Prop := v.type = T_DIR ∧ 0 < v.nlink

instance (v : Ino) : Decidable (Live v) := inferInstanceAs (Decidable (_ ∧ _))

def parentOf (v : Ino) : ℕ := (v.entries.getD 1 emptyEntry).inum

def rest (v : Ino) : List Dirent := v.entries.drop 2

def cnt (l : List Dirent) (i : ℕ) : ℕ := l.countP fun e ↦ e.inum = i

/-- The number of entries with inode number `i` and a name other than `.` in the directories that
have a link. -/
def links (n : ℕ) (ino : ℕ → Ino) (i : ℕ) : ℕ :=
  ∑ d ∈ Finset.range n, if Live (ino d) then (ino d).entries.countP fun e ↦ e.inum = i ∧ e.name ≠ dot
    else 0

/-- The directory `d` begins with `.` and `..`, and has these names nowhere else. -/
structure IsDir (d : ℕ) (v : Ino) : Prop where
  entries : v.entries = ⟨d, dot⟩ :: ⟨parentOf v, dotdot⟩ :: rest v
  parent : parentOf v ≠ 0
  names : ∀ e ∈ rest v, e.inum ≠ 0 → e.name ≠ dot ∧ e.name ≠ dotdot

def contrib (v : Ino) (i : ℕ) : ℕ :=
  if Live v then (if parentOf v = i then 1 else 0) + cnt (rest v) i else 0

variable {n d dp i j c : ℕ} {ino : ℕ → Ino} {v w : Ino}

theorem IsDir.countP (h : IsDir d v) (hi : i ≠ 0) :
    (v.entries.countP fun e ↦ e.inum = i ∧ e.name ≠ dot) =
      (if parentOf v = i then 1 else 0) + cnt (rest v) i := by
  have hrest : ((rest v).countP fun e ↦ e.inum = i ∧ e.name ≠ dot) = cnt (rest v) i := by
    refine List.countP_congr fun e he ↦ ?_
    have := h.names e he
    simp only [decide_eq_true_eq]
    exact ⟨fun he ↦ he.1, fun he' ↦ ⟨he', (this (he' ▸ hi)).1⟩⟩
  have hne : dotdot ≠ dot := by decide
  rw [h.entries]
  simp only [List.countP_cons, hrest]
  by_cases hp : parentOf v = i <;> simp [hp, hne, Nat.add_comm]

section Entries

variable {l : List Dirent} {a de : Dirent} {name : Name} {e k : ℕ}

theorem addEntry_cons (ha : a.inum ≠ 0) : addEntry (a :: l) de = a :: addEntry l de := by
  unfold addEntry
  rw [List.findIdx?_cons]
  cases l.findIdx? fun de ↦ de.inum = 0 <;> simp [ha]

theorem mem_addEntry (h : a ∈ addEntry l de) : a = de ∨ a ∈ l := by
  unfold addEntry at h
  split at h
  · exact (List.mem_or_eq_of_mem_set h).symm
  · simpa [or_comm] using h

theorem cnt_set (de : Dirent) (hk : k < l.length) (i : ℕ) :
    cnt (l.set k de) i + (if l[k].inum = i then 1 else 0) = cnt l i + if de.inum = i then 1 else 0 := by
  have hpos : l[k].inum = i → 0 < cnt l i := fun h ↦
    List.countP_pos_iff.mpr ⟨l[k], List.getElem_mem hk, by simpa using h⟩
  unfold cnt at *
  rw [List.countP_set hk]
  simp only [decide_eq_true_eq]
  split
  · have := hpos ‹_›
    omega
  · omega

theorem cnt_addEntry (hi : i ≠ 0) : cnt (addEntry l de) i = cnt l i + if de.inum = i then 1 else 0 := by
  unfold addEntry
  split
  · rename_i e he
    obtain ⟨hlt, hzero, -⟩ := List.findIdx?_eq_some_iff_getElem.mp he
    have hset := cnt_set de hlt i
    rw [if_neg (by simp at hzero; omega)] at hset
    omega
  · simp [cnt, List.countP_append, List.countP_singleton]

theorem lookup_eq_some (h : lookup l name = some e) :
    ∃ h : e < l.length, l[e].inum ≠ 0 ∧ namecmp name.1 l[e].name.1 = 0 := by
  obtain ⟨hlt, hp, -⟩ := List.findIdx?_eq_some_iff_getElem.mp h
  exact ⟨hlt, by simpa using hp⟩

theorem namecmp_ne_zero (h : lookup l name = none) (ha : a ∈ l) (hne : a.inum ≠ 0) :
    namecmp name.1 a.name.1 ≠ 0 := by
  have := List.findIdx?_eq_none_iff.mp h a ha
  simp_all

namespace IsDir

theorem self_mem (h : IsDir d v) : ⟨d, dot⟩ ∈ v.entries := by
  rw [h.entries]
  exact List.mem_cons_self

theorem parent_mem (h : IsDir d v) : ⟨parentOf v, dotdot⟩ ∈ v.entries := by
  rw [h.entries]
  exact List.mem_cons_of_mem _ List.mem_cons_self

theorem ne_of_lookup (h : IsDir d v) (hd : d ≠ 0) (hl : lookup v.entries name = none) :
    name ≠ dot ∧ name ≠ dotdot := by
  constructor
  · rintro rfl
    exact namecmp_ne_zero hl h.self_mem hd (show namecmp dot.1 dot.1 = 0 by decide)
  · rintro rfl
    exact namecmp_ne_zero hl h.parent_mem h.parent (show namecmp dotdot.1 dotdot.1 = 0 by decide)

theorem addEntry (h : IsDir d v) (hd : d ≠ 0) (hname : de.name ≠ dot ∧ de.name ≠ dotdot)
    (hw : w.entries = Sysfile.addEntry v.entries de) :
    IsDir d w ∧ parentOf w = parentOf v ∧ rest w = Sysfile.addEntry (rest v) de := by
  rw [h.entries, addEntry_cons hd, addEntry_cons (a := ⟨parentOf v, dotdot⟩) h.parent] at hw
  have hparent : parentOf w = parentOf v := by
    rw [parentOf, hw]
    rfl
  have hrest : rest w = Sysfile.addEntry (rest v) de := by
    rw [rest, hw]
    rfl
  refine ⟨⟨by rw [hw, hparent, hrest], hparent ▸ h.parent, fun a ha hne ↦ ?_⟩, hparent, hrest⟩
  rw [hrest] at ha
  rcases mem_addEntry ha with rfl | ha
  · exact hname
  · exact h.names a ha hne

theorem clear (h : IsDir d v) (hw : w.entries = v.entries.set (k + 2) emptyEntry) :
    IsDir d w ∧ parentOf w = parentOf v ∧ rest w = (rest v).set k emptyEntry := by
  rw [h.entries, List.set_cons_succ, List.set_cons_succ] at hw
  have hparent : parentOf w = parentOf v := by
    rw [parentOf, hw]
    rfl
  have hrest : rest w = (rest v).set k emptyEntry := by
    rw [rest, hw]
    rfl
  refine ⟨⟨by rw [hw, hparent, hrest], hparent ▸ h.parent, fun a ha hne ↦ ?_⟩, hparent, hrest⟩
  rw [hrest] at ha
  rcases List.mem_or_eq_of_mem_set ha with ha | rfl
  · exact h.names a ha hne
  · exact absurd rfl hne

theorem lookup (h : IsDir d v) (hl : Sysfile.lookup v.entries name = some e)
    (hdot : namecmp name.1 dot.1 ≠ 0) (hdotdot : namecmp name.1 dotdot.1 ≠ 0) :
    ∃ k, e = k + 2 ∧ ∃ hk : k < (rest v).length,
      (rest v)[k].inum ≠ 0 ∧ v.entries.getD e emptyEntry = (rest v)[k] := by
  rw [h.entries] at hl ⊢
  obtain ⟨hlt, hne, hcmp⟩ := lookup_eq_some hl
  match e, hlt, hne, hcmp with
  | 0, _, _, hcmp => exact absurd hcmp hdot
  | 1, _, _, hcmp => exact absurd hcmp hdotdot
  | k + 2, hlt, hne, _ =>
    have hk : k < (rest v).length := by simpa using hlt
    exact ⟨k, rfl, hk, hne, by simp [hk]⟩

end IsDir

end Entries

structure Tree (n : ℕ) (ino : ℕ → Ino) : Prop where
  alloc : ∀ i, (ino i).type ≠ 0 → i ≠ 0 ∧ i < n
  root : Live (ino ROOTINO) ∧ parentOf (ino ROOTINO) = ROOTINO
  dir : ∀ d, (ino d).type = T_DIR → IsDir d (ino d)
  nlink : ∀ i, (ino i).type ≠ 0 → (ino i).nlink = ∑ d ∈ Finset.range n, contrib (ino d) i
  named : ∀ d i, i ≠ 0 → contrib (ino d) i ≠ 0 → (ino i).type ≠ 0
  dead : ∀ d i, (ino d).type = T_DIR → (ino d).nlink = 0 → i ≠ 0 → cnt (rest (ino d)) i = 0
  up : ∀ c, Live (ino c) → Live (ino (parentOf (ino c)))
  parent : ∀ c d, Live (ino c) → Live (ino d) →
    cnt (rest (ino d)) c = if c ≠ ROOTINO ∧ d = parentOf (ino c) then 1 else 0

theorem Live.type_ne_zero (h : Live v) : v.type ≠ 0 := by
  rw [h.1]
  decide

theorem contrib_of_not_live (h : ¬ Live v) : contrib v i = 0 := if_neg h

theorem contrib_of_live (h : Live v) :
    contrib v i = (if parentOf v = i then 1 else 0) + cnt (rest v) i := if_pos h

namespace Tree

theorem ne_zero (h : Tree n ino) (ht : (ino i).type ≠ 0) : i ≠ 0 := (h.alloc i ht).1

theorem links_eq (h : Tree n ino) (hi : i ≠ 0) :
    links n ino i = ∑ d ∈ Finset.range n, contrib (ino d) i := by
  refine Finset.sum_congr rfl fun d _ ↦ ?_
  unfold contrib
  split
  · rename_i hl
    exact (h.dir d hl.1).countP hi
  · rfl

theorem contrib_eq_zero (h : Tree n ino) (hi : (ino i).nlink = 0 ∨ (ino i).type = 0) (hi0 : i ≠ 0) (d : ℕ) :
    contrib (ino d) i = 0 := by
  by_contra hc
  have ht := h.named d i hi0 hc
  have hl : Live (ino d) := by
    by_contra hl
    exact hc (contrib_of_not_live hl)
  have hd := (h.alloc d hl.type_ne_zero).2
  rcases hi with hi | hi
  · rw [h.nlink i ht] at hi
    exact hc (Finset.sum_eq_zero_iff.mp hi d (Finset.mem_range.mpr hd))
  · exact ht hi

theorem parentOf_ne (h : Tree n ino) (hc : Live (ino c)) (hroot : c ≠ ROOTINO)
    (hempty : ∀ j, j ≠ 0 → cnt (rest (ino c)) j = 0) (hd : Live (ino d)) : parentOf (ino d) ≠ c := by
  intro hp
  have hcnt := h.parent d c hd hc
  rw [hempty d (h.ne_zero hd.type_ne_zero)] at hcnt
  by_cases hr : d = ROOTINO
  · rw [hr, h.root.2] at hp
    exact hroot hp.symm
  · simp [hr, hp] at hcnt

theorem nlink_le_one (h : Tree n ino) (hc : Live (ino c)) (hroot : c ≠ ROOTINO)
    (hempty : ∀ j, j ≠ 0 → cnt (rest (ino c)) j = 0) : (ino c).nlink ≤ 1 := by
  rw [h.nlink c hc.type_ne_zero]
  calc ∑ d ∈ Finset.range n, contrib (ino d) c
      ≤ ∑ d ∈ Finset.range n, if d = parentOf (ino c) then 1 else 0 := by
        refine Finset.sum_le_sum fun d _ ↦ ?_
        by_cases hd : Live (ino d)
        · rw [contrib_of_live hd, if_neg (h.parentOf_ne hc hroot hempty hd), h.parent c d hc hd]
          simp [hroot]
        · rw [contrib_of_not_live hd]
          exact Nat.zero_le _
    _ ≤ 1 := by
        rw [Finset.sum_ite_eq']
        split <;> omega

end Tree

theorem sum_contrib_update (ino : ℕ → Ino) (v w : Ino) (hi : i < n) (hd : d < n) (hne : i ≠ d) (j : ℕ) :
    ∑ x ∈ Finset.range n, contrib (update (update ino i v) d w x) j + contrib (ino d) j +
        contrib (ino i) j =
      ∑ x ∈ Finset.range n, contrib (ino x) j + contrib w j + contrib v j := by
  have h₁ := sum_update_add (Finset.mem_range.mpr hd) (contrib · j) (update ino i v) w
  have h₂ := sum_update_add (Finset.mem_range.mpr hi) (contrib · j) ino v
  rw [update_of_ne hne.symm] at h₁
  omega

structure Bare (dp : ℕ) (v : Ino) : Prop where
  parent : Live v → parentOf v = dp
  empty : v.type = T_DIR → ∀ j, j ≠ 0 → cnt (rest v) j = 0

theorem Bare.contrib_eq (h : Bare dp v) (hj : j ≠ 0) : contrib v j = if Live v ∧ dp = j then 1 else 0 := by
  by_cases hl : Live v
  · rw [contrib_of_live hl, h.parent hl, h.empty hl.1 j hj]
    simp [hl]
  · rw [contrib_of_not_live hl]
    simp [hl]

structure Edit (n : ℕ) (ino : ℕ → Ino) (i dp : ℕ) (v w : Ino) : Prop where
  lt : i ≠ 0 ∧ i < n
  ne : i ≠ dp
  root : i ≠ ROOTINO
  old : Bare dp (ino i)
  new : Bare dp v
  dir : v.type = T_DIR → IsDir i v
  type : v.type ≠ 0
  fresh : Live v → (ino i).type = 0
  live : Live (ino dp)
  live' : Live w
  dir' : IsDir dp w
  parent : parentOf w = parentOf (ino dp)
  cnt_eq : ∀ j, j ≠ 0 → j ≠ i → cnt (rest w) j = cnt (rest (ino dp)) j
  cnt_one : Live v → cnt (rest w) i = 1
  nlink : v.nlink + cnt (rest (ino dp)) i = ∑ d ∈ Finset.range n, contrib (ino d) i + cnt (rest w) i
  nlink' : w.nlink + (if Live (ino i) then 1 else 0) = (ino dp).nlink + if Live v then 1 else 0

namespace Edit

variable (h : Edit n ino i dp v w)
include h

theorem cases (j : ℕ) :
    j = dp ∧ update (update ino i v) dp w j = w ∨ j = i ∧ update (update ino i v) dp w j = v ∨
      j ≠ dp ∧ j ≠ i ∧ update (update ino i v) dp w j = ino j := by
  simp only [update_apply]
  have := h.ne
  grind

theorem sum (ht : Tree n ino) (hj : j ≠ 0) :
    ∑ d ∈ Finset.range n, contrib (update (update ino i v) dp w d) j + cnt (rest (ino dp)) j +
        (if Live (ino i) ∧ dp = j then 1 else 0) =
      ∑ d ∈ Finset.range n, contrib (ino d) j + cnt (rest w) j + if Live v ∧ dp = j then 1 else 0 := by
  have hsum := sum_contrib_update ino v w h.lt.2
    (ht.alloc dp h.live.type_ne_zero).2 h.ne j
  rw [contrib_of_live h.live, contrib_of_live h.live', h.parent, h.old.contrib_eq hj,
    h.new.contrib_eq hj] at hsum
  omega

theorem named (ht : Tree n ino) (hj : j ≠ 0)
    (hc : contrib (update (update ino i v) dp w d) j ≠ 0) :
    (update (update ino i v) dp w j).type ≠ 0 := by
  rcases h.cases j with ⟨-, hw⟩ | ⟨-, hv⟩ | ⟨hjd, hji, hj'⟩
  · rw [hw]
    exact h.live'.type_ne_zero
  · rw [hv]
    exact h.type
  · rw [hj']
    rcases h.cases d with ⟨-, hw⟩ | ⟨-, hv⟩ | ⟨-, -, hd⟩
    · rw [hw, contrib_of_live h.live', h.parent, h.cnt_eq j hj hji, ← contrib_of_live h.live] at hc
      exact ht.named dp j hj hc
    · rw [hv, h.new.contrib_eq hj, if_neg fun h ↦ hjd h.2.symm] at hc
      exact absurd rfl hc
    · exact ht.named d j hj (hd ▸ hc)

theorem parentOf_eq (hci : c ≠ i) (hc : Live (update (update ino i v) dp w c)) :
    Live (ino c) ∧ parentOf (update (update ino i v) dp w c) = parentOf (ino c) := by
  rcases h.cases c with ⟨rfl, hw⟩ | ⟨hci', -⟩ | ⟨-, -, hc'⟩
  · exact ⟨h.live, by rw [hw, h.parent]⟩
  · exact absurd hci' hci
  · exact ⟨hc' ▸ hc, by rw [hc']⟩

theorem up (ht : Tree n ino) (hc : Live (update (update ino i v) dp w c)) :
    Live (update (update ino i v) dp w (parentOf (update (update ino i v) dp w c))) := by
  by_cases hci : c = i
  · subst hci
    rw [update_of_ne h.ne, update_self] at hc ⊢
    rw [h.new.parent hc, update_self]
    exact h.live'
  · obtain ⟨hlive, hparent⟩ := h.parentOf_eq hci hc
    have hup := ht.up c hlive
    rw [hparent]
    rcases h.cases (parentOf (ino c)) with ⟨-, hw⟩ | ⟨hp, -⟩ | ⟨-, -, hp⟩
    · rw [hw]
      exact h.live'
    · rw [hp] at hup
      exact absurd hp (ht.parentOf_ne hup h.root (h.old.empty hup.1) hlive)
    · rwa [hp]

theorem parent_eq (ht : Tree n ino)
    (hc : Live (update (update ino i v) dp w c)) (hd : Live (update (update ino i v) dp w d)) :
    cnt (rest (update (update ino i v) dp w d)) c =
      if c ≠ ROOTINO ∧ d = parentOf (update (update ino i v) dp w c) then 1 else 0 := by
  have hfresh : Live v → ∀ d, Live (ino d) → parentOf (ino d) ≠ i ∧ cnt (rest (ino d)) i = 0 := by
    intro hv d hd
    have := ht.contrib_eq_zero (.inr (h.fresh hv)) h.lt.1 d
    rw [contrib_of_live hd] at this
    split at this <;> simp_all
  by_cases hci : c = i
  · -- A new directory has an entry in `dp` only.
    subst hci
    rw [update_of_ne h.ne, update_self] at hc ⊢
    rw [h.new.parent hc]
    rcases h.cases d with ⟨rfl, -⟩ | ⟨rfl, -⟩ | ⟨hdd, -, hd'⟩
    · simp [h.cnt_one hc, h.root]
    · simp [h.new.empty hc.1 d h.lt.1, h.ne]
    · rw [hd'] at hd ⊢
      simp [hdd, (hfresh hc d hd).2]
  · obtain ⟨hlive, hparent⟩ := h.parentOf_eq hci hc
    have hc0 := ht.ne_zero hlive.type_ne_zero
    rw [hparent]
    rcases h.cases d with ⟨rfl, hw⟩ | ⟨rfl, hv⟩ | ⟨-, -, hd'⟩
    · rw [hw, h.cnt_eq c hc0 hci, ht.parent c d hlive h.live]
    · rw [hv] at hd
      rw [hv, h.new.empty hd.1 c hc0, if_neg fun h ↦ (hfresh hd c hlive).1 h.2.symm]
    · rw [hd'] at hd ⊢
      exact ht.parent c d hlive hd

theorem tree (ht : Tree n ino) : Tree n (update (update ino i v) dp w) := by
  have hdp := ht.alloc dp h.live.type_ne_zero
  refine ⟨fun j hj ↦ ?_, ?_, fun d hd ↦ ?_, fun j hj ↦ ?_, fun d j ↦ h.named ht, fun d j hd hl hj ↦ ?_,
    fun c ↦ h.up ht, fun c d ↦ h.parent_eq ht⟩
  · rcases h.cases j with ⟨rfl, -⟩ | ⟨rfl, -⟩ | ⟨-, -, hj'⟩
    · exact hdp
    · exact h.lt
    · exact ht.alloc j (hj' ▸ hj)
  · rcases h.cases ROOTINO with ⟨hr, hw⟩ | ⟨hr, -⟩ | ⟨-, -, hr⟩
    · rw [hw, h.parent, ← hr]
      exact ⟨h.live', ht.root.2⟩
    · exact absurd hr.symm h.root
    · exact hr ▸ ht.root
  · rcases h.cases d with ⟨rfl, hw⟩ | ⟨rfl, hv⟩ | ⟨-, -, hd'⟩
    · rw [hw]
      exact h.dir'
    · rw [hv] at hd ⊢
      exact h.dir hd
    · rw [hd'] at hd ⊢
      exact ht.dir d hd
  · rcases h.cases j with ⟨rfl, hw⟩ | ⟨rfl, hv⟩ | ⟨hjd, hji, hj'⟩
    · have hsum := h.sum ht hdp.1
      have hnlink := h.nlink'
      rw [h.cnt_eq j hdp.1 h.ne.symm] at hsum
      rw [ht.nlink j h.live.type_ne_zero] at hnlink
      simp only [and_true] at hsum
      rw [hw]
      omega
    · have hsum := h.sum ht h.lt.1
      have hnlink := h.nlink
      simp only [h.ne.symm, and_false, if_false] at hsum
      rw [hv]
      omega
    · rw [hj'] at hj ⊢
      have hsum := h.sum ht (ht.ne_zero hj)
      simp only [hjd.symm, and_false, if_false, h.cnt_eq j (ht.ne_zero hj) hji] at hsum
      rw [ht.nlink j hj]
      omega
  · rcases h.cases d with ⟨rfl, hw⟩ | ⟨rfl, hv⟩ | ⟨-, -, hd'⟩
    · rw [hw] at hl
      exact absurd hl h.live'.2.ne'
    · rw [hv] at hd ⊢
      exact h.new.empty hd j hj
    · rw [hd'] at hd hl ⊢
      exact ht.dead d j hd hl hj

end Edit

theorem Tree.free (h : Tree n ino) (ht : (ino i).type ≠ 0) (hi : (ino i).nlink = 0) (hv : v.type = 0) :
    Tree n (update ino i v) := by
  have hi0 := h.ne_zero ht
  have hnone := h.contrib_eq_zero (.inl hi) hi0
  have hcontrib : ∀ d j, contrib (update ino i v d) j = contrib (ino d) j := by
    intro d j
    by_cases hdi : d = i
    · subst hdi
      rw [update_self, contrib_of_not_live fun h ↦ h.type_ne_zero hv,
        contrib_of_not_live fun h ↦ h.2.ne' hi]
    · rw [update_of_ne hdi]
  have hne : ∀ {j}, (update ino i v j).type ≠ 0 → update ino i v j = ino j := by
    intro j hj
    by_cases hji : j = i
    · subst hji
      rw [update_self] at hj
      exact absurd hv hj
    · rw [update_of_ne hji]
  have hroot : ROOTINO ≠ i := by
    rintro rfl
    exact h.root.1.2.ne' hi
  have hdir : ∀ {d}, (update ino i v d).type = T_DIR → update ino i v d = ino d := by
    intro d hd
    exact hne (by rw [hd]; decide)
  refine ⟨fun j hj ↦ h.alloc j (hne hj ▸ hj), ?_, fun d hd ↦ ?_, fun j hj ↦ ?_, fun d j hj hc ↦ ?_,
    fun d j hd hl hj ↦ ?_, fun c hc ↦ ?_, fun c d hc hd ↦ ?_⟩
  · rw [update_of_ne hroot]
    exact h.root
  · have hd' := hdir hd
    rw [hd'] at hd ⊢
    exact h.dir d hd
  · have hj' := hne hj
    rw [hj'] at hj ⊢
    simp only [hcontrib]
    exact h.nlink j hj
  · rw [hcontrib] at hc
    have hji : j ≠ i := by
      rintro rfl
      exact hc (hnone d)
    rw [update_of_ne hji]
    exact h.named d j hj hc
  · have hd' := hdir hd
    rw [hd'] at hd hl ⊢
    exact h.dead d j hd hl hj
  · have hc' := hdir hc.1
    rw [hc'] at hc ⊢
    have hup := h.up c hc
    have hpi : parentOf (ino c) ≠ i := by
      rintro hp
      rw [hp] at hup
      exact hup.2.ne' hi
    rwa [update_of_ne hpi]
  · have hc' := hdir hc.1
    have hd' := hdir hd.1
    rw [hc'] at hc ⊢
    rw [hd'] at hd ⊢
    exact h.parent c d hc hd

theorem Bare.of_not_dir (h : v.type ≠ T_DIR) : Bare dp v := ⟨fun hl ↦ absurd hl.1 h, fun ht ↦ absurd ht h⟩

section Edits

variable {name : Name} {k : ℕ}

theorem Tree.addEntry (h : Tree n ino) (hlive : Live (ino dp))
    (hl : lookup (ino dp).entries name = none)
    (hw : w.entries = Sysfile.addEntry (ino dp).entries ⟨i, name⟩) :
    IsDir dp w ∧ parentOf w = parentOf (ino dp) ∧
      ∀ j, j ≠ 0 → cnt (rest w) j = cnt (rest (ino dp)) j + if i = j then 1 else 0 := by
  have hdir := h.dir dp hlive.1
  have hdp := h.ne_zero hlive.type_ne_zero
  obtain ⟨hdir', hparent, hrest⟩ := hdir.addEntry hdp (hdir.ne_of_lookup hdp hl) hw
  refine ⟨hdir', hparent, fun j hj ↦ ?_⟩
  rw [hrest, cnt_addEntry hj]

theorem Tree.addLeaf (h : Tree n ino) (hlive : Live (ino dp)) (hl : lookup (ino dp).entries name = none)
    (hi : i ≠ 0 ∧ i < n) (hold : (ino i).type ≠ T_DIR) (hv : v.type ≠ 0 ∧ v.type ≠ T_DIR)
    (hnlink : v.nlink = ∑ d ∈ Finset.range n, contrib (ino d) i + 1)
    (hw : w = { ino dp with entries := Sysfile.addEntry (ino dp).entries ⟨i, name⟩ }) :
    Tree n (update (update ino i v) dp w) := by
  obtain ⟨hdir, hparent, hcnt⟩ := h.addEntry (w := w) (i := i) hlive hl (by rw [hw])
  have hlive' : Live w := hw ▸ hlive
  have hnv : ¬ Live v := fun hl ↦ hv.2 hl.1
  have hni : ¬ Live (ino i) := fun hl ↦ hold hl.1
  refine Edit.tree ⟨hi, ?_, ?_, .of_not_dir hold, .of_not_dir hv.2, fun ht ↦ absurd ht hv.2, hv.1,
    fun hl ↦ absurd hl hnv, hlive, hlive', hdir, hparent, fun j hj hji ↦ ?_, fun hl ↦ absurd hl hnv, ?_, ?_⟩ h
  · rintro rfl
    exact hni hlive
  · rintro rfl
    exact hni h.root.1
  · rw [hcnt j hj, if_neg hji.symm, Nat.add_zero]
  · rw [hcnt i hi.1, if_pos rfl, hnlink]
    omega
  · rw [if_neg hnv, if_neg hni, hw]

theorem Tree.addDir (h : Tree n ino) (hlive : Live (ino dp)) (hl : lookup (ino dp).entries name = none)
    (hi : i ≠ 0 ∧ i < n) (hold : (ino i).type = 0) (htype : v.type = T_DIR) (hlink : v.nlink = 1)
    (hv : v.entries = [⟨i, dot⟩, ⟨dp, dotdot⟩])
    (hw : w.entries = Sysfile.addEntry (ino dp).entries ⟨i, name⟩) (htype' : w.type = T_DIR)
    (hlink' : w.nlink = (ino dp).nlink + 1) : Tree n (update (update ino i v) dp w) := by
  obtain ⟨hdir, hparent, hcnt⟩ := h.addEntry (i := i) hlive hl hw
  have hdp := h.ne_zero hlive.type_ne_zero
  have hvp : parentOf v = dp := by
    rw [parentOf, hv]
    rfl
  have hvr : rest v = [] := by
    rw [rest, hv]
    rfl
  have hlv : Live v := ⟨htype, by omega⟩
  have hni : ¬ Live (ino i) := fun hl ↦ hl.type_ne_zero hold
  have hnone := h.contrib_eq_zero (.inr hold) hi.1
  have hcnt0 : cnt (rest (ino dp)) i = 0 := by
    have := hnone dp
    rw [contrib_of_live hlive] at this
    omega
  refine Edit.tree ⟨hi, ?_, ?_, .of_not_dir (by rw [hold]; decide),
    ⟨fun _ ↦ hvp, fun _ j _ ↦ by simp [hvr, cnt]⟩, fun _ ↦ ⟨?_, hvp ▸ hdp, by simp [hvr]⟩,
    hlv.type_ne_zero, fun _ ↦ hold, hlive, ⟨htype', by omega⟩, hdir, hparent, fun j hj hji ↦ ?_,
    fun _ ↦ ?_, ?_, ?_⟩ h
  · rintro rfl
    exact hni hlive
  · rintro rfl
    exact hni h.root.1
  · rw [hv, hvp, hvr]
  · rw [hcnt j hj, if_neg hji.symm, Nat.add_zero]
  · rw [hcnt i hi.1, hcnt0, if_pos rfl]
  · rw [hcnt i hi.1, hcnt0, if_pos rfl, Finset.sum_eq_zero fun d _ ↦ hnone d, hlink]
  · rw [if_pos hlv, if_neg hni, hlink']

theorem Tree.two_le_nlink (h : Tree n ino) (hlive : Live (ino dp)) (hi : Live (ino i)) (hroot : i ≠ ROOTINO)
    (hempty : ∀ j, j ≠ 0 → cnt (rest (ino i)) j = 0) (hp : parentOf (ino i) = dp) : 2 ≤ (ino dp).nlink := by
  have hup := h.up dp hlive
  have hne := h.parentOf_ne hi hroot hempty hlive
  have hone : 1 ≤ contrib (ino (parentOf (ino dp))) dp := by
    rw [contrib_of_live hup, h.parent dp _ hlive hup]
    by_cases hr : dp = ROOTINO
    · rw [hr, h.root.2, h.root.2, if_pos rfl]
      omega
    · simp [hr]
  have hone' : 1 ≤ contrib (ino i) dp := by
    rw [contrib_of_live hi, if_pos hp]
    omega
  have hsub : {parentOf (ino dp), i} ⊆ Finset.range n := by
    intro x hx
    rcases Finset.mem_insert.mp hx with rfl | hx
    · exact Finset.mem_range.mpr (h.alloc _ hup.type_ne_zero).2
    · rw [Finset.mem_singleton.mp hx]
      exact Finset.mem_range.mpr (h.alloc _ hi.type_ne_zero).2
  calc 2 ≤ contrib (ino (parentOf (ino dp))) dp + contrib (ino i) dp := by omega
    _ = ∑ d ∈ {parentOf (ino dp), i}, contrib (ino d) dp := by rw [Finset.sum_pair hne]
    _ ≤ ∑ d ∈ Finset.range n, contrib (ino d) dp := Finset.sum_le_sum_of_subset hsub
    _ = (ino dp).nlink := (h.nlink dp hlive.type_ne_zero).symm

theorem Tree.remove (h : Tree n ino) (hlive : Live (ino dp)) (hk : k < (rest (ino dp)).length)
    (hi : (rest (ino dp))[k].inum = i) (hi0 : i ≠ 0)
    (hempty : (ino i).type = T_DIR → ∀ j, j ≠ 0 → cnt (rest (ino i)) j = 0)
    (hv : v = { ino i with nlink := (ino i).nlink - 1 })
    (hw : w.entries = (ino dp).entries.set (k + 2) emptyEntry) (htype : w.type = T_DIR)
    (hlink : w.nlink = if (ino i).type = T_DIR then (ino dp).nlink - 1 else (ino dp).nlink) :
    i ≠ dp ∧ Live w ∧ Tree n (update (update ino i v) dp w) := by
  obtain ⟨hdir, hparent, hrest⟩ := (h.dir dp hlive.1).clear hw
  have hcnt : ∀ j, j ≠ 0 → cnt (rest w) j + (if i = j then 1 else 0) = cnt (rest (ino dp)) j := by
    intro j hj
    have := cnt_set emptyEntry hk j
    rw [hi, if_neg (show emptyEntry.inum ≠ j from hj.symm)] at this
    rw [hrest, this, Nat.add_zero]
  have hpos : 0 < cnt (rest (ino dp)) i := by
    have := hcnt i hi0
    rw [if_pos rfl] at this
    omega
  have hcontrib : contrib (ino dp) i ≠ 0 := by
    rw [contrib_of_live hlive]
    omega
  have ht := h.named dp i hi0 hcontrib
  have hnlink := h.nlink i ht
  have hle : contrib (ino dp) i ≤ (ino i).nlink := by
    rw [hnlink]
    exact Finset.single_le_sum (f := fun d ↦ contrib (ino d) i) (fun _ _ ↦ Nat.zero_le _)
      (Finset.mem_range.mpr (h.alloc dp hlive.type_ne_zero).2)
  have hlive_i : (ino i).type = T_DIR → Live (ino i) := fun ht ↦ ⟨ht, by omega⟩
  have hdirp : (ino i).type = T_DIR → i ≠ ROOTINO ∧ parentOf (ino i) = dp := by
    intro ht
    have hp := h.parent i dp (hlive_i ht) hlive
    rw [hp] at hpos
    split at hpos
    · rename_i hc
      exact ⟨hc.1, hc.2.symm⟩
    · omega
  have hnv : ¬ Live v := by
    rintro ⟨ht, hl⟩
    rw [hv] at ht hl
    have := h.nlink_le_one (hlive_i ht) (hdirp ht).1 (hempty ht)
    simp only at hl
    omega
  have hne : i ≠ dp := by
    rintro rfl
    exact hpos.ne' (hempty hlive.1 i hi0)
  have hlive' : Live w := by
    refine ⟨htype, ?_⟩
    rw [hlink]
    split
    · rename_i ht
      have := h.two_le_nlink hlive (hlive_i ht) (hdirp ht).1 (hempty ht) (hdirp ht).2
      omega
    · exact hlive.2
  refine ⟨hne, hlive', Edit.tree ⟨h.alloc i ht, hne, ?_, ⟨fun hl ↦ (hdirp hl.1).2, hempty⟩,
    ⟨fun hl ↦ absurd hl hnv, fun ht ↦ ?_⟩, fun ht ↦ ?_, hv ▸ ht, fun hl ↦ absurd hl hnv, hlive, hlive', hdir,
    hparent, fun j hj hji ↦ ?_, fun hl ↦ absurd hl hnv, ?_, ?_⟩ h⟩
  · rintro rfl
    exact (hdirp h.root.1.1).1 rfl
  · rw [hv] at ht ⊢
    exact hempty ht
  · rw [hv] at ht ⊢
    exact ⟨(h.dir i ht).entries, (h.dir i ht).parent, (h.dir i ht).names⟩
  · rw [← hcnt j hj, if_neg hji.symm, Nat.add_zero]
  · rw [← hnlink, ← hcnt i hi0, if_pos rfl, hv]
    simp only
    omega
  · rw [hlink, if_neg hnv]
    by_cases ht : (ino i).type = T_DIR
    · rw [if_pos ht, if_pos (hlive_i ht)]
      have := hlive.2
      omega
    · rw [if_neg ht, if_neg fun hl ↦ ht hl.1]

end Edits

end Xv6Bfs.Sysfile

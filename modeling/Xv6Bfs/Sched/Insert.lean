import Xv6Bfs.Lib.KeyedQueue
import Xv6Bfs.Sched.WellFormed

namespace Xv6Bfs.Sched.SkipList

open Lib.LinkedChain Lib.Execution Lib.KeyedQueue

variable {vd : ProcId → ℤ} {p : ProcId} {t t' : SkipList} {L : ℤ → List Entry} {k : ℤ}
  {node lower curr : NodePtr}

theorem modify_modify (t : SkipList) (a : NodePtr) (f g : Node → Node) :
    (t.modify a f).modify a g = t.modify a (fun n ↦ g (f n)) := by
  simp [modify]

def linkedNode (p : ProcId) (t : SkipList) (node lower curr : NodePtr) : SkipList :=
  let nx := (t.level curr).next
  let t := t.modify node (fun _ ↦ ⟨some p, curr, nx, lower⟩)
  let t := t.modify curr (fun n ↦ { n with next := node })
  if nx = .null then t else t.modify nx (fun n ↦ { n with prev := node })

theorem linkNode_eq (hn : node.Valid) (hc : curr.Valid) (hne : node ≠ curr)
    (hx : (t.level curr).next ≠ .null → (t.level curr).next.Valid) :
    linkNode p t node lower curr = .ok (linkedNode p t node lower curr) := by
  simp only [linkNode, store_of_valid hn, store_of_valid hc, load_of_valid hn, load_of_valid hc,
    ok_bind, modify_modify, modify_level, if_neg hne.symm, if_neg hne, if_true, linkedNode]
  by_cases h0 : (t.level curr).next = .null
  · simp only [h0, ne_eq, not_true_eq_false, if_false, if_true]
  · rw [if_pos h0, if_neg h0, store_of_valid (hx h0)]

theorem linkedNode_proc (a : NodePtr) :
    ((linkedNode p t node lower curr).level a).proc =
      if a = node then some p else (t.level a).proc := by
  unfold linkedNode
  simp only
  split <;> simp only [modify_level] <;> grind

theorem linkedNode_lower (a : NodePtr) :
    ((linkedNode p t node lower curr).level a).lower =
      if a = node then lower else (t.level a).lower := by
  unfold linkedNode
  simp only
  split <;> simp only [modify_level] <;> grind

theorem linkedNode_next (hne : node ≠ curr) (a : NodePtr) :
    ((linkedNode p t node lower curr).level a).next =
      if a = node then (t.level curr).next else if a = curr then node else (t.level a).next := by
  unfold linkedNode
  simp only
  split <;> simp only [modify_level] <;> grind

theorem linkedNode_prev (hx : (t.level curr).next ≠ node) (a : NodePtr) :
    ((linkedNode p t node lower curr).level a).prev =
      if a = node then curr
      else if a = (t.level curr).next ∧ a ≠ .null then node else (t.level a).prev := by
  unfold linkedNode
  simp only
  split <;> simp only [modify_level] <;> grind

@[simp] theorem linkedNode_maxSkiplistLevel :
    (linkedNode p t node lower curr).maxSkiplistLevel = t.maxSkiplistLevel := by
  unfold linkedNode
  simp only
  split <;> rfl

theorem linkedNode_level_ne {a : NodePtr} (hn : a ≠ node) (hc : a ≠ curr)
    (hx : a ≠ (t.level curr).next) : (linkedNode p t node lower curr).level a = t.level a := by
  unfold linkedNode
  simp only
  split <;> simp only [modify_level, if_neg hn, if_neg hc, if_neg hx]

theorem Rep.exists_free (h : Rep vd t L) (hk : InLevels k) (hp : p ∉ procs L k) :
    ∃ j, 1 ≤ j ∧ j ≤ NPROC ∧ (t.level (.cell k j)).proc = none := by
  by_contra! hfull
  have hslots : Finset.Icc 1 NPROC ⊆ ((L k).map Prod.fst).toFinset := by
    intro j hj
    obtain ⟨h1, h2⟩ := Finset.mem_Icc.mp hj
    rw [List.mem_toFinset]
    by_contra hm
    exact hfull j h1 h2 ((h.level k hk).free j h1 h2 hm)
  have hcard := (Finset.card_le_card hslots).trans (List.toFinset_card_le _)
  have hlen := (List.nodup_cons.mpr ⟨hp, h.nodup_at hk⟩).length_le_card
  simp only [procs, Nat.card_Icc, List.length_map, List.length_cons, Fintype.card_fin] at hcard hlen
  omega

theorem freeSlot_finds (hk : InLevels k) {j₀ : ℕ} (h0 : j₀ ≤ NPROC)
    (hfree : (t.level (.cell k j₀)).proc = none) (fuel j : ℕ) (hj : j ≤ j₀)
    (hf : j₀ - j < fuel) :
    ∃ j', j ≤ j' ∧ j' ≤ j₀ ∧ (t.level (.cell k j')).proc = none ∧ t.freeSlot k fuel j = .ok j' := by
  induction fuel generalizing j with
  | zero => omega
  | succ fuel ih =>
    have hv : (NodePtr.cell k j).Valid := valid_cell hk (hj.trans h0)
    by_cases hn : (t.level (.cell k j)).proc = none
    · refine ⟨j, le_rfl, hj, hn, ?_⟩
      simp only [freeSlot, load_of_valid hv, ok_bind, hn, if_true]
    · have hlt : j ≠ j₀ := fun he ↦ hn (he ▸ hfree)
      obtain ⟨j', h1, h2, h3, h4⟩ := ih (j + 1) (by omega) (by omega)
      refine ⟨j', by omega, h2, h3, ?_⟩
      simp only [freeSlot, load_of_valid hv, ok_bind, if_neg hn]
      rw [if_neg (by omega), h4]

theorem freeSlot_spec (h : Rep vd t L) (hk : InLevels k) (hp : p ∉ procs L k) :
    ∃ j, 1 ≤ j ∧ j ≤ NPROC ∧ (t.level (.cell k j)).proc = none ∧
      t.freeSlot k (NPROC + 1) 1 = .ok j := by
  obtain ⟨j₀, h1, h2, h3⟩ := h.exists_free hk hp
  obtain ⟨j, hj, hj', hn, he⟩ := freeSlot_finds hk h2 h3 (NPROC + 1) 1 h1 (by omega)
  exact ⟨j, hj, hj'.trans h2, hn, he⟩

theorem freeSlot_congr {t' : SkipList} (ht : ∀ i, t'.level (.cell k i) = t.level (.cell k i))
    (fuel j : ℕ) : t'.freeSlot k fuel j = t.freeSlot k fuel j := by
  induction fuel generalizing j with
  | zero => rfl
  | succ fuel ih => simp only [freeSlot, load, ht, ih]

def firstFree (slots : List ℕ) : ℕ → ℕ → ℕ
  | 0, j => j
  | fuel + 1, j => if j ∈ slots then firstFree slots fuel (j + 1) else j

theorem freeSlot_firstFree {l : List Entry} {i : ℕ} (h : LevelRep t k l) (fuel j : ℕ) (hj : 1 ≤ j)
    (he : t.freeSlot k fuel j = .ok i) : i = firstFree (l.map Prod.fst) fuel j := by
  induction fuel generalizing j with
  | zero => cases he
  | succ fuel ih =>
    obtain ⟨c, hc, he⟩ := bind_eq_ok.mp he
    rw [load] at hc
    split at hc
    · rename_i hv
      cases hc
      by_cases hm : j ∈ l.map Prod.fst
      · obtain ⟨e, hel, rfl⟩ := List.mem_map.mp hm
        have hp : (t.level (.cell k e.1)).proc = some e.2 := h.holds e hel
        rw [firstFree, if_pos hm]
        simp only [hp, reduceCtorEq, if_false] at he
        split at he
        · cases he
        · exact ih (e.1 + 1) (by omega) he
      · rw [firstFree, if_neg hm]
        rw [if_pos (h.free j hj hv.2 hm)] at he
        cases he
        rfl
    · cases hc

theorem mem_slots {l : List Entry} {j : ℕ} {e : Entry} (he : e ∈ l) (hj : e.1 = j) :
    j ∈ l.map Prod.fst := hj ▸ List.mem_map_of_mem he

namespace LevelRep

variable {l₁ l₂ : List Entry} {j : ℕ}

def last (k : ℤ) (l₁ : List Entry) : NodePtr := (l₁.map (ptr k)).getLastD (.cell k 0)

theorem last_cases (k : ℤ) (l₁ : List Entry) : last k l₁ = .cell k 0 ∨ ∃ e ∈ l₁, last k l₁ = ptr k e := by
  have hm := List.getLastD_mem_cons (l := l₁.map (ptr k)) (a := .cell k 0)
  rcases List.mem_cons.mp hm with h0 | hm
  · exact .inl h0
  · obtain ⟨e, he, hp⟩ := List.mem_map.mp hm
    exact .inr ⟨e, he, hp.symm⟩

theorem last_valid (h : LevelRep t k (l₁ ++ l₂)) (hk : InLevels k) : (last k l₁).Valid := by
  rcases last_cases k l₁ with h0 | ⟨e, he, hp⟩
  · rw [h0]; exact valid_head hk
  · rw [hp]; exact h.valid hk (List.mem_append_left l₂ he)

theorem mem_head?_ptr {b : NodePtr} :
    b ∈ (l₂.map (ptr k)).head? ↔ b = (l₂.map (ptr k)).headD .null ∧ b ≠ .null := by
  cases l₂ with
  | nil => simp
  | cons e l => exact ⟨fun hb ↦ by cases hb; exact ⟨rfl, nofun⟩, fun hb ↦ congrArg some hb.1.symm⟩

theorem last_next (h : LevelRep t k (l₁ ++ l₂)) :
    (t.level (last k l₁)).next = (l₂.map (ptr k)).headD .null := by
  have hl := h.linked
  rw [List.map_append] at hl
  exact hl.drop.next_eq

theorem next_cases (h : LevelRep t k (l₁ ++ l₂)) : (t.level (last k l₁)).next = .null ∨
    ∃ e ∈ l₂, (t.level (last k l₁)).next = ptr k e := by
  rw [h.last_next]
  cases l₂ with
  | nil => exact .inl rfl
  | cons e l => exact .inr ⟨e, List.mem_cons_self, rfl⟩

theorem not_mem_slots {l : List Entry} (h : LevelRep t k l)
    (hfree : (t.level (.cell k j)).proc = none) : j ∉ l.map Prod.fst := by
  intro hm
  obtain ⟨e, he, rfl⟩ := List.mem_map.mp hm
  have hh := h.holds e he
  rw [ptr, hfree] at hh
  cases hh

theorem ptr_ne {l : List Entry} {e : Entry} (hj : j ∉ l.map Prod.fst) (he : e ∈ l) :
    ptr k e ≠ .cell k j := by
  intro hp
  injection hp with _ hej
  exact hj (mem_slots he hej)

theorem last_ne (hj : 1 ≤ j) (hs : j ∉ (l₁ ++ l₂).map Prod.fst) : last k l₁ ≠ .cell k j := by
  rcases last_cases k l₁ with h0 | ⟨e, he, hp⟩
  · rw [h0]
    intro hc
    injection hc
    omega
  · rw [hp]
    exact ptr_ne hs (List.mem_append_left l₂ he)

variable (h : LevelRep t k (l₁ ++ l₂))
include h

theorem next_ne (hs : j ∉ (l₁ ++ l₂).map Prod.fst) : (t.level (last k l₁)).next ≠ .cell k j := by
  rcases h.next_cases with h0 | ⟨e, he, hp⟩
  · rw [h0]; simp
  · rw [hp]; exact ptr_ne hs (List.mem_append_right l₁ he)

theorem next_ne_head : (t.level (last k l₁)).next ≠ .cell k 0 := by
  rcases h.next_cases with h0 | ⟨e, he, hp⟩
  · rw [h0]; simp
  · rw [hp]
    have hs := (h.slot e (List.mem_append_right l₁ he)).1
    intro hc
    injection hc
    omega

theorem link_linked (hj : 1 ≤ j) (hs : j ∉ (l₁ ++ l₂).map Prod.fst) :
    Linked (fun a ↦ ((linkedNode p t (.cell k j) lower (last k l₁)).level a).next)
      (fun a ↦ ((linkedNode p t (.cell k j) lower (last k l₁)).level a).prev) .null (.cell k 0)
      ((l₁ ++ (j, p) :: l₂).map (ptr k)) := by
  have hl := h.linked
  have hd := h.cells_nodup
  have hne : NodePtr.cell k j ≠ last k l₁ := (last_ne hj hs).symm
  have hxn := h.next_ne hs
  rw [List.map_append] at hl hd ⊢
  refine hl.insert (n := .cell k j) hd ?_ ?_ ?_ ?_ ?_ ?_ ?_
  · rw [← List.map_append]
    simp only [List.mem_cons, List.mem_map, not_or, not_exists, not_and]
    refine ⟨?_, fun e he ↦ ptr_ne hs he⟩
    intro hc
    injection hc
    omega
  · exact (linkedNode_next hne _).trans ((if_neg hne.symm).trans (if_pos rfl))
  · exact (linkedNode_next hne _).trans (if_pos rfl)
  · exact (linkedNode_prev hxn _).trans (if_pos rfl)
  · intro b hb
    rw [mem_head?_ptr, ← h.last_next] at hb
    rw [linkedNode_prev hxn, if_neg (hb.1 ▸ hxn), if_pos hb]
  · intro x hxc hxj
    rw [linkedNode_next hne, if_neg hxj, if_neg (show x ≠ last k l₁ from hxc)]
  · intro x hxj hx
    rw [mem_head?_ptr, ← h.last_next] at hx
    rw [linkedNode_prev hxn, if_neg hxj, if_neg hx]

theorem link (p : ProcId) (lower : NodePtr) (hj : 1 ≤ j) (hjn : j ≤ NPROC)
    (hs : j ∉ (l₁ ++ l₂).map Prod.fst) :
    LevelRep (linkedNode p t (.cell k j) lower (last k l₁)) k (l₁ ++ (j, p) :: l₂) := by
  have hmem (e : Entry) : e ∈ l₁ ++ (j, p) :: l₂ ↔ e = (j, p) ∨ e ∈ l₁ ++ l₂ := by
    simp only [List.mem_append, List.mem_cons]
    tauto
  have h0 : NodePtr.cell k 0 ≠ .cell k j := by
    intro hc
    injection hc
    omega
  constructor
  · rw [linkedNode_proc, if_neg h0]
    exact h.head_proc
  · rw [linkedNode_prev (h.next_ne hs), if_neg h0, if_neg (fun hc ↦ h.next_ne_head hc.1.symm)]
    exact h.head_prev
  · exact h.link_linked hj hs
  · intro e he
    rcases (hmem e).mp he with rfl | he
    · exact ⟨hj, hjn⟩
    · exact h.slot e he
  · intro e he
    rw [linkedNode_proc]
    rcases (hmem e).mp he with rfl | he
    · exact if_pos rfl
    · rw [if_neg (ptr_ne hs he)]
      exact h.holds e he
  · have hperm : (l₁ ++ (j, p) :: l₂).Perm ((j, p) :: (l₁ ++ l₂)) := List.perm_middle
    exact (hperm.map Prod.fst).nodup_iff.mpr (List.nodup_cons.mpr ⟨hs, h.slots_nodup⟩)
  · intro i h1 h2 hi
    have hij : i ≠ j := fun he ↦ hi (mem_slots ((hmem (j, p)).mpr (.inl rfl)) he.symm)
    rw [linkedNode_proc, if_neg (by simp [hij])]
    apply h.free i h1 h2
    intro hm
    obtain ⟨e, he, hei⟩ := List.mem_map.mp hm
    exact hi (mem_slots ((hmem e).mpr (.inr he)) hei)

theorem link_other {k' : ℤ} (hk : k' ≠ k) (i : ℕ) :
    (linkedNode p t (.cell k j) lower (last k l₁)).level (.cell k' i) = t.level (.cell k' i) := by
  apply linkedNode_level_ne
  · simp [hk]
  · rcases last_cases k l₁ with h0 | ⟨e, -, hp⟩
    · rw [h0]; simp [hk]
    · rw [hp]; simp [ptr, hk]
  · rcases h.next_cases with h0 | ⟨e, -, hp⟩
    · rw [h0]; simp
    · rw [hp]; simp [ptr, hk]

end LevelRep

theorem last_before (vd : ProcId → ℤ) (d : ℤ) (k : ℤ) (l : List Entry) :
    LevelRep.last k (before vd d l) = .cell k (predSlot vd d l) := by
  have he : (before vd d l).map (ptr k) = ((before vd d l).map Prod.fst).map (NodePtr.cell k) := by
    rw [List.map_map]; rfl
  rw [LevelRep.last, he, List.getLastD_map]
  rfl

theorem enqueue_entry (vd : ProcId → ℤ) (e : Entry) (l : List Entry) :
    enqueue (fun x : Entry ↦ vd x.2) e l =
      before vd (vd e.2) l ++ e :: l.dropWhile (fun x ↦ goesBefore (vd x.2) (vd e.2)) := by
  rw [enqueue_eq_split]
  rfl

def insertEntry (vd : ProcId → ℤ) (L : ℤ → List Entry) (k : ℤ) (e : Entry) : ℤ → List Entry :=
  Function.update L k (enqueue (fun x : Entry ↦ vd x.2) e (L k))

theorem mem_insertEntry {j : ℤ} {e x : Entry} (hx : x ∈ L j) : x ∈ insertEntry vd L k e j := by
  by_cases hj : j = k
  · subst hj
    simp [insertEntry, hx]
  · rwa [insertEntry, Function.update_of_ne hj]

theorem procs_insertEntry (e : Entry) :
    procs (insertEntry vd L k e) k = enqueue vd e.2 (procs L k) := by
  rw [procs, insertEntry, Function.update_self, map_enqueue vd Prod.snd]
  rfl

theorem procs_insertEntry_of_ne {j : ℤ} (hj : j ≠ k) (e : Entry) :
    procs (insertEntry vd L k e) j = procs L j := by
  rw [procs, insertEntry, Function.update_of_ne hj, procs]

theorem ordered_insertEntry {j : ℕ} (h : Ordered vd L) (hp : p ∉ procs L k)
    (hsub : k ≠ 0 → (enqueue vd p (procs L k)).Sublist (procs L (k - 1))) :
    Ordered vd (insertEntry vd L k (j, p)) := by
  constructor
  · intro k' hk' hk0
    by_cases hkk : k' = k
    · subst hkk
      rw [procs_insertEntry, procs_insertEntry_of_ne (by omega)]
      exact hsub hk0
    · rw [procs_insertEntry_of_ne hkk]
      refine (h.sub k' hk' hk0).trans ?_
      by_cases hd : k' - 1 = k
      · rw [hd, procs_insertEntry]
        exact sublist_enqueue vd p _
      · rw [procs_insertEntry_of_ne hd]
  · by_cases hkk : 0 = k
    · subst hkk
      rw [procs_insertEntry]
      exact nodup_enqueue vd hp h.nodup
    · rw [procs_insertEntry_of_ne hkk]
      exact h.nodup
  · by_cases hkk : 0 = k
    · subst hkk
      rw [procs_insertEntry]
      exact sorted_enqueue p h.sorted
    · rw [procs_insertEntry_of_ne hkk]
      exact h.sorted

theorem link_rep {j : ℕ} (h : Rep vd t L) (hk : InLevels k) (hp : p ∉ procs L k) (hj : 1 ≤ j)
    (hjn : j ≤ NPROC) (hfree : (t.level (.cell k j)).proc = none)
    (hbottom : k = 0 → lower = .null)
    (hlower : k ≠ 0 → ∃ e ∈ L (k - 1), e.2 = p ∧ lower = ptr (k - 1) e)
    (hsub : k ≠ 0 → (enqueue vd p (procs L k)).Sublist (procs L (k - 1))) :
    ∃ t', linkNode p t (.cell k j) lower (.cell k (predSlot vd (vd p) (L k))) = .ok t' ∧
      Rep vd t' (insertEntry vd L k (j, p)) ∧
      (∀ k', k' ≠ k → ∀ i, t'.level (.cell k' i) = t.level (.cell k' i)) ∧
      t'.maxSkiplistLevel = t.maxSkiplistLevel := by
  have hlev := h.level k hk
  have hs := hlev.not_mem_slots hfree
  rw [← before_append vd (vd p) (L k)] at hlev hs
  have hlink := hlev.link p lower hj hjn hs
  rw [← enqueue_entry vd (j, p) (L k)] at hlink
  rw [← last_before]
  refine ⟨_, linkNode_eq (valid_cell hk hjn) (hlev.last_valid hk) (LevelRep.last_ne hj hs).symm ?_,
    { ordered_insertEntry h.toOrdered hp hsub with level := ?_, bottom := ?_, lower := ?_ },
    fun k' hk' i ↦ hlev.link_other hk' i, linkedNode_maxSkiplistLevel⟩
  · intro hnull
    rcases hlev.next_cases with h0 | ⟨e, he, hpe⟩
    · exact absurd h0 hnull
    · rw [hpe]
      exact hlev.valid hk (List.mem_append_right _ he)
  · intro k' hk'
    by_cases hkk : k' = k
    · subst hkk
      rw [insertEntry, Function.update_self]
      exact hlink
    · rw [insertEntry, Function.update_of_ne hkk]
      exact (h.level k' hk').congr (fun i ↦ hlev.link_other hkk i)
  · intro e he
    rw [linkedNode_lower]
    by_cases hkk : 0 = k
    · subst hkk
      rw [insertEntry, Function.update_self, mem_enqueue] at he
      rcases he with rfl | he
      · exact (if_pos rfl).trans (hbottom rfl)
      · rw [if_neg (LevelRep.ptr_ne hs (by rwa [before_append]))]
        exact h.bottom e he
    · rw [insertEntry, Function.update_of_ne hkk] at he
      rw [if_neg (by simp [ptr, hkk])]
      exact h.bottom e he
  · intro k' hk' hk0 e he
    rw [linkedNode_lower]
    by_cases hkk : k' = k
    · subst hkk
      rw [insertEntry, Function.update_self, mem_enqueue] at he
      rcases he with rfl | he
      · obtain ⟨e', he', hep, hlow⟩ := hlower hk0
        exact ⟨e', mem_insertEntry he', hep, (if_pos rfl).trans hlow⟩
      · rw [if_neg (LevelRep.ptr_ne hs (by rwa [before_append]))]
        obtain ⟨e', he', hrest⟩ := h.lower k' hk' hk0 e he
        exact ⟨e', mem_insertEntry he', hrest⟩
    · rw [insertEntry, Function.update_of_ne hkk] at he
      rw [if_neg (by simp [ptr, hkk])]
      obtain ⟨e', he', hrest⟩ := h.lower k' hk' hk0 e he
      exact ⟨e', mem_insertEntry he', hrest⟩

theorem roll_zero (env : Env) (t : SkipList) : t.roll env 0 = (false, t) := if_pos rfl

theorem roll_level (env : Env) (t : SkipList) (k : ℤ) : (t.roll env k).2.level = t.level := by
  unfold roll
  split <;> rfl

theorem roll_maxSkiplistLevel (env : Env) (t : SkipList) (k : ℤ) :
    (t.roll env k).2.maxSkiplistLevel = t.maxSkiplistLevel := by
  unfold roll
  split <;> rfl

structure Inserted (vd : ProcId → ℤ) (p : ProcId) (t : SkipList) (L L' : ℤ → List Entry)
    (k r : ℤ) : Prop where
  low : k ≤ r
  high : r ≤ LEVELS
  put : ∀ k', k ≤ k' → k' < r → ∃ j, t.freeSlot k' (NPROC + 1) 1 = .ok j ∧
    L' k' = enqueue (fun e : Entry ↦ vd e.2) (j, p) (L k')
  kept : ∀ k', k' < k ∨ r ≤ k' → L' k' = L k'

theorem insertLevels_spec (env : Env) (n : ℕ) (k : ℤ) (lower : NodePtr) (h0 : 0 ≤ k) (hn : k + n = LEVELS)
    {pl : ℤ → NodePtr} (h : Rep vd t L)
    (hpl : ∀ k', k ≤ k' → k' < LEVELS → pl k' = .cell k' (predSlot vd (vd p) (L k')))
    (hp : ∀ k', k ≤ k' → k' < LEVELS → p ∉ procs L k') (hbottom : k = 0 → lower = .null)
    (hlower : k ≠ 0 → ∃ e ∈ L (k - 1), e.2 = p ∧ lower = ptr (k - 1) e)
    (hsub : k ≠ 0 → k < LEVELS → (enqueue vd p (procs L k)).Sublist (procs L (k - 1))) :
    ∃ t' L' r, insertLevels env p pl n k lower t = .ok (t', r) ∧ Rep vd t' L' ∧
      Inserted vd p t L L' k r ∧ (k = 0 → 1 ≤ r) ∧ t'.maxSkiplistLevel = t.maxSkiplistLevel ∧
      ∀ k', k' < k ∨ r ≤ k' → ∀ i, t'.level (.cell k' i) = t.level (.cell k' i) := by
  induction n generalizing k t L lower with
  | zero =>
    refine ⟨t, L, k, rfl, h, ⟨le_rfl, by omega, fun k' h1 h2 ↦ by omega, fun _ _ ↦ rfl⟩, ?_, rfl,
      fun _ _ _ ↦ rfl⟩
    have := levels_pos
    omega
  | succ n ih =>
    have hk : InLevels k := ⟨h0, by omega⟩
    have hroll := roll_level env t k
    have hr : Rep vd (t.roll env k).2 L := h.congr_level hroll
    by_cases hstop : (t.roll env k).1 = true
    · refine ⟨(t.roll env k).2, L, k, ?_, hr,
        ⟨le_rfl, by omega, fun k' h1 h2 ↦ by omega, fun _ _ ↦ rfl⟩, ?_,
        roll_maxSkiplistLevel env t k, fun _ _ _ ↦ by rw [hroll]⟩
      · rw [insertLevels]
        exact if_pos hstop
      · rintro rfl
        rw [roll_zero] at hstop
        cases hstop
    · have hpk : p ∉ procs L k := hp k le_rfl hk.2
      obtain ⟨j, hj, hjn, hfree, hslot⟩ := freeSlot_spec hr hk hpk
      obtain ⟨t₁, hlink, hr₁, hsame, hmax⟩ := link_rep hr hk hpk hj hjn hfree hbottom hlower
        (fun hz ↦ hsub hz hk.2)
      have hup (k' : ℤ) (hk' : k' ≠ k) : insertEntry vd L k (j, p) k' = L k' :=
        Function.update_of_ne hk' _ _
      have hdown : k + 1 - 1 = k := by omega
      obtain ⟨t', L', r, he, hrep, hins, -, hmax', hsame'⟩ := ih (k + 1) (.cell k j) (by omega) (by omega) hr₁
        (fun k' h1 h2 ↦ by rw [hup k' (by omega)]; exact hpl k' (by omega) h2)
        (fun k' h1 h2 ↦ by rw [procs, hup k' (by omega)]; exact hp k' (by omega) h2)
        (fun hz ↦ absurd hz (by omega))
        (fun _ ↦ ⟨(j, p), by rw [hdown]; simp [insertEntry], rfl, by rw [hdown]; rfl⟩)
        (fun _ hlt ↦ by
          rw [hdown, procs_insertEntry, procs_insertEntry_of_ne (by omega)]
          have hs := h.sub (k + 1) ⟨by omega, hlt⟩ (by omega)
          rw [hdown] at hs
          exact enqueue_sublist p hs (h.sorted_at hk))
      have hlow := hins.low
      refine ⟨t', L', r, ?_, hrep, ⟨by omega, hins.high, ?_, ?_⟩, by omega, ?_, ?_⟩
      · rw [insertLevels]
        simp only [hstop, Bool.false_eq_true, if_false, hslot, ok_bind]
        rw [hpl k le_rfl hk.2, hlink]
        exact he
      · intro k' h1 h2
        by_cases hkk : k' = k
        · subst hkk
          refine ⟨j, (freeSlot_congr (fun i ↦ by rw [hroll]) _ _).symm.trans hslot, ?_⟩
          rw [hins.kept k' (.inl (by omega)), insertEntry, Function.update_self]
        · obtain ⟨i, hi, hput⟩ := hins.put k' (by omega) h2
          refine ⟨i, ?_, by rw [hput, hup k' hkk]⟩
          rw [← hi]
          exact (freeSlot_congr (fun i ↦ by rw [hsame k' hkk, hroll]) _ _).symm
      · intro k' hk'
        rw [hins.kept k' (by omega), hup k' (by omega)]
      · rw [hmax', hmax, roll_maxSkiplistLevel]
      · intro k' hk' i
        rw [hsame' k' (by omega) i, hsame k' (by omega) i, hroll]

theorem insert_spec (env : Env) (h : Rep vd t L) (hp : p ∉ procs L 0) :
    ∃ t' L' r, insert env vd p t = .ok (t', r) ∧ Rep vd t' L' ∧ 1 ≤ r ∧ Inserted vd p t L L' 0 r ∧
      t'.maxSkiplistLevel = Function.update t.maxSkiplistLevel p r ∧
      ∀ k, r ≤ k → ∀ i, t'.level (.cell k i) = t.level (.cell k i) := by
  obtain ⟨pl, hs, hpl⟩ := searchAll_spec .insertNoLower (vd p) h
  obtain ⟨t', L', r, he, hrep, hins, hpos, hmax, hsame⟩ :=
    insertLevels_spec env LEVELS 0 .null le_rfl (by omega) h
    (fun k' h1 h2 ↦ hpl k' ⟨h1, h2⟩)
    (fun k' h1 h2 hm ↦ hp ((h.sub_bottom ⟨h1, h2⟩).subset hm)) (fun _ ↦ rfl)
    (fun hz ↦ absurd rfl hz) (fun hz ↦ absurd rfl hz)
  refine ⟨{ t' with maxSkiplistLevel := Function.update t'.maxSkiplistLevel p r }, L', r, ?_,
    hrep.congr_level rfl, hpos rfl, hins, ?_, fun k hk i ↦ hsame k (.inr hk) i⟩
  · simp only [insert, hs, ok_bind, he]
  · simp only [hmax]

theorem Inserted.bottom {L' : ℤ → List Entry} {r : ℤ} (h : Rep vd t L)
    (hins : Inserted vd p t L L' 0 r) (hr : 1 ≤ r) :
    L' 0 = enqueue (fun e : Entry ↦ vd e.2) (firstFree ((L 0).map Prod.fst) (NPROC + 1) 1, p) (L 0) := by
  obtain ⟨j, hj, hput⟩ := hins.put 0 le_rfl (by omega)
  rw [hput, freeSlot_firstFree (h.level 0 inLevels_zero) _ _ le_rfl hj]

theorem Inserted.procs_eq {L' : ℤ → List Entry} {r : ℤ} (hins : Inserted vd p t L L' 0 r)
    (hk : 0 ≤ k) : procs L' k = if k < r then enqueue vd p (procs L k) else procs L k := by
  split
  · rename_i hkr
    obtain ⟨j, -, hput⟩ := hins.put k hk hkr
    rw [procs, hput, map_enqueue vd Prod.snd]
    rfl
  · rename_i hkr
    rw [procs, hins.kept k (.inr (by omega)), procs]

end Xv6Bfs.Sched.SkipList

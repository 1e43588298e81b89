import Xv6Bfs.Sched.Insert

namespace Xv6Bfs.Sched.SkipList

open Lib.LinkedChain Lib.Execution Lib.KeyedQueue

variable {vd : ProcId → ℤ} {p : ProcId} {t t' : SkipList} {L : ℤ → List Entry} {k : ℤ}
  {node a : NodePtr}

def unlinkedNode (t : SkipList) (node : NodePtr) : SkipList :=
  let c := t.level node
  let t := t.modify c.prev (fun n ↦ { n with next := c.next })
  let t := if c.next = .null then t else t.modify c.next (fun n ↦ { n with prev := c.prev })
  t.modify node (fun _ ↦ ⟨none, .null, .null, .null⟩)

theorem unlinkNode_eq (hn : node.Valid) (hp : (t.level node).prev.Valid)
    (hpn : (t.level node).prev ≠ node)
    (hx : (t.level node).next ≠ .null → (t.level node).next.Valid)
    (hxn : (t.level node).next ≠ node) :
    t.unlinkNode node = .ok (unlinkedNode t node, (t.level node).lower) := by
  have hp0 : (t.level node).prev ≠ .null := by
    intro h0
    rw [h0] at hp
    exact hp
  simp only [unlinkNode, load_of_valid hn, ok_bind, if_neg hp0, store_of_valid hp, modify_level,
    if_neg hpn.symm, store_of_valid hn, modify_modify, if_true, unlinkedNode]
  by_cases h0 : (t.level node).next = .null
  · simp only [h0, ne_eq, not_true_eq_false, if_false, if_true]
  · simp only [ne_eq, h0, not_false_eq_true, if_true, if_false, store_of_valid (hx h0), ok_bind,
      modify_level, if_neg hpn.symm, if_neg hxn.symm]

theorem unlinkedNode_self : (unlinkedNode t node).level node = ⟨none, .null, .null, .null⟩ := by
  simp [unlinkedNode, modify_level]

theorem unlinkedNode_next (ha : a ≠ node) :
    ((unlinkedNode t node).level a).next =
      if a = (t.level node).prev then (t.level node).next else (t.level a).next := by
  unfold unlinkedNode
  simp only [modify_level, if_neg ha]
  split <;> simp only [modify_level] <;> grind

theorem unlinkedNode_prev (ha : a ≠ node) :
    ((unlinkedNode t node).level a).prev =
      if a = (t.level node).next ∧ a ≠ .null then (t.level node).prev else (t.level a).prev := by
  unfold unlinkedNode
  simp only [modify_level, if_neg ha]
  split <;> simp only [modify_level] <;> grind

theorem unlinkedNode_proc (ha : a ≠ node) :
    ((unlinkedNode t node).level a).proc = (t.level a).proc := by
  unfold unlinkedNode
  simp only [modify_level, if_neg ha]
  split <;> simp only [modify_level] <;> grind

theorem unlinkedNode_lower (ha : a ≠ node) :
    ((unlinkedNode t node).level a).lower = (t.level a).lower := by
  unfold unlinkedNode
  simp only [modify_level, if_neg ha]
  split <;> simp only [modify_level] <;> grind

theorem unlinkedNode_level_ne (hn : a ≠ node) (hp : a ≠ (t.level node).prev)
    (hx : a ≠ (t.level node).next) : (unlinkedNode t node).level a = t.level a := by
  unfold unlinkedNode
  simp only [modify_level, if_neg hn]
  split <;> simp only [modify_level, if_neg hp, if_neg hx]

theorem unlinkedNode_congr (hn : t'.level node = t.level node) (ha : t'.level a = t.level a) :
    (unlinkedNode t' node).level a = (unlinkedNode t node).level a := by
  unfold unlinkedNode
  rw [hn]
  simp only [modify_level]
  split
  · rfl
  · split <;> simp only [modify_level, ha] <;> grind

@[simp] theorem unlinkedNode_maxSkiplistLevel :
    (unlinkedNode t node).maxSkiplistLevel = t.maxSkiplistLevel := by
  unfold unlinkedNode
  simp only [modify_maxSkiplistLevel]
  split <;> rfl

namespace LevelRep

variable {l₁ l₂ : List Entry} {j : ℕ}

variable (h : LevelRep t k (l₁ ++ (j, p) :: l₂))
include h

theorem prev_mid : (t.level (.cell k j)).prev = last k l₁ := by
  have hl := h.linked
  rw [List.map_append, List.map_cons] at hl
  exact hl.prev_eq

theorem next_mid : (t.level (.cell k j)).next = (l₂.map (ptr k)).headD .null := by
  have hl := h.linked
  rw [List.map_append, List.map_cons] at hl
  exact hl.drop.2.2.next_eq

theorem next_mid_cases :
    (t.level (.cell k j)).next = .null ∨ ∃ e ∈ l₂, (t.level (.cell k j)).next = ptr k e := by
  rw [h.next_mid]
  cases l₂ with
  | nil => exact .inl rfl
  | cons e l => exact .inr ⟨e, List.mem_cons_self, rfl⟩

theorem mid_not_mem : 1 ≤ j ∧ j ∉ (l₁ ++ l₂).map Prod.fst := by
  refine ⟨(h.slot (j, p) (by simp)).1, ?_⟩
  have hperm : (l₁ ++ (j, p) :: l₂).Perm ((j, p) :: (l₁ ++ l₂)) := List.perm_middle
  exact (List.nodup_cons.mp ((hperm.map Prod.fst).nodup_iff.mp h.slots_nodup)).1

theorem next_mid_ne : (t.level (.cell k j)).next ≠ .cell k j := by
  rcases h.next_mid_cases with h0 | ⟨e, he, hp⟩
  · rw [h0]; simp
  · rw [hp]; exact ptr_ne h.mid_not_mem.2 (List.mem_append_right l₁ he)

theorem next_mid_ne_head : (t.level (.cell k j)).next ≠ .cell k 0 := by
  rcases h.next_mid_cases with h0 | ⟨e, he, hp⟩
  · rw [h0]; simp
  · rw [hp]
    have hs := (h.slot e (by simp [he])).1
    intro hc
    injection hc
    omega

theorem unlinkNode_ok (hk : InLevels k) :
    t.unlinkNode (.cell k j) = .ok (unlinkedNode t (.cell k j), (t.level (.cell k j)).lower) := by
  refine unlinkNode_eq (h.valid hk (e := (j, p)) (by simp)) ?_ ?_ ?_ h.next_mid_ne
  · rw [h.prev_mid]
    exact h.last_valid hk
  · rw [h.prev_mid]
    exact last_ne h.mid_not_mem.1 h.mid_not_mem.2
  · intro h0
    rcases h.next_mid_cases with hn | ⟨e, he, hp⟩
    · exact absurd hn h0
    · rw [hp]
      exact h.valid hk (by simp [he])

theorem unlink_linked :
    Linked (fun a ↦ ((unlinkedNode t (.cell k j)).level a).next)
      (fun a ↦ ((unlinkedNode t (.cell k j)).level a).prev) .null (.cell k 0)
      ((l₁ ++ l₂).map (ptr k)) := by
  have hl := h.linked
  have hd := h.cells_nodup
  have hlast : last k l₁ ≠ .cell k j := last_ne h.mid_not_mem.1 h.mid_not_mem.2
  rw [List.map_append, List.map_cons] at hl hd
  rw [List.map_append]
  refine hl.erase hd ?_ ?_ ?_ ?_
  · exact (unlinkedNode_next hlast).trans (if_pos h.prev_mid.symm)
  · intro b hb
    rw [mem_head?_ptr, ← h.next_mid] at hb
    rw [unlinkedNode_prev (hb.1 ▸ h.next_mid_ne), if_pos hb]
    exact h.prev_mid
  · intro x hxl hxj
    have hx : x ≠ (t.level (.cell k j)).prev := by
      rw [h.prev_mid]
      exact hxl
    rw [unlinkedNode_next (show x ≠ .cell k j from hxj), if_neg hx]
  · intro x hxj hx
    rw [mem_head?_ptr, ← h.next_mid] at hx
    rw [unlinkedNode_prev (show x ≠ .cell k j from hxj), if_neg hx]

theorem unlink : LevelRep (unlinkedNode t (.cell k j)) k (l₁ ++ l₂) := by
  obtain ⟨hj, hs⟩ := h.mid_not_mem
  have hmem (e : Entry) (he : e ∈ l₁ ++ l₂) : e ∈ l₁ ++ (j, p) :: l₂ := by
    rw [List.mem_append] at he
    simp only [List.mem_append, List.mem_cons]
    tauto
  have h0 : NodePtr.cell k 0 ≠ .cell k j := by
    intro hc
    injection hc
    omega
  constructor
  · rw [unlinkedNode_proc h0]
    exact h.head_proc
  · rw [unlinkedNode_prev h0, if_neg (fun hc ↦ h.next_mid_ne_head hc.1.symm)]
    exact h.head_prev
  · exact h.unlink_linked
  · exact fun e he ↦ h.slot e (hmem e he)
  · intro e he
    rw [unlinkedNode_proc (ptr_ne hs he)]
    exact h.holds e (hmem e he)
  · have hperm : (l₁ ++ (j, p) :: l₂).Perm ((j, p) :: (l₁ ++ l₂)) := List.perm_middle
    exact (List.nodup_cons.mp ((hperm.map Prod.fst).nodup_iff.mp h.slots_nodup)).2
  · intro i h1 h2 hi
    by_cases hij : i = j
    · rw [hij, unlinkedNode_self]
    · rw [unlinkedNode_proc (by simp [hij])]
      apply h.free i h1 h2
      simp only [List.map_append, List.map_cons, List.mem_append, List.mem_cons] at hi ⊢
      tauto

theorem unlink_other {k' : ℤ} (hk : k' ≠ k) (i : ℕ) :
    (unlinkedNode t (.cell k j)).level (.cell k' i) = t.level (.cell k' i) := by
  apply unlinkedNode_level_ne
  · simp [hk]
  · rw [h.prev_mid]
    rcases last_cases k l₁ with h0 | ⟨e, -, hp⟩
    · rw [h0]; simp [hk]
    · rw [hp]; simp [ptr, hk]
  · rcases h.next_mid_cases with h0 | ⟨e, -, hp⟩
    · rw [h0]; simp
    · rw [hp]; simp [ptr, hk]

end LevelRep

def removeEntry (p : ProcId) (L : ℤ → List Entry) (k : ℤ) : ℤ → List Entry :=
  Function.update L k ((L k).filter (fun e ↦ e.2 ≠ p))

theorem mem_removeEntry {j : ℤ} {e : Entry} (he : e ∈ L j) (hp : e.2 ≠ p) :
    e ∈ removeEntry p L k j := by
  by_cases hj : j = k
  · subst hj
    simp [removeEntry, he, hp]
  · rwa [removeEntry, Function.update_of_ne hj]

theorem of_mem_removeEntry {j : ℤ} {e : Entry} (he : e ∈ removeEntry p L k j) : e ∈ L j := by
  by_cases hj : j = k
  · subst hj
    rw [removeEntry, Function.update_self] at he
    exact (List.mem_filter.mp he).1
  · rwa [removeEntry, Function.update_of_ne hj] at he

theorem procs_removeEntry (h : Ordered vd L) (hk : InLevels k) :
    procs (removeEntry p L k) k = (procs L k).erase p := by
  rw [(h.nodup_at hk).erase_eq_filter, procs, removeEntry, Function.update_self, procs,
    List.filter_map]
  congr 1
  exact List.filter_congr (fun e _ ↦ by simp [bne, Bool.beq_eq_decide_eq, decide_not])

theorem procs_removeEntry_of_ne {j : ℤ} (hj : j ≠ k) : procs (removeEntry p L k) j = procs L j := by
  rw [procs, removeEntry, Function.update_of_ne hj, procs]

theorem filter_of_not_mem (hp : p ∉ procs L k) : (L k).filter (fun e ↦ e.2 ≠ p) = L k := by
  refine List.filter_eq_self.mpr (fun e he ↦ ?_)
  have hne : e.2 ≠ p := fun hep ↦ hp (hep ▸ List.mem_map_of_mem he)
  simp [hne]

theorem ordered_removeEntry (h : Ordered vd L) (hk : InLevels k)
    (htop : InLevels (k + 1) → p ∉ procs L (k + 1)) : Ordered vd (removeEntry p L k) := by
  have hsub0 : (procs (removeEntry p L k) 0).Sublist (procs L 0) := by
    by_cases hkk : 0 = k
    · subst hkk
      rw [procs_removeEntry h hk]
      exact List.erase_sublist
    · rw [procs_removeEntry_of_ne hkk]
  refine ⟨fun k' hk' hk0 ↦ ?_, h.nodup.sublist hsub0, h.sorted.sublist hsub0⟩
  by_cases hkk : k' = k
  · subst hkk
    rw [procs_removeEntry h hk, procs_removeEntry_of_ne (by omega)]
    exact List.erase_sublist.trans (h.sub k' hk' hk0)
  · rw [procs_removeEntry_of_ne hkk]
    by_cases hd : k' - 1 = k
    · have hk1 : k' = k + 1 := by omega
      have hs := (h.sub k' hk' hk0).erase p
      rw [hd] at hs ⊢
      rw [procs_removeEntry h hk]
      rwa [List.erase_of_not_mem (hk1 ▸ htop (hk1 ▸ hk'))] at hs
    · rw [procs_removeEntry_of_ne hd]
      exact h.sub k' hk' hk0

theorem unlink_rep {j : ℕ} (h : Rep vd t L) (hk : InLevels k) (he : (j, p) ∈ L k)
    (htop : InLevels (k + 1) → p ∉ procs L (k + 1)) :
    t.unlinkNode (.cell k j) = .ok (unlinkedNode t (.cell k j), (t.level (.cell k j)).lower) ∧
      Rep vd (unlinkedNode t (.cell k j)) (removeEntry p L k) ∧
      ∀ k', k' ≠ k → ∀ i, (unlinkedNode t (.cell k j)).level (.cell k' i) = t.level (.cell k' i) := by
  have hlev := h.level k hk
  obtain ⟨l₁, l₂, hsplit⟩ := List.append_of_mem he
  rw [hsplit] at hlev
  have hnodup : (l₁ ++ (j, p) :: l₂).map Prod.snd |>.Nodup := by
    rw [← hsplit]
    exact h.nodup_at hk
  have hfilter : (L k).filter (fun e ↦ e.2 ≠ p) = l₁ ++ l₂ := by
    rw [List.map_append, List.map_cons, List.nodup_middle, List.nodup_cons, ← List.map_append] at hnodup
    have hall : ∀ e ∈ l₁ ++ l₂, e.2 ≠ p := fun e he hp ↦ hnodup.1 (List.mem_map.mpr ⟨e, he, hp⟩)
    rw [hsplit, List.filter_append, List.filter_cons_of_neg (by simp),
      List.filter_eq_self.mpr (fun e he ↦ by simpa using hall e (List.mem_append_left l₂ he)),
      List.filter_eq_self.mpr (fun e he ↦ by simpa using hall e (List.mem_append_right l₁ he))]
  have hslot : ∀ e ∈ removeEntry p L k k, ptr k e ≠ .cell k j := by
    rw [removeEntry, Function.update_self, hfilter]
    exact fun e he ↦ LevelRep.ptr_ne hlev.mid_not_mem.2 he
  refine ⟨hlev.unlinkNode_ok hk, { ordered_removeEntry h.toOrdered hk htop with
    level := ?_, bottom := ?_, lower := ?_ }, fun k' hk' i ↦ hlev.unlink_other hk' i⟩
  · intro k' hk'
    by_cases hkk : k' = k
    · subst hkk
      rw [removeEntry, Function.update_self, hfilter]
      exact hlev.unlink
    · rw [removeEntry, Function.update_of_ne hkk]
      exact (h.level k' hk').congr (fun i ↦ hlev.unlink_other hkk i)
  · intro e he
    have hne : ptr 0 e ≠ .cell k j := by
      by_cases hkk : k = 0
      · subst hkk
        exact hslot e he
      · simp [ptr, Ne.symm hkk]
    rw [unlinkedNode_lower hne]
    exact h.bottom e (of_mem_removeEntry he)
  · intro k' hk' hk0 e he
    have hne : ptr k' e ≠ .cell k j := by
      by_cases hkk : k' = k
      · subst hkk
        exact hslot e he
      · simp [ptr, hkk]
    obtain ⟨e', he', hep, hlow⟩ := h.lower k' hk' hk0 e (of_mem_removeEntry he)
    rw [unlinkedNode_lower hne]
    by_cases hd : k' - 1 = k
    · have hk1 : k' = k + 1 := by omega
      have hpe : e.2 ≠ p := by
        rintro rfl
        refine htop (hk1 ▸ hk') (hk1 ▸ ?_)
        exact List.mem_map_of_mem (of_mem_removeEntry he)
      exact ⟨e', mem_removeEntry he' (hep ▸ hpe), hep, hlow⟩
    · refine ⟨e', ?_, hep, hlow⟩
      rwa [removeEntry, Function.update_of_ne hd]

def Unlinked (p : ProcId) (t : SkipList) (L : ℤ → List Entry) (t' : SkipList) : Prop :=
  ∀ k, InLevels k →
    (p ∉ procs L k → ∀ i, t'.level (.cell k i) = t.level (.cell k i)) ∧
    ∀ j, (j, p) ∈ L k → ∀ i, t'.level (.cell k i) = (unlinkedNode t (.cell k j)).level (.cell k i)

theorem not_mem_removeEntry (h : Ordered vd L) (hk : InLevels k) :
    p ∉ procs (removeEntry p L k) k := by
  rw [procs_removeEntry h hk]
  exact (h.nodup_at hk).not_mem_erase

theorem not_mem_above_removeEntry (h : Ordered vd L)
    (htop : ∀ k', k < k' → InLevels k' → p ∉ procs L k') {k' : ℤ} (hk : k ≤ k') (hk' : InLevels k') :
    p ∉ procs (removeEntry p L k) k' := by
  by_cases hkk : k' = k
  · subst hkk
    exact not_mem_removeEntry h hk'
  · rw [procs_removeEntry_of_ne hkk]
    exact htop k' (by omega) hk'

theorem Unlinked.turn {j : ℕ} (h : Rep vd t L) (hk : InLevels k) (he : (j, p) ∈ L k)
    (hother : ∀ k', k' ≠ k → ∀ i,
      (unlinkedNode t (.cell k j)).level (.cell k' i) = t.level (.cell k' i))
    (hu : Unlinked p (unlinkedNode t (.cell k j)) (removeEntry p L k) t') : Unlinked p t L t' := by
  intro k' hk'
  obtain ⟨hout, hin⟩ := hu k' hk'
  by_cases hkk : k' = k
  · subst hkk
    refine ⟨fun hp ↦ absurd (List.mem_map_of_mem he) hp, fun j' he' i ↦ ?_⟩
    have hj : (j', p) = (j, p) := List.inj_on_of_nodup_map (h.nodup_at hk) he' he rfl
    injection hj with hj
    rw [hj]
    exact hout (not_mem_removeEntry h.toOrdered hk) i
  · rw [procs_removeEntry_of_ne hkk] at hout
    rw [removeEntry, Function.update_of_ne hkk] at hin
    refine ⟨fun hp i ↦ (hout hp i).trans (hother k' hkk i), fun j' he' i ↦ ?_⟩
    exact (hin j' he' i).trans (unlinkedNode_congr (hother k' hkk j') (hother k' hkk i))

theorem unlink_spec (n : ℕ) (hn : InLevels n) (fuel : ℕ) (hf : n < fuel) (h : Rep vd t L) {j : ℕ}
    (he : (j, p) ∈ L n) (htop : ∀ k' : ℤ, n < k' → InLevels k' → p ∉ procs L k') :
    ∃ t' L', unlink fuel t (.cell n j) = .ok t' ∧ Rep vd t' L' ∧
      (∀ k, InLevels k → L' k = (L k).filter (fun e ↦ e.2 ≠ p)) ∧
      t'.maxSkiplistLevel = t.maxSkiplistLevel ∧ Unlinked p t L t' := by
  induction n generalizing fuel t L j with
  | zero =>
    obtain ⟨fuel, rfl⟩ : ∃ f, fuel = f + 1 := ⟨fuel - 1, by omega⟩
    obtain ⟨hok, hrep, hother⟩ := unlink_rep h hn he (htop _ (by omega))
    refine ⟨_, _, ?_, hrep, fun k hk ↦ ?_, unlinkedNode_maxSkiplistLevel,
      .turn h hn he hother (fun k hk ↦ ⟨fun _ _ ↦ rfl, fun j' hj' ↦ ?_⟩)⟩
    · have hlow : (t.level (.cell (0 : ℕ) j)).lower = .null := h.bottom (j, p) he
      rw [unlink, hok]
      simp only [ok_bind, hlow, if_true]
    · by_cases hk0 : k = (0 : ℕ)
      · subst hk0
        rw [removeEntry, Function.update_self]
      · have := hk.1
        rw [removeEntry, Function.update_of_ne hk0, filter_of_not_mem (htop k (by omega) hk)]
    · exact absurd (List.mem_map_of_mem hj') (not_mem_above_removeEntry h.toOrdered htop hk.1 hk)
  | succ n ih =>
    obtain ⟨fuel, rfl⟩ : ∃ f, fuel = f + 1 := ⟨fuel - 1, by omega⟩
    obtain ⟨hok, hrep, hother⟩ := unlink_rep h hn he (htop _ (by omega))
    obtain ⟨e', he', hep, hlow⟩ := h.lower _ hn (by omega) _ he
    have hdown : ((n + 1 : ℕ) : ℤ) - 1 = n := by omega
    rw [hdown] at he' hlow
    have hn' : InLevels n := by
      unfold InLevels at *
      omega
    have he₁ : (e'.1, p) ∈ removeEntry p L (n + 1 : ℕ) n := by
      rw [removeEntry, Function.update_of_ne (by omega)]
      rw [← (show e'.2 = p from hep)]
      exact he'
    obtain ⟨t', L', hu, hrep', hprocs, hmax, hcells⟩ := ih hn' fuel (by omega) hrep he₁
      (fun k' hk' hin ↦ not_mem_above_removeEntry h.toOrdered htop (by omega) hin)
    refine ⟨t', L', ?_, hrep', fun k hk ↦ ?_, hmax.trans unlinkedNode_maxSkiplistLevel,
      .turn h hn he hother hcells⟩
    · have hnull : ptr n e' ≠ .null := by simp [ptr]
      have hlow' : (t.level (.cell (n + 1 : ℕ) j)).lower = ptr n e' := hlow
      rw [unlink, hok]
      simp only [ok_bind, hlow', if_neg hnull]
      exact hu
    · rw [hprocs k hk]
      by_cases hkk : k = (n + 1 : ℕ)
      · subst hkk
        rw [removeEntry, Function.update_self, List.filter_filter]
        simp
      · rw [removeEntry, Function.update_of_ne hkk]

theorem forward_found {l₁ l₂ : List Entry} {j fuel : ℕ}
    (ha : a.Valid) (hap : (t.level a).proc ≠ some p)
    (hl : Linked (fun a ↦ (t.level a).next) (fun a ↦ (t.level a).prev) .null a
      ((l₁ ++ (j, p) :: l₂).map (ptr k))) (hv : ∀ e ∈ l₁ ++ (j, p) :: l₂, (ptr k e).Valid)
    (hh : ∀ e ∈ l₁ ++ (j, p) :: l₂, (t.level (ptr k e)).proc = some e.2)
    (heq : ∀ e ∈ l₁, vd e.2 = vd p ∧ e.2 ≠ p) (hf : l₁.length + 1 < fuel) :
    forward vd p (vd p) t fuel a = .ok (.cell k j) := by
  induction l₁ generalizing a fuel with
  | nil =>
    obtain ⟨fuel, rfl⟩ : ∃ f, fuel = f + 1 + 1 := ⟨fuel - 2, by simp at hf; omega⟩
    have htest := nextTest_linked vd (· = vd p) hl hv hh
    have hnext : (t.level a).next = .cell k j := hl.1
    have htest' := nextTest_linked vd (· = vd p) hl.2.2 (fun e he ↦ hv e (by simp at he ⊢; tauto))
      (fun e he ↦ hh e (by simp at he ⊢; tauto))
    have hproc : (t.level (.cell k j)).proc = some p := hh (j, p) (by simp)
    have hvj : (NodePtr.cell k j).Valid := hv (j, p) (by simp)
    simp only [List.nil_append, List.head?_cons, Option.map_some, Option.getD_some] at htest
    rw [forward, load_of_valid ha]
    simp only [ok_bind, htest, decide_true, ne_eq, hap, not_false_eq_true, and_self, if_true, hnext]
    rw [forward, load_of_valid hvj]
    simp only [ptr] at htest'
    simp only [ok_bind, htest', hproc, ne_eq, not_true_eq_false, and_false, if_false]
  | cons e l₁ ih =>
    obtain ⟨fuel, rfl⟩ : ∃ f, fuel = f + 1 := ⟨fuel - 1, by simp at hf; omega⟩
    obtain ⟨hed, hep⟩ := heq e List.mem_cons_self
    have htest := nextTest_linked vd (· = vd p) hl hv hh
    have hnext : (t.level a).next = ptr k e := hl.1
    simp only [List.cons_append, List.head?_cons, Option.map_some, Option.getD_some, hed] at htest
    rw [forward, load_of_valid ha]
    simp only [ok_bind, htest, decide_true, ne_eq, hap, not_false_eq_true, and_self, if_true, hnext]
    have hproc : (t.level (ptr k e)).proc = some e.2 := hh e (by simp)
    refine ih (hv e (by simp)) (by simp [hproc, hep]) hl.2.2
      (fun x hx ↦ hv x (List.mem_cons_of_mem e hx)) (fun x hx ↦ hh x (List.mem_cons_of_mem e hx))
      (fun x hx ↦ heq x (List.mem_cons_of_mem e hx)) (by simpa using hf)

theorem forward_absent {l : List Entry} {j fuel : ℕ} (ha : (NodePtr.cell k j).Valid)
    (hap : (t.level (.cell k j)).proc ≠ some p)
    (hl : Linked (fun a ↦ (t.level a).next) (fun a ↦ (t.level a).prev) .null (.cell k j)
      (l.map (ptr k)))
    (hv : ∀ e ∈ l, (ptr k e).Valid) (hh : ∀ e ∈ l, (t.level (ptr k e)).proc = some e.2)
    (hne : ∀ e ∈ l, e.2 ≠ p) (hf : l.length < fuel) :
    ∃ i, forward vd p (vd p) t fuel (.cell k j) = .ok (.cell k i) ∧ (NodePtr.cell k i).Valid ∧
      (t.level (.cell k i)).proc ≠ some p := by
  induction l generalizing j fuel with
  | nil =>
    obtain ⟨fuel, rfl⟩ : ∃ f, fuel = f + 1 := ⟨fuel - 1, by simp at hf; omega⟩
    have htest := nextTest_linked vd (· = vd p) hl hv hh
    refine ⟨j, ?_, ha, hap⟩
    rw [forward, load_of_valid ha]
    simp only [ok_bind, htest]
    simp
  | cons e l ih =>
    obtain ⟨fuel, rfl⟩ : ∃ f, fuel = f + 1 := ⟨fuel - 1, by omega⟩
    have htest := nextTest_linked vd (· = vd p) hl hv hh
    have hnext : (t.level (.cell k j)).next = ptr k e := hl.1
    have hproc : (t.level (.cell k e.1)).proc = some e.2 := hh e (by simp)
    simp only [List.head?_cons, Option.map_some, Option.getD_some] at htest
    by_cases hd : vd e.2 = vd p
    · obtain ⟨b, hb, hbv, hbp⟩ := ih (hv e (by simp))
        (by simpa [hproc] using hne e (by simp)) hl.2.2
        (fun x hx ↦ hv x (List.mem_cons_of_mem e hx)) (fun x hx ↦ hh x (List.mem_cons_of_mem e hx))
        (fun x hx ↦ hne x (List.mem_cons_of_mem e hx)) (by simpa using hf)
      refine ⟨b, ?_, hbv, hbp⟩
      rw [forward, load_of_valid ha]
      simp only [ok_bind, htest, hd, decide_true, ne_eq, hap, not_false_eq_true, and_self, if_true,
        hnext]
      exact hb
    · refine ⟨j, ?_, ha, hap⟩
      rw [forward, load_of_valid ha]
      simp only [ok_bind, htest, hd, decide_false, Bool.false_eq_true, false_and, if_false]

theorem pred_proc_ne (h : Rep vd t L) (hk : InLevels k) :
    (t.level (.cell k (predSlot vd (vd p) (L k)))).proc ≠ some p := by
  rcases predSlot_cases vd (vd p) (L k) with h0 | ⟨e, he, hj, hlt⟩
  · simp [h0, (h.level k hk).head_proc]
  · have hproc : (t.level (.cell k e.1)).proc = some e.2 := (h.level k hk).holds e he
    rw [← hj, hproc]
    rintro ⟨⟩
    exact lt_irrefl _ hlt

theorem rest_split (h : Rep vd t L) (hk : InLevels k) {j : ℕ} (he : (j, p) ∈ L k) :
    ∃ l₁ l₂, (L k).dropWhile (fun e ↦ goesBefore (vd e.2) (vd p)) = l₁ ++ (j, p) :: l₂ ∧
      ∀ e ∈ l₁, vd e.2 = vd p ∧ e.2 ≠ p := by
  have hs := h.sorted_at hk
  have hd := h.nodup_at hk
  rw [procs, List.pairwise_map] at hs
  have hge : ∀ e ∈ (L k).dropWhile (fun e ↦ vd e.2 < vd p), vd p ≤ vd e.2 :=
    dropWhile_ge hs (j, p)
  have hmem : (j, p) ∈ (L k).dropWhile (fun e ↦ goesBefore (vd e.2) (vd p)) := by
    rw [← before_append vd (vd p) (L k)] at he
    rcases List.mem_append.mp he with he | he
    · exact absurd (mem_before_lt he) (lt_irrefl _)
    · exact he
  obtain ⟨l₁, l₂, hsplit⟩ := List.append_of_mem hmem
  have hsub : (l₁ ++ (j, p) :: l₂).Sublist (L k) := hsplit ▸ List.dropWhile_sublist _
  refine ⟨l₁, l₂, hsplit, fun e hel ↦ ⟨le_antisymm ?_ ?_, ?_⟩⟩
  · exact (List.pairwise_append.mp (hs.sublist hsub)).2.2 e hel (j, p) List.mem_cons_self
  · refine hge e (?_ : e ∈ (L k).dropWhile (fun e ↦ goesBefore (vd e.2) (vd p)))
    rw [hsplit]
    exact List.mem_append_left _ hel
  · have hnd := hd.sublist (hsub.map Prod.snd)
    rw [List.map_append, List.nodup_append] at hnd
    exact hnd.2.2 e.2 (List.mem_map_of_mem hel) p (by simp)

theorem forward_pred (h : Rep vd t L) (hk : InLevels k) :
    ∃ j, forward vd p (vd p) t (NPROC + 1) (.cell k (predSlot vd (vd p) (L k))) = .ok (.cell k j) ∧
      (NodePtr.cell k j).Valid ∧
      (((j, p) ∈ L k ∧ (t.level (.cell k j)).proc = some p) ∨
        (p ∉ procs L k ∧ (t.level (.cell k j)).proc ≠ some p)) := by
  have hlink := pred_linked (d := vd p) h hk
  have hsub : ∀ e ∈ (L k).dropWhile (fun e ↦ goesBefore (vd e.2) (vd p)), e ∈ L k :=
    fun e he ↦ (List.dropWhile_sublist _).subset he
  have hlen : ((L k).dropWhile (fun e ↦ goesBefore (vd e.2) (vd p))).length < NPROC + 1 :=
    Nat.lt_succ_of_le ((List.dropWhile_sublist _).length_le.trans (h.length_le hk))
  by_cases hp : p ∈ procs L k
  · obtain ⟨⟨j, q⟩, he, rfl⟩ := List.mem_map.mp hp
    obtain ⟨l₁, l₂, hsplit, heq⟩ := rest_split h hk he
    rw [hsplit] at hlink hsub hlen
    refine ⟨j, ?_, h.valid hk he, .inl ⟨he, (h.level k hk).holds _ he⟩⟩
    refine forward_found (pred_valid h hk) (pred_proc_ne h hk) hlink
      (fun e he ↦ h.valid hk (hsub e he)) (fun e he ↦ (h.level k hk).holds e (hsub e he)) heq ?_
    simp at hlen
    omega
  · obtain ⟨j, hf, hv, hne⟩ := forward_absent (pred_valid h hk) (pred_proc_ne h hk) hlink
      (fun e he ↦ h.valid hk (hsub e he)) (fun e he ↦ (h.level k hk).holds e (hsub e he))
      (fun e he hep ↦ hp (hep ▸ List.mem_map_of_mem (hsub e he))) hlen
    exact ⟨j, hf, hv, .inr ⟨hp, hne⟩⟩

theorem findTop_spec {env : Env} {pl : ℤ → NodePtr} (h : Rep vd t L) (hp : p ∈ procs L 0)
    (hpl : ∀ k, InLevels k → pl k = .cell k (predSlot vd (vd p) (L k))) (n : ℕ) (hn : n ≤ LEVELS)
    (htop : ∀ k : ℤ, n ≤ k → InLevels k → p ∉ procs L k) {q : Option ProcId}
    (ha : t.procOf env a = .ok q) (hq : q ≠ some p) (fuel : ℕ) (hf : n < fuel) :
    ∃ (m j : ℕ), t.findTop env vd p (vd p) pl fuel (n - 1) a = .ok (.cell m j) ∧ InLevels m ∧
      (j, p) ∈ L m ∧ ∀ k : ℤ, m < k → InLevels k → p ∉ procs L k := by
  induction n generalizing a q fuel with
  | zero => exact absurd hp (htop 0 le_rfl inLevels_zero)
  | succ n ih =>
    obtain ⟨fuel, rfl⟩ : ∃ f, fuel = f + 1 := ⟨fuel - 1, by omega⟩
    have hk : InLevels n := ⟨by omega, by omega⟩
    have hdown : ((n + 1 : ℕ) : ℤ) - 1 = n := by omega
    obtain ⟨j, hfwd, hv, hcase⟩ := forward_pred (p := p) h hk
    rw [hdown, findTop, ha]
    simp only [ok_bind, if_neg hq, if_neg (show ¬ (n : ℤ) < 0 by omega), hpl n hk, hfwd]
    rcases hcase with ⟨he, hproc⟩ | ⟨hout, hproc⟩
    · obtain ⟨fuel, rfl⟩ : ∃ f, fuel = f + 1 := ⟨fuel - 1, by omega⟩
      refine ⟨n, j, ?_, hk, he, fun k hnk ↦ htop k (by omega)⟩
      rw [findTop, procOf_of_valid hv]
      simp only [ok_bind, hproc, if_true]
    · refine ih (by omega) (fun k hnk hin ↦ ?_) (procOf_of_valid hv) hproc fuel (by omega)
      by_cases hkn : k = n
      · rwa [hkn]
      · exact htop k (by omega) hin

def searchEnd (vd : ProcId → ℤ) (d : ℤ) (L : ℤ → List Entry) : NodePtr :=
  if predSlot vd d (L 0) = 0 then .cell (-1) 0 else .null

theorem searchEnd_cases (vd : ProcId → ℤ) (d : ℤ) (L : ℤ → List Entry) :
    searchEnd vd d L = .cell (-1) 0 ∨ searchEnd vd d L = .null := by
  unfold searchEnd
  split
  · exact .inl rfl
  · exact .inr rfl

theorem searchEnd_not_valid (vd : ProcId → ℤ) (d : ℤ) (L : ℤ → List Entry) :
    ¬ (searchEnd vd d L).Valid := by
  rcases searchEnd_cases vd d L with h | h <;> rw [h] <;> decide

def deleteStart (env : Env) (vd : ProcId → ℤ) (p : ProcId) (t : SkipList) : Except Stop NodePtr := do
  let (curr, placement) ← t.searchAll .deleteNoLower vd (vd p)
  t.findTop env vd p (vd p) placement (LEVELS + 1) (LEVELS - 1) curr

theorem delete_eq_bind (env : Env) (vd : ProcId → ℤ) (p : ProcId) (t : SkipList) :
    t.delete env vd p = (do
      let curr ← t.deleteStart env vd p
      let t ← unlink (LEVELS + 1) t curr
      .ok ({ t with maxSkiplistLevel := Function.update t.maxSkiplistLevel p (-1) },
        t.maxSkiplistLevel p)) := by
  unfold delete deleteStart
  cases t.searchAll .deleteNoLower vd (vd p) <;> rfl

theorem delete_spec {env : Env} {q : Option ProcId} (h : Rep vd t L) (hp : p ∈ procs L 0)
    (hw : env.wild = some q) (hq : q ≠ some p) :
    ∃ t' L', t.delete env vd p = .ok (t', t.maxSkiplistLevel p) ∧ Rep vd t' L' ∧
      (∀ k, InLevels k → L' k = (L k).filter (fun e ↦ e.2 ≠ p)) ∧
      t'.maxSkiplistLevel = Function.update t.maxSkiplistLevel p (-1) ∧ Unlinked p t L t' ∧
      ∃ m j, t.deleteStart env vd p = .ok (.cell m j) ∧ InLevels m ∧ (j, p) ∈ L m ∧
        ∀ k, m < k → InLevels k → p ∉ procs L k := by
  obtain ⟨pl, hsearch, hpl⟩ := searchAll_spec .deleteNoLower (vd p) h
  have hend : t.procOf env (searchEnd vd (vd p) L) = .ok q := by
    rw [procOf, if_neg (searchEnd_not_valid vd (vd p) L), hw]
  obtain ⟨m, j, hfind, hm, he, htop⟩ := findTop_spec h hp hpl LEVELS le_rfl
    (fun k hk hin ↦ absurd hin.2 (by omega)) hend hq (LEVELS + 1) (by omega)
  have hmf : m < LEVELS + 1 := by
    have := hm.2
    omega
  obtain ⟨t', L', hu, hrep, hprocs, hmax, hcells⟩ := unlink_spec m hm (LEVELS + 1) hmf h he htop
  rw [searchEnd] at hfind
  have hstart : t.deleteStart env vd p = .ok (.cell m j) := by
    simp only [deleteStart, hsearch, ok_bind, hfind]
  refine ⟨{ t' with maxSkiplistLevel := Function.update t.maxSkiplistLevel p (-1) }, L', ?_,
    hrep.congr_level rfl, hprocs, rfl, hcells, m, j, hstart, hm, he, htop⟩
  simp only [delete_eq_bind, hstart, ok_bind, hu, hmax]

theorem delete_fault {env : Env} (h : Rep vd t L)
    (hw : env.wild = none ∨ env.wild = some (some p)) :
    t.delete env vd p = .error (.fault (searchEnd vd (vd p) L)) := by
  obtain ⟨pl, hsearch, -⟩ := searchAll_spec .deleteNoLower (vd p) h
  have hv := searchEnd_not_valid vd (vd p) L
  rw [searchEnd] at hv
  rw [searchEnd]
  rcases hw with hw | hw
  · simp only [delete, hsearch, ok_bind, findTop, procOf, if_neg hv, hw, error_bind]
  · simp only [delete, hsearch, ok_bind, findTop, procOf, if_neg hv, hw, if_true, unlink,
      unlinkNode, load, error_bind]

/-- Where a read outside the array traps, `delete` never comes to its end. -/
theorem delete_leaves_array {env : Env} (h : Rep vd t L) (p : ProcId) (hw : env.wild = none) :
    ∃ a, t.delete env vd p = .error (.fault a) ∧ ¬ a.Valid :=
  ⟨_, delete_fault h (.inl hw), searchEnd_not_valid vd (vd p) L⟩

theorem delete_leaves_array_single : ∃ t L, Rep (fun _ ↦ 1) t L ∧ 0 ∈ procs L 0 ∧
    ∃ a, t.delete ⟨none, random⟩ (fun _ ↦ 1) 0 = .error (.fault a) ∧ ¬ a.Valid := by
  obtain ⟨t, L, r, -, hrep, hr, hins, -⟩ := insert_spec ⟨none, random⟩
    (pinit_rep (fun _ ↦ 1) SEED) (p := 0) (by simp [procs])
  have hp : 0 ∈ procs L 0 := by simp [procs, hins.bottom (pinit_rep _ SEED) hr, enqueue]
  exact ⟨t, L, hrep, hp, delete_leaves_array hrep 0 rfl⟩

/-- With one queued process the search ends at `&level[-1][0]`. -/
theorem delete_below_level_zero : ∃ t L, Rep (fun _ ↦ 1) t L ∧ 0 ∈ procs L 0 ∧
    t.delete ⟨none, random⟩ (fun _ ↦ 1) 0 = .error (.fault (.cell (-1) 0)) ∧
    ¬ (NodePtr.cell (-1) 0).Valid := by
  obtain ⟨t, L, r, hok, hrep, hr, hins, -⟩ := insert_spec ⟨none, random⟩
    (pinit_rep (fun _ ↦ 1) SEED) (p := 0) (by simp [procs])
  refine ⟨t, L, hrep, ?_, ?_, by decide⟩
  · simp [procs, hins.bottom (pinit_rep _ SEED) hr, enqueue]
  · have hrun : ((insert ⟨none, random⟩ (fun _ ↦ 1) 0 (bss SEED).pinit >>= fun r ↦
        (r.1.delete ⟨none, random⟩ (fun _ ↦ 1) 0).map Prod.snd) =
          .error (.fault (.cell (-1) 0))) := by decide +kernel
    rw [hok, ok_bind] at hrun
    cases hdel : t.delete ⟨none, random⟩ (fun _ ↦ 1) 0 with
    | ok r =>
      rw [hdel] at hrun
      cases hrun
    | error e =>
      rw [hdel] at hrun
      injection hrun with he
      rw [he]

end Xv6Bfs.Sched.SkipList

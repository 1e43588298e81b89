import Mathlib.Data.List.Basic
import Mathlib.Data.List.Pairwise
import Mathlib.Logic.Function.Basic

namespace Xv6Bfs.Lib.SlotMap

open Function

variable {α K V : Type} (binding : α → Option (K × V))

/-- No two slots bind the same key. A slot that is not empty binds a key to a value. -/
def Distinct (l : List α) : Prop :=
  l.Pairwise fun a b ↦ ∀ x y, binding a = some x → binding b = some y → x.1 ≠ y.1

def lookup [DecidableEq K] (l : List α) (k : K) : Option V :=
  l.findSome? fun a ↦ (binding a).bind fun b ↦ if b.1 = k then some b.2 else none

variable {binding} {l l₁ l₂ : List α} {a b : α} {k : K} {v : V}

namespace Distinct

theorem skip (h : Distinct binding (l₁ ++ a :: l₂)) : Distinct binding (l₁ ++ l₂) :=
  h.sublist (List.Sublist.append_left (List.sublist_cons_self a l₂) l₁)

theorem blank (h : Distinct binding (l₁ ++ l₂)) (ha : binding a = none) :
    Distinct binding (l₁ ++ a :: l₂) := by
  obtain ⟨h₁, h₂, h₁₂⟩ := List.pairwise_append.mp h
  refine List.pairwise_append.mpr ⟨h₁, List.pairwise_cons.mpr ⟨?_, h₂⟩, ?_⟩
  · intro b _ x y hx
    rw [ha] at hx
    cases hx
  · intro b hb c hc x y hx hy
    rcases List.mem_cons.mp hc with rfl | hc
    · rw [ha] at hy
      cases hy
    · exact h₁₂ b hb c hc x y hx hy

end Distinct

variable [DecidableEq K]

theorem lookup_eq_none :
    lookup binding l k = none ↔ ∀ a ∈ l, ∀ x, binding a = some x → x.1 ≠ k := by
  unfold lookup
  rw [List.findSome?_eq_none_iff]
  refine forall₂_congr fun a _ ↦ ?_
  cases binding a <;> simp

theorem lookup_append :
    lookup binding (l₁ ++ l₂) k = (lookup binding l₁ k).or (lookup binding l₂ k) :=
  List.findSome?_append

theorem lookup_cons_of_none (ha : binding a = none) :
    lookup binding (a :: l) k = lookup binding l k := by
  simp [lookup, ha]

theorem lookup_cons_of_some (ha : binding a = some (k, v)) (k' : K) :
    lookup binding (a :: l) k' = if k = k' then some v else lookup binding l k' := by
  by_cases hk : k = k' <;> simp [lookup, ha, hk]

theorem lookup_skip (ha : binding a = none) :
    lookup binding (l₁ ++ a :: l₂) = lookup binding (l₁ ++ l₂) := by
  funext k
  rw [lookup_append, lookup_cons_of_none ha, lookup_append]

namespace Distinct

theorem lookup_rest (h : Distinct binding (l₁ ++ a :: l₂)) (ha : binding a = some (k, v)) :
    lookup binding (l₁ ++ l₂) k = none := by
  obtain ⟨-, h₂, h₁₂⟩ := List.pairwise_append.mp h
  rw [lookup_eq_none]
  intro b hb x hx
  rcases List.mem_append.mp hb with hb | hb
  · exact h₁₂ b hb a (.head _) x (k, v) hx ha
  · exact ((List.pairwise_cons.mp h₂).1 b hb (k, v) x ha hx).symm

theorem lookup_insert (h : Distinct binding (l₁ ++ a :: l₂)) (ha : binding a = some (k, v)) :
    lookup binding (l₁ ++ a :: l₂) = update (lookup binding (l₁ ++ l₂)) k (some v) := by
  have hrest := h.lookup_rest ha
  rw [lookup_append, Option.or_eq_none_iff] at hrest
  funext k'
  rw [lookup_append, lookup_cons_of_some ha]
  rcases eq_or_ne k' k with rfl | hk
  · rw [hrest.1, update_self, if_pos rfl, Option.none_or]
  · rw [update_of_ne hk, if_neg hk.symm, lookup_append]

theorem lookup_of_mem (h : Distinct binding l) (hmem : a ∈ l) (ha : binding a = some (k, v)) :
    lookup binding l k = some v := by
  obtain ⟨l₁, l₂, rfl⟩ := List.append_of_mem hmem
  rw [h.lookup_insert ha, update_self]

theorem fill (h : Distinct binding (l₁ ++ l₂)) (ha : binding a = some (k, v))
    (hk : lookup binding (l₁ ++ l₂) k = none) : Distinct binding (l₁ ++ a :: l₂) := by
  rw [lookup_eq_none] at hk
  obtain ⟨h₁, h₂, h₁₂⟩ := List.pairwise_append.mp h
  refine List.pairwise_append.mpr ⟨h₁, List.pairwise_cons.mpr ⟨?_, h₂⟩, ?_⟩
  · intro b hb x y hx hy
    cases ha.symm.trans hx
    exact (hk b (List.mem_append_right _ hb) y hy).symm
  · intro b hb c hc x y hx hy
    rcases List.mem_cons.mp hc with rfl | hc
    · cases ha.symm.trans hy
      exact hk b (List.mem_append_left _ hb) x hx
    · exact h₁₂ b hb c hc x y hx hy

end Distinct

theorem replace_hole (h : Distinct binding (l₁ ++ b :: l₂)) (hb : binding b = none)
    (ha : binding a = some (k, v)) (hk : lookup binding (l₁ ++ b :: l₂) k = none) :
    Distinct binding (l₁ ++ a :: l₂) ∧
      lookup binding (l₁ ++ a :: l₂) = update (lookup binding (l₁ ++ b :: l₂)) k (some v) := by
  rw [lookup_skip hb] at hk ⊢
  have hfill := h.skip.fill ha hk
  exact ⟨hfill, hfill.lookup_insert ha⟩

theorem clear_slot (h : Distinct binding (l₁ ++ b :: l₂)) (hb : binding b = some (k, v))
    (ha : binding a = none) :
    Distinct binding (l₁ ++ a :: l₂) ∧
      lookup binding (l₁ ++ a :: l₂) = update (lookup binding (l₁ ++ b :: l₂)) k none := by
  refine ⟨h.skip.blank ha, ?_⟩
  rw [lookup_skip ha, h.lookup_insert hb, update_idem, ← h.lookup_rest hb, update_eq_self]

end Xv6Bfs.Lib.SlotMap

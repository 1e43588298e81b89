import Mathlib.Data.Set.Basic
import Mathlib.Logic.Basic

namespace Xv6Bfs.Lib.Ownership

variable {α β : Type} {pool : Set α} {free free' : α → Prop} {own own' : β → Option α} {a : α} {x y : β}

/-- Every resource of the pool is free or has exactly one owner, and there are no others. -/
structure Partition (pool : Set α) (free : α → Prop) (own : β → Option α) : Prop where
  mem : ∀ x a, own x = some a → a ∈ pool
  inj : ∀ x y a, own x = some a → own y = some a → x = y
  free_iff : ∀ a ∈ pool, free a ↔ ∀ x, own x ≠ some a

namespace Partition

variable (h : Partition pool free own)
include h

theorem not_free (hx : own x = some a) : ¬ free a := fun hf ↦
  (h.free_iff a (h.mem x a hx)).mp hf x hx

theorem exists_owner (ha : a ∈ pool) (hf : ¬ free a) : ∃ x, own x = some a := by
  by_contra hno
  exact hf ((h.free_iff a ha).mpr fun x hx ↦ hno ⟨x, hx⟩)

theorem congr (hfree : ∀ c ∈ pool, free' c ↔ free c)
    (hown : ∀ x, own' x = own x) : Partition pool free' own' := by
  obtain rfl : own' = own := funext hown
  exact ⟨h.mem, h.inj, fun a ha ↦ (hfree a ha).trans (h.free_iff a ha)⟩

theorem give (ha : a ∈ pool) (hf : free a) (hx : own x = none)
    (hfree : ∀ c ∈ pool, free' c ↔ free c ∧ c ≠ a) (hself : own' x = some a)
    (hne : ∀ y, y ≠ x → own' y = own y) : Partition pool free' own' := by
  have hnew := (h.free_iff a ha).mp hf
  refine ⟨fun y c hy ↦ ?_, fun y z c hy hz ↦ ?_, fun c hc ↦ ?_⟩
  · have := h.mem y c
    grind
  · have := h.inj y z c
    by_cases hyx : y = x <;> by_cases hzx : z = x <;> grind
  · have := h.free_iff c hc
    grind

theorem take (hx : own x = some a)
    (hfree : ∀ c ∈ pool, free' c ↔ free c ∨ c = a) (hself : own' x = none)
    (hne : ∀ y, y ≠ x → own' y = own y) : Partition pool free' own' := by
  refine ⟨fun y c hy ↦ ?_, fun y z c hy hz ↦ ?_, fun c hc ↦ ?_⟩
  · have := h.mem y c
    grind
  · have := h.inj y z c
    by_cases hyx : y = x <;> by_cases hzx : z = x <;> grind
  · rw [hfree c hc, h.free_iff c hc]
    constructor
    · rintro (hno | rfl) y hy
      · by_cases hyx : y = x <;> grind
      · have := h.inj x y c hx
        by_cases hyx : y = x <;> grind
    · intro hno
      by_cases hca : c = a
      · exact .inr hca
      · exact .inl fun y hy ↦ by by_cases hyx : y = x <;> grind

end Partition

end Xv6Bfs.Lib.Ownership

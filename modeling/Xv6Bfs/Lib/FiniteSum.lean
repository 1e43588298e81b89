import Mathlib.Algebra.BigOperators.Group.Finset.Basic

namespace Xv6Bfs.Lib.FiniteSum

open Function

theorem sum_add_of_eq_off {α M : Type} [DecidableEq α] [AddCommMonoid M] {s : Finset α} {a : α}
    (ha : a ∈ s) {f g : α → M} (h : ∀ y ∈ s, y ≠ a → f y = g y) :
    ∑ y ∈ s, f y + g a = ∑ y ∈ s, g y + f a := by
  have hrest : ∑ y ∈ s.erase a, f y = ∑ y ∈ s.erase a, g y :=
    Finset.sum_congr rfl fun y hy ↦ h y (Finset.mem_of_mem_erase hy) (Finset.ne_of_mem_erase hy)
  rw [← Finset.add_sum_erase _ _ ha, ← Finset.add_sum_erase _ g ha, hrest]
  ac_rfl

theorem sum_update_add {α β M : Type} [DecidableEq α] [AddCommMonoid M] {s : Finset α} {a : α}
    (ha : a ∈ s) (f : β → M) (g : α → β) (x : β) :
    ∑ y ∈ s, f (update g a x y) + f (g a) = ∑ y ∈ s, f (g y) + f x := by
  have h := sum_add_of_eq_off ha (f := fun y ↦ f (update g a x y)) (g := fun y ↦ f (g y))
    (fun y _ hy ↦ by rw [update_of_ne hy])
  rwa [update_self] at h

end Xv6Bfs.Lib.FiniteSum

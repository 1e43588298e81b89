import Mathlib.Algebra.BigOperators.Group.Finset.Piecewise
import Mathlib.Algebra.GroupWithZero.Nat
import Mathlib.Data.Fintype.Basic

namespace Xv6Bfs.Lib.Interleaving

variable {P α : Type} [DecidableEq P] {p q : P} {a : α} {l l' : List (P × α)}

/-- The part of `p` in an interleaving, in its order. -/
def proj (p : P) (l : List (P × α)) : List α := (l.filter (fun x ↦ x.1 = p)).map Prod.snd

@[simp] theorem proj_nil : proj p ([] : List (P × α)) = [] := rfl

@[simp] theorem proj_concat_self : proj p (l ++ [(p, a)]) = proj p l ++ [a] := by simp [proj]

theorem proj_concat_ne (h : q ≠ p) : proj p (l ++ [(q, a)]) = proj p l := by simp [proj, h]

theorem sum_proj [Fintype P] (f : α → ℕ) :
    ∑ p, ((proj p l).map f).sum = (l.map (fun x ↦ f x.2)).sum := by
  induction l with
  | nil => simp
  | cons x l ih =>
    have hpart (p : P) : ((proj p (x :: l)).map f).sum =
        (if x.1 = p then f x.2 else 0) + ((proj p l).map f).sum := by
      by_cases hp : x.1 = p <;> simp [proj, hp]
    rw [Finset.sum_congr rfl (fun p _ ↦ hpart p), Finset.sum_add_distrib, ih]
    simp

end Xv6Bfs.Lib.Interleaving

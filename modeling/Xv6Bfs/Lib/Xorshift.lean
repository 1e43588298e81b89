import Mathlib.Data.BitVec
import Mathlib.Data.Fintype.EquivFin

namespace Xv6Bfs.Lib.Xorshift

open Function

variable {w k : ℕ}

instance finite_bitVec : Finite (BitVec w) := Finite.of_equiv _ BitVec.equivFin.symm.toEquiv

theorem xor_shiftLeft_injective (hk : 0 < k) : Injective (fun x : BitVec w ↦ x ^^^ (x <<< k)) := by
  intro x y hxy
  refine BitVec.eq_of_getLsbD_eq fun i hi ↦ ?_
  induction i using Nat.strong_induction_on with
  | _ i ih =>
    have hbit := congrArg (fun z : BitVec w ↦ z.getLsbD i) hxy
    simp only [BitVec.getLsbD_xor, BitVec.getLsbD_shiftLeft, hi, decide_true, Bool.true_and] at hbit
    by_cases hik : i < k
    · simpa [hik] using hbit
    · rw [ih (i - k) (by omega) (by omega)] at hbit
      exact Bool.xor_left_inj.mp hbit

theorem xor_ushiftRight_injective (hk : 0 < k) : Injective (fun x : BitVec w ↦ x ^^^ (x >>> k)) := by
  intro x y hxy
  refine BitVec.eq_of_getLsbD_eq fun i hi ↦ ?_
  induction h : w - i using Nat.strong_induction_on generalizing i with
  | _ n ih =>
    have hbit := congrArg (fun z : BitVec w ↦ z.getLsbD i) hxy
    simp only [BitVec.getLsbD_xor, BitVec.getLsbD_ushiftRight] at hbit
    by_cases hik : k + i < w
    · rw [ih (w - (k + i)) (by omega) (k + i) hik rfl] at hbit
      exact Bool.xor_left_inj.mp hbit
    · rw [BitVec.getLsbD_of_ge x (k + i) (by omega), BitVec.getLsbD_of_ge y (k + i) (by omega)] at hbit
      exact Bool.xor_left_inj.mp hbit

end Xv6Bfs.Lib.Xorshift

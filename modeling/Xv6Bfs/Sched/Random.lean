import Xv6Bfs.Lib.Xorshift
import Xv6Bfs.Sched.SkipList
import Mathlib.Dynamics.PeriodicPts.Lemmas

namespace Xv6Bfs.Sched

open Function Lib.Xorshift

def nextSeed (seed : BitVec 32) : BitVec 32 := (random seed 1).2

theorem nextSeed_zero : nextSeed 0 = 0 := rfl

theorem nextSeed_injective : Injective nextSeed :=
  (xor_shiftLeft_injective (show 0 < 5 by decide)).comp
    ((xor_ushiftRight_injective (show 0 < 7 by decide)).comp
      (xor_shiftLeft_injective (show 0 < 17 by decide)))

theorem nextSeed_ne_zero {seed : BitVec 32} (h : seed ≠ 0) : nextSeed seed ≠ 0 := by
  intro h0
  exact h (nextSeed_injective (h0.trans nextSeed_zero.symm))

theorem random_fst_lt {max : ℕ} (hmax : 0 < max) (seed : BitVec 32) : (random seed max).1 < max :=
  Nat.mod_lt _ hmax

/-- The seed before call number `n`, where that call is `random(max n)`. -/
def seedBefore (seed : BitVec 32) (max : ℕ → ℕ) : ℕ → BitVec 32
  | 0 => seed
  | n + 1 => (random (seedBefore seed max n) (max n)).2

variable {seed : BitVec 32} {max : ℕ → ℕ}

theorem seedBefore_eq_iterate (n : ℕ) : seedBefore seed max n = nextSeed^[n] seed := by
  induction n with
  | zero => rfl
  | succ n ih => rw [iterate_succ_apply', ← ih]; rfl

theorem seedBefore_ne_zero (h : seed ≠ 0) (n : ℕ) : seedBefore seed max n ≠ 0 := by
  induction n with
  | zero => exact h
  | succ n ih => exact nextSeed_ne_zero ih

theorem seedBefore_periodic (seed : BitVec 32) :
    ∃ T, 0 < T ∧ ∀ max n, seedBefore seed max (n + T) = seedBefore seed max n := by
  obtain ⟨T, hT, hper⟩ := mem_periodicPts.mp (nextSeed_injective.mem_periodicPts seed)
  refine ⟨T, hT, fun max n ↦ ?_⟩
  rw [seedBefore_eq_iterate, seedBefore_eq_iterate, iterate_add_apply, hper]

/-- The level generator, over any sequence of calls `random(max 0)`, `random(max 1)`, ... -/
theorem random_never_degenerates (hseed : seed ≠ 0) (hmax : ∀ n, 0 < max n) :
    (∀ m, Bijective fun x ↦ (random x m).2) ∧ (∀ m, (random 0 m).2 = 0) ∧
    (∀ n, seedBefore seed max n ≠ 0) ∧
    (∃ T, 0 < T ∧ seedBefore seed max T = seed ∧
      ∀ n, seedBefore seed max (n + T) = seedBefore seed max n) ∧
    ∀ n, (random (seedBefore seed max n) (max n)).1 < max n := by
  obtain ⟨T, hT, hper⟩ := seedBefore_periodic seed
  refine ⟨fun m ↦ Finite.injective_iff_bijective.mp nextSeed_injective, fun m ↦ nextSeed_zero,
    seedBefore_ne_zero hseed, ⟨T, hT, ?_, hper max⟩, fun n ↦ random_fst_lt (hmax n) _⟩
  have hback := hper max 0
  rwa [Nat.zero_add] at hback

theorem random_never_degenerates_seed : SEED ≠ 0 ∧
    (∀ n, seedBefore SEED (fun _ ↦ 10000) n ≠ 0) ∧
    ∃ T, 0 < T ∧ seedBefore SEED (fun _ ↦ 10000) T = SEED := by
  have hseed : SEED ≠ 0 := by decide
  have hmax : ∀ _ : ℕ, 0 < 10000 := fun _ ↦ by decide
  obtain ⟨-, -, hne, ⟨T, hT, hback, -⟩, -⟩ := random_never_degenerates hseed hmax
  exact ⟨hseed, hne, T, hT, hback⟩

end Xv6Bfs.Sched

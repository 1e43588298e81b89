import Xv6Bfs.Sched.Kernel

namespace Xv6Bfs.Sched

variable {n : ℤ} {t t₁ t₂ : ℕ}

/-- The bound on `ticks` below which no deadline wraps around. -/
def TICK_LIMIT : ℕ := 2 ^ 31 - 2000

/-- The tick at which the deadline of a process was computed, since its slot was allocated. -/
def lastStamp (p : ProcId) : List Event → Option ℕ
  | [] => none
  | .deadline q t :: l => if q = p then some t else lastStamp p l
  | .alloc q _ :: l => if q = p then none else lastStamp p l
  | _ :: l => lastStamp p l

@[grind =] theorem lastStamp_cons (p : ProcId) (e : Event) (l : List Event) :
    lastStamp p (e :: l) = match e with
      | .deadline q t => if q = p then some t else lastStamp p l
      | .alloc q _ => if q = p then none else lastStamp p l
      | _ => lastStamp p l := by
  cases e <;> rfl

def offset (n : ℤ) : ℤ := (n - NICE_FIRST_LEVEL + 1) * BFS_DEFAULT_QUANTUM

theorem computevd_eq (n : ℤ) (t : ℕ) : computevd n t = int32 (t + offset n) := rfl

theorem offset_bounds (hn : ValidNice n) : BFS_DEFAULT_QUANTUM ≤ offset n ∧ offset n ≤ 2000 := by
  obtain ⟨h1, h2⟩ := hn
  simp only [offset, NICE_FIRST_LEVEL, NICE_LAST_LEVEL, BFS_DEFAULT_QUANTUM] at *
  omega

theorem int32_of_lt {x : ℤ} (h0 : 0 ≤ x) (h : x < 2 ^ 31) : int32 x = x := by
  rw [int32, Int.emod_eq_of_lt (by omega) (by omega)]
  omega

theorem int32_of_ge {x : ℤ} (h : 2 ^ 31 ≤ x) (h' : x < 2 ^ 31 + 2 ^ 32) :
    int32 x = x - 2 ^ 32 := by
  have hx : x + 2 ^ 31 = (x - 2 ^ 31) + 2 ^ 32 := by omega
  rw [int32, hx, Int.add_emod_right, Int.emod_eq_of_lt (by omega) (by omega)]
  omega

theorem computevd_of_lt (hn : ValidNice n) (ht : t < TICK_LIMIT) :
    computevd n t = t + offset n := by
  have hb := offset_bounds hn
  have hlimit : TICK_LIMIT = 2 ^ 31 - 2000 := rfl
  simp only [BFS_DEFAULT_QUANTUM] at hb
  rw [computevd_eq]
  exact int32_of_lt (by omega) (by omega)

theorem goesBefore_eq_false {d d' : ℤ} : goesBefore d d' = false ↔ d' ≤ d := by
  simp [goesBefore]

/-- A later deadline for the same nice value goes before an earlier one exactly if the
signed deadline has wrapped around in between. -/
theorem later_not_before_iff (hn : ValidNice n) (h : t₁ ≤ t₂) (h₂ : t₂ < 2 ^ 32) :
    goesBefore (computevd n t₂) (computevd n t₁) = false ↔
      ¬ (t₁ + offset n < 2 ^ 31 ∧ 2 ^ 31 ≤ t₂ + offset n) := by
  have hb := offset_bounds hn
  simp only [BFS_DEFAULT_QUANTUM] at hb
  rw [goesBefore_eq_false, computevd_eq, computevd_eq]
  by_cases h1 : t₁ + offset n < 2 ^ 31
  · rw [int32_of_lt (by omega) h1]
    by_cases h2 : t₂ + offset n < 2 ^ 31
    · rw [int32_of_lt (by omega) h2]
      omega
    · rw [int32_of_ge (by omega) (by omega)]
      omega
  · rw [int32_of_ge (by omega) (by omega), int32_of_ge (by omega) (by omega)]
    omega

theorem later_not_before_iff_zero : ValidNice 0 ∧
    (goesBefore (computevd 0 200) (computevd 0 100) = false ↔
      ¬ ((100 : ℕ) + offset 0 < 2 ^ 31 ∧ 2 ^ 31 ≤ (200 : ℕ) + offset 0)) :=
  ⟨by decide, later_not_before_iff (by decide) (show 100 ≤ 200 by decide) (by decide)⟩

theorem later_before_at_wrap : ∃ t₁ t₂ : ℕ, t₁ ≤ t₂ ∧ t₂ < 2 ^ 32 ∧
    goesBefore (computevd 0 t₂) (computevd 0 t₁) = true :=
  ⟨2 ^ 31 - 1051, 2 ^ 31 - 1050, by decide, by decide, by decide⟩

end Xv6Bfs.Sched

import Mathlib.Logic.Function.Basic
import Mathlib.Data.UInt
import Mathlib.Tactic.Common

namespace Xv6Bfs.Strings

open Function

/-- The bytes of an address space of 32 bits. -/
abbrev Memory := ℕ → UInt8

def copyUp : (n s d : ℕ) → Memory → Memory
  | 0, _, _, m => m
  | n + 1, s, d, m => copyUp n ((s + 1) % 2 ^ 32) ((d + 1) % 2 ^ 32) (update m d (m s))

def copyDown : (n s d : ℕ) → Memory → Memory
  | 0, _, _, m => m
  | n + 1, s, d, m =>
    let s := (s + 2 ^ 32 - 1) % 2 ^ 32
    let d := (d + 2 ^ 32 - 1) % 2 ^ 32
    copyDown n s d (update m d (m s))

def memmove (dst src n : ℕ) (m : Memory) : ℕ × Memory :=
  if src < dst ∧ (src + n) % 2 ^ 32 > dst then
    (dst, copyDown n ((src + n) % 2 ^ 32) ((dst + n) % 2 ^ 32) m)
  else (dst, copyUp n src dst m)

/-- `memmove` of the user library, where the count is an `int`. -/
def ulibMemmove (dst src n : ℕ) (m : Memory) : ℕ × Memory :=
  -- a word from 2 ^ 31 on is a negative count, and the loop ends at once
  (dst, copyUp (if n < 2 ^ 31 then n else 0) src dst m)

/-- The bytes from `src` on have been copied to `dst`, and nothing else has changed. -/
structure Moved (dst src n : ℕ) (m m' : Memory) : Prop where
  copied : ∀ i, i < n → m' (dst + i) = m (src + i)
  rest : ∀ a, a < dst ∨ dst + n ≤ a → m' a = m a

variable {dst src n : ℕ} {m m' m'' : Memory}

theorem Moved.nothing : Moved dst src 0 m m := ⟨fun _ hi ↦ absurd hi (Nat.not_lt_zero _), fun _ _ ↦ rfl⟩

theorem Moved.unique (h : Moved dst src n m m') (h' : Moved dst src n m m'') : m' = m'' := by
  funext a
  by_cases ha : dst ≤ a ∧ a < dst + n
  · have hsplit : a = dst + (a - dst) := by omega
    rw [hsplit, h.copied _ (by omega), h'.copied _ (by omega)]
  · rw [h.rest a (by omega), h'.rest a (by omega)]

theorem Moved.first (hsafe : ¬ (src < dst ∧ dst < src + (n + 1)))
    (h : Moved (dst + 1) (src + 1) n (update m dst (m src)) m') : Moved dst src (n + 1) m m' := by
  refine ⟨fun i hi ↦ ?_, fun a ha ↦ ?_⟩
  · cases i with
    | zero =>
      rw [h.rest _ (by omega)]
      exact update_self _ _ _
    | succ i =>
      rw [show dst + (i + 1) = dst + 1 + i by omega, h.copied i (by omega), update_of_ne (by omega),
        show src + 1 + i = src + (i + 1) by omega]
  · rw [h.rest a (by omega), update_of_ne (by omega)]

theorem Moved.last (hle : src ≤ dst)
    (h : Moved dst src n (update m (dst + n) (m (src + n))) m') : Moved dst src (n + 1) m m' := by
  refine ⟨fun i hi ↦ ?_, fun a ha ↦ ?_⟩
  · rcases Nat.lt_or_ge i n with hin | hin
    · rw [h.copied i hin, update_of_ne (by omega)]
    · obtain rfl : i = n := by omega
      rw [h.rest _ (by omega)]
      exact update_self _ _ _
  · rw [h.rest a (by omega), update_of_ne (by omega)]

theorem copyUp_moved (hsrc : src + n ≤ 2 ^ 32) (hdst : dst + n ≤ 2 ^ 32)
    (hsafe : ¬ (src < dst ∧ dst < src + n)) : Moved dst src n m (copyUp n src dst m) := by
  induction n generalizing src dst m with
  | zero => exact .nothing
  | succ n ih =>
    refine .first hsafe ?_
    rw [copyUp]
    cases n with
    | zero => exact .nothing
    | succ n =>
      rw [Nat.mod_eq_of_lt (show src + 1 < 2 ^ 32 by omega),
        Nat.mod_eq_of_lt (show dst + 1 < 2 ^ 32 by omega)]
      exact ih (by omega) (by omega) (by omega)

theorem copyDown_moved (hle : src ≤ dst) (hdst : dst + n ≤ 2 ^ 32) :
    Moved dst src n m (copyDown n ((src + n) % 2 ^ 32) ((dst + n) % 2 ^ 32) m) := by
  induction n generalizing m with
  | zero => exact .nothing
  | succ n ih =>
    have hprev {a : ℕ} (ha : a + (n + 1) ≤ 2 ^ 32) :
        ((a + (n + 1)) % 2 ^ 32 + 2 ^ 32 - 1) % 2 ^ 32 = (a + n) % 2 ^ 32 := by omega
    refine .last hle ?_
    rw [copyDown, hprev (by omega), hprev hdst, Nat.mod_eq_of_lt (show src + n < 2 ^ 32 by omega),
      Nat.mod_eq_of_lt (show dst + n < 2 ^ 32 by omega)]
    have hrest := ih (m := update m (dst + n) (m (src + n))) (by omega)
    rwa [Nat.mod_eq_of_lt (show src + n < 2 ^ 32 by omega),
      Nat.mod_eq_of_lt (show dst + n < 2 ^ 32 by omega)] at hrest

/-- A copy onto the end of its own source repeats the bytes before the destination. -/
theorem copyUp_last {c : UInt8} (hlt : src < dst) (hdst : dst + n < 2 ^ 32)
    (h : ∀ a, src ≤ a → a < dst → m a = c) : copyUp (n + 1) src dst m (dst + n) = c := by
  induction n generalizing src dst m with
  | zero =>
    rw [copyUp, copyUp, Nat.add_zero, update_self]
    exact h src (Nat.le_refl src) hlt
  | succ n ih =>
    rw [copyUp, Nat.mod_eq_of_lt (show src + 1 < 2 ^ 32 by omega),
      Nat.mod_eq_of_lt (show dst + 1 < 2 ^ 32 by omega), show dst + (n + 1) = dst + 1 + n by omega]
    refine ih (by omega) (by omega) (fun a h1 h2 ↦ ?_)
    by_cases ha : a = dst
    · rw [ha, update_self]
      exact h src (Nat.le_refl src) hlt
    · rw [update_of_ne ha]
      exact h a (by omega) (by omega)

theorem copyUp_moved_iff (hsrc : src + n ≤ 2 ^ 32) (hdst : dst + n ≤ 2 ^ 32) :
    (∀ m, Moved dst src n m (copyUp n src dst m)) ↔ ¬ (src < dst ∧ dst < src + n) := by
  refine ⟨fun h ⟨hlt, hin⟩ ↦ ?_, fun hsafe m ↦ copyUp_moved hsrc hdst hsafe⟩
  obtain ⟨k, rfl⟩ : ∃ k, n = k + 1 := ⟨n - 1, by omega⟩
  -- zeroes before the destination, and ones from there on
  have hlast := (h (fun a ↦ if a < dst then 0 else 1)).copied k (Nat.lt_succ_self k)
  rw [copyUp_last (c := 0) hlt (by omega) (fun a _ ha ↦ if_pos ha), if_neg (by omega)] at hlast
  exact absurd hlast (by decide)

/-- The kernel's function copies correctly for every overlap. That of the library does so, and agrees
with it, whatever the bytes are, exactly when the destination does not begin within the source. -/
theorem memmove_copies {dst src n : ℕ} (hn : n < 2 ^ 31) (hsrc : src + n ≤ 2 ^ 32)
    (hdst : dst + n ≤ 2 ^ 32) :
    (∀ m, Moved dst src n m (memmove dst src n m).2) ∧
    ((∀ m, Moved dst src n m (ulibMemmove dst src n m).2) ↔ ¬ (src < dst ∧ dst < src + n)) ∧
    ((∀ m, ulibMemmove dst src n m = memmove dst src n m) ↔ ¬ (src < dst ∧ dst < src + n)) := by
  have hkernel (m : Memory) : Moved dst src n m (memmove dst src n m).2 := by
    rw [memmove]
    split
    · exact copyDown_moved (by omega) hdst
    · exact copyUp_moved hsrc hdst (by omega)
  have hulib : (∀ m, Moved dst src n m (ulibMemmove dst src n m).2) ↔
      ¬ (src < dst ∧ dst < src + n) := by
    simp only [ulibMemmove, if_pos hn]
    exact copyUp_moved_iff hsrc hdst
  refine ⟨hkernel, hulib, fun heq ↦ hulib.mp (fun m ↦ heq m ▸ hkernel m), fun hsafe m ↦ ?_⟩
  refine Prod.ext ?_ ((hulib.mpr hsafe m).unique (hkernel m))
  rw [memmove]
  split <;> rfl

theorem memmove_copies_three :
    (∀ m, Moved 1 0 3 m (memmove 1 0 3 m).2) ∧
      (∀ m, Moved 0 1 3 m (ulibMemmove 0 1 3 m).2) ∧
      ¬ ∀ m, Moved 1 0 3 m (ulibMemmove 1 0 3 m).2 :=
  ⟨(memmove_copies (by decide) (by decide) (by decide)).1,
    (memmove_copies (by decide) (by decide) (by decide)).2.1.mpr (by decide),
    fun h ↦ (memmove_copies (by decide) (by decide) (by decide)).2.1.mp h (by decide)⟩

/-- Two bytes are moved up by one: the library's function copies the first of them twice. -/
theorem ulibMemmove_overwrites_source :
    (2 < 2 ^ 31 ∧ 0 + 2 ≤ 2 ^ 32 ∧ 1 + 2 ≤ 2 ^ 32) ∧
      ¬ Moved 1 0 2 (UInt8.ofNat ·) (ulibMemmove 1 0 2 (UInt8.ofNat ·)).2 ∧
      ulibMemmove 1 0 2 (UInt8.ofNat ·) ≠ memmove 1 0 2 (UInt8.ofNat ·) := by
  have hbytes : (ulibMemmove 1 0 2 (UInt8.ofNat ·)).2 2 ≠ (memmove 1 0 2 (UInt8.ofNat ·)).2 2 := by
    decide
  refine ⟨by decide, fun h ↦ absurd (h.copied 1 (by decide)) (by decide), fun h ↦ hbytes (by rw [h])⟩

end Xv6Bfs.Strings

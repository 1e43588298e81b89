import Mathlib.Data.List.Basic
import Mathlib.Algebra.BigOperators.Group.List.Basic
import Mathlib.Algebra.GroupWithZero.Nat

namespace Xv6Bfs.Lib.Tiling

variable {β : Type} {addr len : β → ℕ} {a e : ℕ} {b : β} {l l₁ l₂ : List β}

def Tiled (addr len : β → ℕ) : ℕ → List β → ℕ → Prop
  | a, [], e => a = e
  | a, b :: l, e => addr b = a ∧ 0 < len b ∧ Tiled addr len (a + len b) l e

theorem tiled_append :
    Tiled addr len a (l₁ ++ l₂) e ↔ ∃ m, Tiled addr len a l₁ m ∧ Tiled addr len m l₂ e := by
  induction l₁ generalizing a with
  | nil => simp [Tiled]
  | cons b l₁ ih =>
    simp only [List.cons_append, Tiled, ih]
    constructor
    · rintro ⟨ha, hl, m, h₁, h₂⟩
      exact ⟨m, ⟨ha, hl, h₁⟩, h₂⟩
    · rintro ⟨m, ⟨ha, hl, h₁⟩, h₂⟩
      exact ⟨ha, hl, m, h₁, h₂⟩

theorem Tiled.le (h : Tiled addr len a l e) : a ≤ e := by
  induction l generalizing a with
  | nil => exact Nat.le_of_eq h
  | cons b l ih => exact Nat.le_trans (Nat.le_add_right a _) (ih h.2.2)

theorem Tiled.bounds (h : Tiled addr len a l e) (hb : b ∈ l) :
    a ≤ addr b ∧ 0 < len b ∧ addr b + len b ≤ e := by
  obtain ⟨l₁, l₂, rfl⟩ := List.append_of_mem hb
  obtain ⟨m, h₁, rfl, hl, h₂⟩ := tiled_append.mp h
  exact ⟨h₁.le, hl, h₂.le⟩

theorem Tiled.pairwise (h : Tiled addr len a l e) :
    l.Pairwise (fun b c ↦ addr b + len b ≤ addr c) := by
  induction l generalizing a with
  | nil => exact .nil
  | cons b l ih =>
    obtain ⟨rfl, -, h⟩ := h
    exact List.pairwise_cons.mpr ⟨fun c hc ↦ (h.bounds hc).1, ih h⟩

theorem Tiled.sum (h : Tiled addr len a l e) : a + (l.map len).sum = e := by
  induction l generalizing a with
  | nil => simpa [Tiled] using h
  | cons b l ih =>
    rw [List.map_cons, List.sum_cons, ← Nat.add_assoc]
    exact ih h.2.2

end Xv6Bfs.Lib.Tiling

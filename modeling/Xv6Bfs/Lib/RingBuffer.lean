import Mathlib.Data.BitVec
import Mathlib.Data.Int.ModEq
import Mathlib.Data.List.Basic
import Mathlib.Logic.Function.Basic
import Mathlib.Tactic.Ring

namespace Xv6Bfs.Lib.RingBuffer

open Function

variable {α : Type} {w N : ℕ} {data : ℕ → α} {r m e : BitVec w} {a : α}

/-- The cells of a ring of `N` cells from index `r` to index `e`. The indices count up and wrap
around. -/
def window (N : ℕ) (data : ℕ → α) (r e : BitVec w) : List α :=
  (List.range (e - r).toNat).map fun k ↦ data ((r.toNat + k) % N)

@[simp] theorem length_window : (window N data r e).length = (e - r).toNat := by
  simp [window]

@[simp] theorem window_self : window N data r r = [] := by
  simp [window]

theorem toNat_sub_eq_zero_iff : (e - r).toNat = 0 ↔ r = e := by
  constructor
  · intro h
    have hz : e - r = 0 := BitVec.eq_of_toNat_eq (by simpa using h)
    exact (sub_eq_zero.mp hz).symm
  · rintro rfl
    simp

theorem toNat_add_sub (r e : BitVec w) : (r.toNat + (e - r).toNat) % 2 ^ w = e.toNat := by
  rw [← BitVec.toNat_add, BitVec.add_comm, BitVec.sub_add_cancel]

theorem sub_toNat_succ (h : (e - r).toNat + 1 < 2 ^ w) : (e + 1 - r).toNat = (e - r).toNat + 1 := by
  have he : e + 1 - r = e - r + 1 := by ring
  have h1 : (1 : BitVec w).toNat = 1 % 2 ^ w := by simp
  rw [he, BitVec.toNat_add, h1, Nat.add_mod_mod, Nat.mod_eq_of_lt h]

theorem sub_succ_toNat (h : r ≠ e) : (e - r).toNat = (e - (r + 1)).toNat + 1 := by
  have he : e - (r + 1) = e - r - 1 := by ring
  have hpos : (e - r).toNat ≠ 0 := fun h0 ↦ h (toNat_sub_eq_zero_iff.mp h0)
  have hlt := (e - r).isLt
  have h1 : (1 : BitVec w).toNat = 1 := by
    simp only [BitVec.ofNat_eq_ofNat, BitVec.toNat_ofNat]
    exact Nat.mod_eq_of_lt (by omega)
  have hle : (1 : BitVec w) ≤ e - r := by
    rw [BitVec.le_def, h1]
    omega
  rw [he, BitVec.toNat_sub_of_le hle, h1]
  omega

theorem pred_sub_toNat (h : r ≠ e) : (e - r).toNat = (e - 1 - r).toNat + 1 := by
  rw [sub_succ_toNat h, show e - (r + 1) = e - 1 - r by ring]

theorem lt_of_ne (h : (m - r).toNat ≤ (e - r).toNat) (hne : m ≠ e) :
    (m - r).toNat < (e - r).toNat := by
  refine lt_of_le_of_ne h (fun heq ↦ hne ?_)
  exact sub_left_injective (BitVec.eq_of_toNat_eq heq)

theorem eq_add_iff (hN : N < 2 ^ w) : e = r + BitVec.ofNat w N ↔ (e - r).toNat = N := by
  rw [← sub_eq_iff_eq_add']
  constructor
  · intro h
    rw [h, BitVec.toNat_ofNat, Nat.mod_eq_of_lt hN]
  · intro h
    rw [← h, BitVec.ofNat_toNat, BitVec.setWidth_eq]

theorem window_pop (h : r ≠ e) (hN : N ∣ 2 ^ w) :
    window N data r e = data (r.toNat % N) :: window N data (r + 1) e := by
  rw [window, sub_succ_toNat h, List.range_succ_eq_map, List.map_cons, List.map_map]
  refine congrArg _ (List.map_congr_left (fun k _ ↦ congrArg data ?_))
  simp only [BitVec.toNat_add, BitVec.ofNat_eq_ofNat, BitVec.toNat_ofNat]
  rw [← Nat.mod_mod_of_dvd (r.toNat + k.succ) hN]
  rw [← Nat.mod_mod_of_dvd ((r.toNat + 1 % 2 ^ w) % 2 ^ w + k) hN]
  congr 1
  rw [Nat.mod_add_mod, Nat.add_right_comm, Nat.add_mod_mod]
  rfl

theorem window_push (h : (e - r).toNat < N) (hN : N ∣ 2 ^ w) (hlt : N < 2 ^ w) :
    window N (update data (e.toNat % N) a) r (e + 1) = window N data r e ++ [a] := by
  have hlast : (r.toNat + (e - r).toNat) % N = e.toNat % N := by
    rw [← Nat.mod_mod_of_dvd _ hN, toNat_add_sub]
  rw [window, sub_toNat_succ (by omega), List.range_succ, List.map_append, List.map_singleton, hlast,
    update_self]
  refine congrArg (· ++ [a]) (List.map_congr_left (fun k hk ↦ update_of_ne ?_ _ _))
  rw [List.mem_range] at hk
  rw [← hlast]
  intro heq
  have hmod : k % N = (e - r).toNat % N := Nat.ModEq.add_left_cancel' r.toNat heq
  rw [Nat.mod_eq_of_lt (by omega), Nat.mod_eq_of_lt h] at hmod
  omega

theorem window_append (h : (m - r).toNat ≤ (e - r).toNat) (hN : N ∣ 2 ^ w) :
    window N data r e = window N data r m ++ window N data m e := by
  have hsub : e - m = (e - r) - (m - r) := by ring
  have hn : (e - r).toNat = (m - r).toNat + (e - m).toNat := by
    rw [hsub, BitVec.toNat_sub_of_le (BitVec.le_def.mpr h)]
    omega
  rw [window, hn, List.range_add, List.map_append, List.map_map]
  refine congrArg _ (List.map_congr_left (fun k _ ↦ congrArg data ?_))
  change (r.toNat + ((m - r).toNat + k)) % N = (m.toNat + k) % N
  rw [← Nat.add_assoc, ← Nat.mod_mod_of_dvd _ hN, ← Nat.mod_add_mod, toNat_add_sub,
    Nat.mod_mod_of_dvd _ hN]

theorem window_last (h : r ≠ e) (hN : N ∣ 2 ^ w) :
    window N data r e = window N data r (e - 1) ++ [data ((e - 1).toNat % N)] := by
  rw [window, pred_sub_toNat h, List.range_succ, List.map_append, List.map_singleton, window,
    ← Nat.mod_mod_of_dvd _ hN, toNat_add_sub]

end Xv6Bfs.Lib.RingBuffer

import Xv6Bfs.Lib.Bytes

namespace Xv6Bfs.Disk

open Lib.Bytes

def BSIZE : ℕ := 512

/-- `uchar data[BSIZE]` -/
abbrev Block := Fin BSIZE → UInt8

/-- The blocks of a disk by their numbers. -/
abbrev Image := ℕ → Block

variable {b : Block} {i j v : ℕ}

/-- `((uint*)data)[i]` -/
def word (b : Block) (i : ℕ) : ℕ := num b (4 * i) 4

def setWord (b : Block) (i v : ℕ) : Block := setNum b (4 * i) 4 v

theorem word_lt : word b i < 2 ^ 32 := num_lt

theorem word_setWord_self (hi : i < BSIZE / 4) (hv : v < 2 ^ 32) : word (setWord b i v) i = v := by
  refine num_setNum_self ?_ hv
  simp only [BSIZE] at *
  omega

theorem word_setWord_ne (h : i ≠ j) : word (setWord b i v) j = word b j :=
  num_setNum_of_disjoint (by omega)

theorem word_zero : word (fun _ ↦ 0) i = 0 := by
  have hpeek : ∀ k, peek (fun _ : Fin BSIZE ↦ (0 : UInt8)) k = 0 := fun k ↦ by
    unfold peek
    split <;> rfl
  simp [word, num, slice, hpeek, fromBytes, List.range_succ, Nat.ofDigits_cons]

end Xv6Bfs.Disk

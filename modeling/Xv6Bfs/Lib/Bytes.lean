import Mathlib.Data.Nat.Digits.Lemmas

namespace Xv6Bfs.Lib.Bytes

def fromBytes (l : List UInt8) : ℕ := Nat.ofDigits 256 (l.map UInt8.toNat)

def toBytes (w v : ℕ) : List UInt8 := (List.range w).map fun k ↦ UInt8.ofNat (v / 256 ^ k)

@[simp] theorem length_toBytes (w v : ℕ) : (toBytes w v).length = w := by simp [toBytes]

theorem drop_toBytes {w k : ℕ} (v : ℕ) (h : w ≤ k) : (toBytes w v).drop k = [] :=
  List.drop_eq_nil_of_le (by simpa using h)

theorem toBytes_succ (w v : ℕ) : toBytes (w + 1) v = UInt8.ofNat v :: toBytes w (v / 256) := by
  simp only [toBytes, List.range_succ_eq_map, List.map_cons, List.map_map, pow_zero, Nat.div_one]
  congr 1
  refine List.map_congr_left (fun k _ ↦ ?_)
  simp only [Function.comp_apply, Nat.succ_eq_add_one]
  rw [pow_succ', Nat.div_div_eq_div_mul]

theorem fromBytes_toBytes (w v : ℕ) : fromBytes (toBytes w v) = v % 256 ^ w := by
  induction w generalizing v with
  | zero => simp [toBytes, fromBytes, Nat.mod_one]
  | succ w ih =>
    have htail : Nat.ofDigits 256 ((toBytes w (v / 256)).map UInt8.toNat) = v / 256 % 256 ^ w :=
      ih (v / 256)
    rw [toBytes_succ, fromBytes, List.map_cons, Nat.ofDigits_cons, htail, pow_succ', Nat.mod_mul]
    simp

theorem fromBytes_lt (l : List UInt8) : fromBytes l < 256 ^ l.length := by
  have h : ∀ d ∈ l.map UInt8.toNat, d < 256 := by
    intro d hd
    obtain ⟨b, -, rfl⟩ := List.mem_map.mp hd
    exact b.toNat_lt
  simpa [fromBytes] using Nat.ofDigits_lt_base_pow_length (by norm_num) h

theorem toBytes_fromBytes (l : List UInt8) : toBytes l.length (fromBytes l) = l := by
  induction l with
  | nil => rfl
  | cons a l ih =>
    have hcons : fromBytes (a :: l) = a.toNat + 256 * fromBytes l := by
      rw [fromBytes, List.map_cons, Nat.ofDigits_cons]
      rfl
    have hlt := a.toNat_lt
    rw [List.length_cons, toBytes_succ, hcons]
    congr 1
    · rw [← UInt8.toNat_inj]
      simp
    · rw [show (a.toNat + 256 * fromBytes l) / 256 = fromBytes l by omega, ih]

section

variable {α : Type} [Inhabited α] {n : ℕ} {off off' len i : ℕ} {b : Fin n → α} {src : List α}

def peek (b : Fin n → α) (i : ℕ) : α := if h : i < n then b ⟨i, h⟩ else default

def slice (b : Fin n → α) (off len : ℕ) : List α := (List.range len).map fun k ↦ peek b (off + k)

/-- Put `src` at `off`, and drop what does not fit. -/
def patch (b : Fin n → α) (off : ℕ) (src : List α) : Fin n → α :=
  fun i ↦ if off ≤ i then src.getD (i - off) (b i) else b i

@[simp] theorem length_slice (b : Fin n → α) : (slice b off len).length = len := by simp [slice]

theorem slice_add (b : Fin n → α) (off m k : ℕ) :
    slice b off (m + k) = slice b off m ++ slice b (off + m) k := by
  simp only [slice, List.range_add, List.map_append, List.map_map, Function.comp_def, Nat.add_assoc]

theorem flatMap_slice (b : Fin n → α) (off w k : ℕ) :
    (List.finRange k).flatMap (fun i ↦ slice b (off + w * i.val) w) = slice b off (w * k) := by
  have hrange (k : ℕ) : (List.range k).flatMap (fun i ↦ slice b (off + w * i) w) = slice b off (w * k) := by
    induction k with
    | zero => rfl
    | succ k ih =>
      rw [List.range_succ, List.flatMap_append, ih, Nat.mul_succ, slice_add, List.flatMap_singleton]
  rw [← hrange, ← List.map_coe_finRange_eq_range, List.flatMap_map]

theorem patch_slice (b : Fin n → α) (off len : ℕ) : patch b off (slice b off len) = b := by
  funext i
  unfold patch
  split
  · rename_i hoff
    rw [List.getD_eq_getElem?_getD]
    by_cases hi : i - off < len
    · rw [slice, List.getElem?_map, List.getElem?_range hi]
      simp [peek, show off + (i.val - off) = i.val by omega]
    · rw [List.getElem?_eq_none (by simpa using hi), Option.getD_none]
  · rfl

omit [Inhabited α] in
theorem patch_patch (b : Fin n → α) {l l' : List α} (h : l.length = l'.length) :
    patch (patch b off l) off l' = patch b off l' := by
  funext i
  unfold patch
  split
  · rw [List.getD_eq_getElem?_getD, List.getD_eq_getElem?_getD, List.getD_eq_getElem?_getD]
    by_cases hi : i - off < l'.length
    · rw [List.getElem?_eq_getElem hi]
      rfl
    · rw [List.getElem?_eq_none (by omega), List.getElem?_eq_none (by omega)]
      rfl
  · rfl

theorem peek_patch (b : Fin n → α) (src : List α) :
    peek (patch b off src) i =
      if off ≤ i ∧ i < n then src.getD (i - off) (peek b i) else peek b i := by
  unfold peek patch
  grind

theorem peek_patch_of_disjoint (h : i < off ∨ off + src.length ≤ i) :
    peek (patch b off src) i = peek b i := by
  rw [peek_patch]
  split
  · rw [List.getD_eq_getElem?_getD, List.getElem?_eq_none (by omega), Option.getD_none]
  · rfl

theorem slice_patch_self (h : off + src.length ≤ n) :
    slice (patch b off src) off src.length = src := by
  refine List.ext_getElem (by simp) (fun k hk hk' ↦ ?_)
  simp only [slice, List.getElem_map, List.getElem_range, peek_patch]
  rw [if_pos (by omega), Nat.add_sub_cancel_left]
  simp [hk']

theorem slice_patch_of_disjoint (h : off' + len ≤ off ∨ off + src.length ≤ off') :
    slice (patch b off src) off' len = slice b off' len := by
  refine List.map_congr_left (fun k hk ↦ ?_)
  have hk := List.mem_range.mp hk
  exact peek_patch_of_disjoint (by omega)

theorem slice_patch_inside {k : ℕ} (h : off + src.length ≤ n)
    (hk : k + len ≤ src.length) : slice (patch b off src) (off + k) len = (src.drop k).take len := by
  refine List.ext_getElem (by simp; omega) (fun i hi hi' ↦ ?_)
  simp only [length_slice] at hi
  simp only [slice, List.getElem_map, List.getElem_range, peek_patch, List.getElem_take,
    List.getElem_drop]
  rw [if_pos (by omega), show off + k + i - off = k + i by omega]
  simp [show k + i < src.length by omega]

omit [Inhabited α] in
theorem take_drop_flatMap {β : Type} {f : β → List α} {w : ℕ} (hf : ∀ x, (f x).length = w)
    (l : List β) {i : ℕ} (hi : i < l.length) : ((l.flatMap f).drop (w * i)).take w = f l[i] := by
  induction l generalizing i with
  | nil => simp at hi
  | cons x l ih =>
    rw [List.flatMap_cons]
    cases i with
    | zero => simp [← hf x]
    | succ i =>
      have hlen : w * (i + 1) = (f x).length + w * i := by rw [hf, Nat.mul_succ, Nat.add_comm]
      rw [hlen, List.drop_length_add_append]
      exact ih (by simpa using hi)

end

section

variable {n off off' w w' v : ℕ} {b : Fin n → UInt8}

def num (b : Fin n → UInt8) (off w : ℕ) : ℕ := fromBytes (slice b off w)

def setNum (b : Fin n → UInt8) (off w v : ℕ) : Fin n → UInt8 := patch b off (toBytes w v)

theorem num_lt : num b off w < 256 ^ w := by
  have h := fromBytes_lt (slice b off w)
  rwa [length_slice] at h

theorem num_setNum_self (h : off + w ≤ n) (hv : v < 256 ^ w) : num (setNum b off w v) off w = v := by
  have hs : slice (patch b off (toBytes w v)) off w = toBytes w v := by
    have := slice_patch_self (b := b) (show off + (toBytes w v).length ≤ n by simpa using h)
    rwa [length_toBytes] at this
  rw [num, setNum, hs, fromBytes_toBytes, Nat.mod_eq_of_lt hv]

theorem num_patch_inside {src : List UInt8} {k : ℕ} (h : off + src.length ≤ n)
    (hk : k + w ≤ src.length) (hv : v < 256 ^ w) (hs : (src.drop k).take w = toBytes w v) :
    num (patch b off src) (off + k) w = v := by
  rw [num, slice_patch_inside h hk, hs, fromBytes_toBytes, Nat.mod_eq_of_lt hv]

theorem num_patch_of_disjoint {src : List UInt8} (h : off' + w ≤ off ∨ off + src.length ≤ off') :
    num (patch b off src) off' w = num b off' w := by
  rw [num, slice_patch_of_disjoint h, num]

theorem num_setNum_of_disjoint (h : off' + w' ≤ off ∨ off + w ≤ off') :
    num (setNum b off w v) off' w' = num b off' w' :=
  num_patch_of_disjoint (by simpa using h)

end

end Xv6Bfs.Lib.Bytes

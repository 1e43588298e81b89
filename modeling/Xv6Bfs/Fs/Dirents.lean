import Xv6Bfs.Fs.Directory
import Xv6Bfs.Lib.SlotMap

namespace Xv6Bfs.Fs

open Lib.Bytes Lib.Execution Lib.SlotMap Disk State Function

def key (name : List UInt8) : List UInt8 := (name.takeWhile (· ≠ 0)).take DIRSIZ

def dirents (c : List UInt8) : List (List UInt8) :=
  (List.range (c.length / DIRENT)).map fun e ↦ (c.drop (DIRENT * e)).take DIRENT

def binding (de : List UInt8) : Option (List UInt8 × ℕ) :=
  if deInum de = 0 then none else some (key (deName de), deInum de)

section

variable {c src name : List UInt8} {e n inum : ℕ}

theorem takeWhile_eq (p : List UInt8) : p.takeWhile (· ≠ 0) =
    if p.headD 0 ≠ 0 then p.headD 0 :: p.tail.takeWhile (· ≠ 0) else [] := by
  cases p with
  | nil => rfl
  | cons a p => by_cases ha : a = 0 <;> simp [ha]

theorem strncmp_eq_zero (n : ℕ) (p q : List UInt8) :
    strncmp n p q = 0 ↔ (p.takeWhile (· ≠ 0)).take n = (q.takeWhile (· ≠ 0)).take n := by
  induction n generalizing p q with
  | zero => simp [strncmp]
  | succ n ih =>
    have hsub : ((p.headD 0).toNat : ℤ) - (q.headD 0).toNat = 0 ↔ p.headD 0 = q.headD 0 := by
      rw [sub_eq_zero, Nat.cast_inj, UInt8.toNat_inj]
    rw [strncmp, takeWhile_eq p, takeWhile_eq q]
    have ih := ih p.tail q.tail
    generalize p.headD 0 = a at hsub ⊢
    generalize q.headD 0 = b at hsub ⊢
    rcases eq_or_ne a b with rfl | hab
    · by_cases ha : a = 0 <;> simp [ha, ih]
    · rw [if_neg (by simp [hab]), hsub]
      by_cases ha : a = 0 <;> by_cases hb : b = 0 <;> simp_all

theorem namecmp_eq_zero (s t : List UInt8) : namecmp s t = 0 ↔ key s = key t :=
  strncmp_eq_zero DIRSIZ s t

theorem takeWhile_strncpy (n : ℕ) (t : List UInt8) :
    (strncpy n t).takeWhile (· ≠ 0) = (t.takeWhile (· ≠ 0)).take n := by
  induction n generalizing t with
  | zero => simp [strncpy]
  | succ n ih =>
    rw [strncpy, takeWhile_eq t]
    split
    · rename_i ha
      rw [List.takeWhile_cons_of_pos (by simpa using ha), ih, List.take_succ_cons]
    · simp

theorem key_strncpy (name : List UInt8) : key (strncpy DIRSIZ name) = key name := by
  rw [key, takeWhile_strncpy, List.take_take, min_self, key]

theorem deInum_dirent (inum : ℕ) (name : List UInt8) : deInum (dirent inum name) = inum % 2 ^ 16 := by
  rw [deInum, dirent, List.take_left' (length_toBytes 2 inum), fromBytes_toBytes]
  norm_num

theorem deName_dirent (inum : ℕ) (name : List UInt8) :
    deName (dirent inum name) = strncpy DIRSIZ name := List.drop_left' (length_toBytes 2 inum)

theorem binding_dirent (h0 : 0 < inum) (h : inum < 2 ^ 16) :
    binding (dirent inum name) = some (key name, inum) := by
  rw [binding, deInum_dirent, deName_dirent, key_strncpy, Nat.mod_eq_of_lt h, if_neg (by omega)]

theorem binding_zeros : binding (List.replicate DIRENT 0) = none := by decide

theorem length_dirents : (dirents c).length = c.length / DIRENT := by simp [dirents]

theorem getElem?_dirents (he : e < c.length / DIRENT) :
    (dirents c)[e]? = some ((c.drop (DIRENT * e)).take DIRENT) := by
  simp [dirents, he]

theorem dirents_append {a b : List UInt8} (ha : a.length = DIRENT * n) :
    dirents (a ++ b) = dirents a ++ dirents b := by
  have hpos : 0 < DIRENT := by decide
  have hlen : (a ++ b).length / DIRENT = n + b.length / DIRENT := by
    rw [List.length_append, ha, Nat.mul_add_div hpos]
  have hn : a.length / DIRENT = n := by rw [ha, Nat.mul_div_cancel_left _ hpos]
  rw [dirents, dirents, dirents, hlen, hn, List.range_add, List.map_append, List.map_map]
  congr 1
  · refine List.map_congr_left fun e he ↦ ?_
    have he : DIRENT * e + DIRENT ≤ a.length := by
      rw [ha, ← Nat.mul_succ]
      exact Nat.mul_le_mul_left _ (List.mem_range.mp he)
    rw [List.drop_append_of_le_length (by omega), List.take_append_of_le_length (by simp; omega)]
  · refine List.map_congr_left fun e _ ↦ ?_
    rw [Function.comp_apply, Nat.mul_add, ← ha, List.drop_append, List.drop_eq_nil_of_le (by omega),
      List.nil_append, Nat.add_sub_cancel_left]

theorem dirents_split (he : DIRENT * e ≤ c.length) :
    dirents (c.take (DIRENT * e)) = (dirents c).take e ∧
      dirents (c.drop (DIRENT * e)) = (dirents c).drop e := by
  have hpos : 0 < DIRENT := by decide
  have hlen : (c.take (DIRENT * e)).length = DIRENT * e := by simpa using he
  have hdirents : (dirents (c.take (DIRENT * e))).length = e := by
    rw [length_dirents, hlen, Nat.mul_div_cancel_left _ hpos]
  have happend := dirents_append (b := c.drop (DIRENT * e)) hlen
  rw [List.take_append_drop] at happend
  rw [happend, List.take_left' hdirents, List.drop_left' hdirents]
  exact ⟨rfl, rfl⟩

theorem dirents_overwrite (hc : DIRENT ∣ c.length) (hsrc : src.length = DIRENT)
    (he : e ≤ c.length / DIRENT) : dirents (overwrite c (DIRENT * e) src) =
      (dirents c).take e ++ src :: (dirents c).drop (e + 1) := by
  obtain ⟨n, hn⟩ := hc
  have hpos : 0 < DIRENT := by decide
  rw [hn, Nat.mul_div_cancel_left _ hpos] at he
  have hle : DIRENT * e ≤ c.length := hn ▸ Nat.mul_le_mul_left _ he
  have hone : dirents src = [src] := by
    rw [dirents, hsrc, Nat.div_self hpos, List.range_one, List.map_singleton, Nat.mul_zero,
      List.drop_zero, List.take_of_length_le hsrc.le]
  have hrest : dirents (c.drop (DIRENT * e + DIRENT)) = (dirents c).drop (e + 1) := by
    rcases Nat.lt_or_eq_of_le he with hlt | rfl
    · rw [← Nat.mul_succ]
      exact (dirents_split (hn ▸ Nat.mul_le_mul_left _ hlt)).2
    · rw [List.drop_eq_nil_of_le (by omega), List.drop_eq_nil_of_le]
      · rfl
      · rw [length_dirents, hn, Nat.mul_div_cancel_left _ hpos]
        omega
  rw [overwrite, hsrc, List.append_assoc, dirents_append (n := e) (by simpa using hle),
    dirents_append (n := 1) (by rw [hsrc, Nat.mul_one]), hone, hrest, (dirents_split hle).1]
  rfl

end

section

variable {sb : Superblock} {devsw : Devsw} {s : State} {k : Fin NINODE} {name : List UInt8}

theorem rounds_eq {size : ℕ} (h : DIRENT ∣ size) : rounds size = size / DIRENT := by
  obtain ⟨n, rfl⟩ := h
  unfold rounds DIRENT
  omega

def State.entry (s : State) (k : Fin NINODE) (e : ℕ) : List UInt8 :=
  ((contents s.cache (s.icache k).toDinode).drop (DIRENT * e)).take DIRENT

theorem entry_eq {e : ℕ} (he : e < (s.icache k).size / DIRENT) :
    (dirents (contents s.cache (s.icache k).toDinode))[e]? = some (s.entry k e) :=
  getElem?_dirents (by rwa [length_contents])

theorem dirlookupLoop_cons {off : ℕ} {de : List UInt8} (l : List ℕ)
    (hread : s.readi sb devsw k off DIRENT = .ok (some de, s)) (hlen : de.length = DIRENT) :
    s.dirlookupLoop sb devsw k name (off :: l) =
      if deInum de ≠ 0 ∧ key name = key (deName de) then
        s.iget (deInum de) >>= fun r ↦ .ok (some (r.1, off), r.2)
      else s.dirlookupLoop sb devsw k name l := by
  rw [State.dirlookupLoop, hread, ok_bind]
  simp only [hlen, ne_eq, not_true_eq_false, if_false, namecmp_eq_zero]
  by_cases h0 : deInum de = 0
  · rw [if_pos h0, if_neg (by simp [h0])]
  · rw [if_neg h0]
    by_cases hk : key name = key (deName de)
    · rw [if_pos hk, if_pos ⟨h0, hk⟩]
    · rw [if_neg hk, if_neg (by simp [hk])]

namespace Consistent

variable (h : Consistent sb s) (hl : (s.icache k).locked = true) (ht : (s.icache k).type = T_DIR)
include h hl ht

theorem readi_entry {e : ℕ} (he : e < (s.icache k).size / DIRENT) :
    s.readi sb devsw k (DIRENT * e) DIRENT = .ok (some (s.entry k e), s) ∧
      (s.entry k e).length = DIRENT := by
  have hpos : 0 < DIRENT := by decide
  have hle : DIRENT * e + DIRENT ≤ (s.icache k).size :=
    (Nat.mul_le_mul_left DIRENT he).trans (Nat.mul_div_le _ _)
  refine ⟨h.readi_dirent hl ht (by omega), ?_⟩
  simp [State.entry]
  omega

theorem dirlookupLoop_eq (l : List ℕ) (hmem : ∀ e ∈ l, e < (s.icache k).size / DIRENT) :
    s.dirlookupLoop sb devsw k name (l.map (DIRENT * ·)) =
      match l.find? fun e ↦ deInum (s.entry k e) ≠ 0 ∧ key name = key (deName (s.entry k e)) with
      | none => .ok (none, s)
      | some e => s.iget (deInum (s.entry k e)) >>= fun r ↦ .ok (some (r.1, DIRENT * e), r.2) := by
  induction l with
  | nil => rfl
  | cons e l ih =>
    obtain ⟨hread, hlen⟩ := h.readi_entry hl ht (hmem e (.head _))
    rw [List.map_cons, dirlookupLoop_cons _ hread hlen]
    split
    · rename_i hfound
      rw [List.find?_cons_of_pos (by simpa using hfound)]
    · rename_i hfound
      rw [List.find?_cons_of_neg (by simpa using hfound)]
      exact ih fun e' he' ↦ hmem e' (.tail _ he')

theorem dirlookup_eq (hsize : DIRENT ∣ (s.icache k).size) :
    s.dirlookup sb devsw k name =
      match (List.range ((s.icache k).size / DIRENT)).find? fun e ↦
        deInum (s.entry k e) ≠ 0 ∧ key name = key (deName (s.entry k e)) with
      | none => .ok (none, s)
      | some e => s.iget (deInum (s.entry k e)) >>= fun r ↦ .ok (some (r.1, DIRENT * e), r.2) := by
  rw [State.dirlookup, if_neg (not_not.mpr ht), offsets, rounds_eq hsize,
    h.dirlookupLoop_eq hl ht _ fun e he ↦ List.mem_range.mp he]

theorem dirlinkLoop_eq (l : List ℕ) (hmem : ∀ e ∈ l, e < (s.icache k).size / DIRENT) :
    s.dirlinkLoop sb devsw k (l.map (DIRENT * ·)) =
      .ok ((l.find? fun e ↦ deInum (s.entry k e) = 0).map (DIRENT * ·), s) := by
  induction l with
  | nil => rfl
  | cons e l ih =>
    obtain ⟨hread, hlen⟩ := h.readi_entry hl ht (hmem e (.head _))
    rw [List.map_cons, State.dirlinkLoop, hread, ok_bind]
    simp only [hlen, ne_eq, not_true_eq_false, if_false]
    by_cases h0 : deInum (s.entry k e) = 0
    · rw [if_pos h0, List.find?_cons_of_pos (by simp [h0])]
      rfl
    · rw [if_neg h0, List.find?_cons_of_neg (by simp [h0])]
      exact ih fun e' he' ↦ hmem e' (.tail _ he')

end Consistent

end

end Xv6Bfs.Fs

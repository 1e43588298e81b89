import Xv6Bfs.Fs.Icache

namespace Xv6Bfs.Fs

open Lib.Bytes Lib.Execution Disk State

def DIRSIZ : ℕ := 14

def DIRENT : ℕ := 16

/-- A string is the list of its bytes up to the terminating zero, or an array without one. -/
def strncmp : ℕ → List UInt8 → List UInt8 → ℤ
  | 0, _, _ => 0
  | n + 1, p, q =>
    if p.headD 0 ≠ 0 ∧ p.headD 0 = q.headD 0 then strncmp n p.tail q.tail
    else (p.headD 0).toNat - (q.headD 0).toNat

def strncpy : ℕ → List UInt8 → List UInt8
  | 0, _ => []
  | n + 1, t => if t.headD 0 ≠ 0 then t.headD 0 :: strncpy n t.tail else 0 :: strncpy n []

def namecmp (s t : List UInt8) : ℤ := strncmp DIRSIZ s t

def dirent (inum : ℕ) (name : List UInt8) : List UInt8 := toBytes 2 inum ++ strncpy DIRSIZ name

def deInum (de : List UInt8) : ℕ := fromBytes (de.take 2)

def deName (de : List UInt8) : List UInt8 := de.drop 2

/-- The number of rounds of `for(off = 0; off < size; off += sizeof(de))`. -/
def rounds (size : ℕ) : ℕ := (size + DIRENT - 1) / DIRENT

def offsets (size : ℕ) : List ℕ := (List.range (rounds size)).map (DIRENT * ·)

namespace State

variable (sb : Superblock) (devsw : Devsw)

def dirlookupLoop (k : Fin NINODE) (name : List UInt8) :
    List ℕ → State → Except Panic (Option (Fin NINODE × ℕ) × State)
  | [], s => .ok (none, s)
  | off :: l, s => do
    let (r, s) ← s.readi sb devsw k off DIRENT
    match r with
    | none => .error .dirlookupRead
    | some de =>
      if de.length ≠ DIRENT then .error .dirlookupRead
      else if deInum de = 0 then dirlookupLoop k name l s
      else if namecmp name (deName de) = 0 then do
        let (k', s) ← s.iget (deInum de)
        .ok (some (k', off), s)
      else dirlookupLoop k name l s

def dirlookup (k : Fin NINODE) (name : List UInt8) (s : State) :
    Except Panic (Option (Fin NINODE × ℕ) × State) :=
  if (s.icache k).type ≠ T_DIR then .error .dirlookupNotDir
  else s.dirlookupLoop sb devsw k name (offsets (s.icache k).size)

def dirlinkLoop (k : Fin NINODE) : List ℕ → State → Except Panic (Option ℕ × State)
  | [], s => .ok (none, s)
  | off :: l, s => do
    let (r, s) ← s.readi sb devsw k off DIRENT
    match r with
    | none => .error .dirlinkRead
    | some de =>
      if de.length ≠ DIRENT then .error .dirlinkRead
      else if deInum de = 0 then .ok (some off, s)
      else dirlinkLoop k l s

def dirlink (k : Fin NINODE) (name : List UInt8) (inum : ℕ) (s : State) : Except Panic (ℤ × State) := do
  let (ip, s) ← s.dirlookup sb devsw k name
  match ip with
  | some (k', _) =>
    let s ← s.iput sb k'
    .ok (-1, s)
  | none =>
    let size := (s.icache k).size
    let (hole, s) ← s.dirlinkLoop sb devsw k (offsets size)
    let off := hole.getD (DIRENT * rounds size)
    let (r, s) ← s.writei sb devsw k (dirent inum name) off
    if r ≠ some DIRENT then .error .dirlink
    else .ok (0, s)

end State

@[simp] theorem length_strncpy (n : ℕ) (t : List UInt8) : (strncpy n t).length = n := by
  induction n generalizing t with
  | zero => rfl
  | succ n ih =>
    rw [strncpy]
    split <;> simp [ih]

@[simp] theorem length_dirent (inum : ℕ) (name : List UInt8) : (dirent inum name).length = DIRENT := by
  simp [dirent, DIRENT, DIRSIZ]

theorem mem_offsets {off size : ℕ} (h : off ∈ offsets size) :
    ∃ e, off = DIRENT * e ∧ DIRENT * e < size := by
  obtain ⟨e, he, rfl⟩ := List.mem_map.mp h
  have := List.mem_range.mp he
  refine ⟨e, rfl, ?_⟩
  unfold rounds at this
  unfold DIRENT at *
  omega

section

variable {sb : Superblock} {devsw : Devsw} {s : State} {k : Fin NINODE} {off n inum : ℕ}
  {name src : List UInt8}

def Named (sb : Superblock) (k : Fin NINODE) (s : State) : Prop :=
  ∀ e, DIRENT * e < (s.icache k).size →
    deInum (((contents s.cache (s.icache k).toDinode).drop (DIRENT * e)).take DIRENT) < sb.ninodes

namespace Consistent

variable (h : Consistent sb s) (hl : (s.icache k).locked = true)
include h hl

theorem readi (hoff : off < 2 ^ 32) (hn : n < 2 ^ 32) : ∃ r, s.readi sb devsw k off n = .ok (r, s) := by
  obtain ⟨hr, hv⟩ := h.locked k hl
  by_cases ht : (s.icache k).type = T_DEV
  · unfold State.readi
    simp only [if_pos ht]
    split
    · exact ⟨_, rfl⟩
    · split <;> exact ⟨_, rfl⟩
  · exact ⟨_, h.toWellFormed.readi_eq hr hv ht hoff hn⟩

theorem writei (hlen : src.length < 2 ^ 32) :
    Ensures (fun r ↦ Consistent sb r.2) (fun e ↦ e = .ballocOutOfBlocks)
      (s.writei sb devsw k src off) := by
  obtain ⟨hr, hv⟩ := h.locked k hl
  by_cases ht : (s.icache k).type = T_DEV
  · unfold State.writei
    simp only [if_pos ht]
    split
    · exact h
    · split <;> exact h
  · by_cases hok : off ≤ (s.icache k).size ∧ off + src.length < 2 ^ 32 ∧
        off + src.length ≤ MAXFILE * BSIZE
    · refine ((h.toWellFormed.writei_ensures hr hv ht hok.1 hok.2.2).weaken fun e he ↦ he.1).mono
        (fun r ⟨_, w⟩ ↦ h.of_slot w.wellFormed w.others fun _ ↦ ?_)
      obtain ⟨size, addrs, hself⟩ := w.self
      rw [hself]
      exact ⟨hr, hv⟩
    · rw [h.toWellFormed.writei_fails hr hv ht hlen hok]
      exact h

theorem readi_dirent (ht : (s.icache k).type = T_DIR) (hoff : off < (s.icache k).size) :
    s.readi sb devsw k off DIRENT =
      .ok (some (((contents s.cache (s.icache k).toDinode).drop off).take DIRENT), s) := by
  obtain ⟨hr, hv⟩ := h.locked k hl
  have hsize := h.size_le hr hv
  have hlim : MAXFILE * BSIZE = 71680 := by decide
  have hdirent : DIRENT = 16 := rfl
  rw [h.toWellFormed.readi_eq hr hv (by rw [ht]; decide) (by omega) (by omega), if_pos (by omega)]

theorem dirlookupLoop (ht : (s.icache k).type = T_DIR) (hnamed : Named sb k s)
    {l : List ℕ} (hmem : ∀ off ∈ l, off ∈ offsets (s.icache k).size) :
    Ensures (fun r ↦ Consistent sb r.2 ∧ (r.1 = none → r.2 = s) ∧
        ∀ k' off, r.1 = some (k', off) → 0 < (r.2.icache k').ref)
      (fun e ↦ e = .dirlookupRead ∨ e = .igetNoInodes) (s.dirlookupLoop sb devsw k name l) := by
  induction l with
  | nil => exact ⟨h, fun _ ↦ rfl, by simp⟩
  | cons off l ih =>
    obtain ⟨e, rfl, hlt⟩ := mem_offsets (hmem _ (.head _))
    have ih := ih fun off' hoff ↦ hmem off' (.tail _ hoff)
    rw [State.dirlookupLoop, h.readi_dirent hl ht hlt, ok_bind]
    simp only
    split
    · exact .inl rfl
    · split
      · exact ih
      · split
        · refine Ensures.bind (iget_ensures.weaken fun e he ↦ .inr he.1) (fun r hg ↦ ?_)
          refine ⟨h.gets (hnamed e hlt) hg, by simp, fun k' off' he ↦ ?_⟩
          obtain ⟨rfl, rfl⟩ : r.1 = k' ∧ DIRENT * e = off' := by simpa using he
          rcases hg.self with ⟨-, -, hself⟩ | ⟨-, -, hself⟩ <;> simp [hself]
        · exact ih

theorem dirlookup (hnamed : Named sb k s) :
    Ensures (fun r ↦ Consistent sb r.2 ∧ (r.1 = none → r.2 = s ∧ (s.icache k).type = T_DIR) ∧
        ∀ k' off, r.1 = some (k', off) → 0 < (r.2.icache k').ref)
      (fun e ↦ e = .dirlookupNotDir ∨ e = .dirlookupRead ∨ e = .igetNoInodes)
      (s.dirlookup sb devsw k name) := by
  unfold State.dirlookup
  split
  · exact .inl rfl
  · rename_i ht
    rw [not_not] at ht
    exact ((h.dirlookupLoop hl ht hnamed fun _ h ↦ h).weaken fun e he ↦ .inr he).mono
      (fun r hr ↦ ⟨hr.1, fun hn ↦ ⟨hr.2.1 hn, ht⟩, hr.2.2⟩)

theorem dirlinkLoop (ht : (s.icache k).type = T_DIR) {l : List ℕ}
    (hmem : ∀ off ∈ l, off ∈ offsets (s.icache k).size) :
    Ensures (fun r ↦ r.2 = s) (fun e ↦ e = .dirlinkRead) (s.dirlinkLoop sb devsw k l) := by
  induction l with
  | nil => rfl
  | cons off l ih =>
    obtain ⟨e, rfl, hlt⟩ := mem_offsets (hmem _ (.head _))
    rw [State.dirlinkLoop, h.readi_dirent hl ht hlt, ok_bind]
    simp only
    split
    · rfl
    · split
      · rfl
      · exact ih fun off' hoff ↦ hmem off' (.tail _ hoff)

theorem dirlink (hnamed : Named sb k s) :
    Ensures (fun r ↦ Consistent sb r.2) (fun e ↦ e ≠ .freeingFreeBlock)
      (s.dirlink sb devsw k name inum) := by
  refine Ensures.bind ((h.dirlookup hl hnamed).weaken fun e he ↦ ?_) (fun ⟨ip, s₁⟩ ⟨hok, hnone, href⟩ ↦ ?_)
  · rcases he with rfl | rfl | rfl <;> nofun
  · cases ip with
    | some r =>
      refine Ensures.bind ((hok.iput (href _ _ rfl)).weaken fun e he ↦ ?_) (fun s₂ hs ↦ hs)
      rintro rfl
      cases he
    | none =>
      obtain ⟨rfl, ht⟩ := hnone rfl
      refine Ensures.bind ((hok.dirlinkLoop hl ht fun _ h ↦ h).weaken fun e he ↦ ?_)
        (fun ⟨hole, s₁⟩ hs ↦ ?_)
      · rintro rfl
        cases he
      · obtain rfl : s₁ = _ := hs
        refine Ensures.bind ((hok.writei hl (by simp [DIRENT])).weaken fun e he ↦ ?_) (fun r hr ↦ ?_)
        · rintro rfl
          cases he
        · simp only
          split
          · nofun
          · exact hr

end Consistent

end

end Xv6Bfs.Fs

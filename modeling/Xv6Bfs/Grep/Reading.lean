import Xv6Bfs.Grep.Matcher
import Xv6Bfs.Lib.Lines
import Xv6Bfs.Strings.Memmove

namespace Xv6Bfs.Grep

open Function Lib.Lines Strings

def newline : UInt8 := 10

def SIZE : ℕ := 1024

/-- Pointers into `buf` count from its start. -/
def bytes (buf : Memory) (p n : ℕ) : List UInt8 := (List.range' p n).map buf

def string (buf : Memory) (p : ℕ) : List UInt8 := (bytes buf p (SIZE - p)).takeWhile (· ≠ 0)

def strchr (buf : Memory) (p : ℕ) (c : UInt8) : Option ℕ :=
  if c ∈ string buf p then some (p + (string buf p).idxOf c) else none

def lineLoop (pattern : List UInt8) : ℕ → ℕ → Memory → List (List UInt8) × ℕ × Memory
  | 0, p, buf => ([], p, buf)
  | fuel + 1, p, buf =>
    match strchr buf p newline with
    | none => ([], p, buf)
    | some q =>
      let buf := update buf q 0
      if matchText pattern (string buf p) then
        let buf := update buf q newline
        let r := lineLoop pattern fuel (q + 1) buf
        (bytes buf p (q + 1 - p) :: r.1, r.2)
      else lineLoop pattern fuel (q + 1) buf

structure Buffer where
  m : ℕ
  buf : Memory

def Buffer.request (b : Buffer) : ℕ := SIZE - b.m - 1

def fill (m : ℕ) (piece : List UInt8) (buf : Memory) : Memory := fun a ↦
  if m ≤ a ∧ a < m + piece.length then piece.getD (a - m) 0 else buf a

/-- A turn of the outer loop, after `read` has returned `piece`. -/
def Buffer.round (pattern piece : List UInt8) (b : Buffer) : List (List UInt8) × Buffer :=
  let buf := fill b.m piece b.buf
  let m := b.m + piece.length
  let buf := update buf m 0
  let (out, p, buf) := lineLoop pattern SIZE 0 buf
  let m := if p = 0 then 0 else m
  if 0 < m then (out, ⟨m - p, (ulibMemmove 0 p (m - p) buf).2⟩) else (out, ⟨m, buf⟩)

/-- `grep`, for the pieces that `read` returns until it has nothing more. -/
def Buffer.grep (pattern : List UInt8) : List (List UInt8) → Buffer → List (List UInt8) × Buffer
  | [], b => ([], b)
  | piece :: pieces, b =>
    let r := b.round pattern piece
    let r' := r.2.grep pattern pieces
    (r.1 ++ r'.1, r'.2)

def Buffer.Reads (pattern : List UInt8) : List (List UInt8) → Buffer → Prop
  | [], _ => True
  | piece :: pieces, b =>
    piece ≠ [] ∧ piece.length ≤ b.request ∧ (b.round pattern piece).2.Reads pattern pieces

def Buffer.start : Buffer := ⟨0, fun _ ↦ 0⟩

def matching (pattern t : List UInt8) : List (List UInt8) :=
  ((terminated newline t).filter (matchText pattern)).map (· ++ [newline])

section Bytes

variable {buf buf' : Memory} {p n k : ℕ}

theorem bytes_add : bytes buf p (n + k) = bytes buf p n ++ bytes buf (p + n) k := by
  rw [bytes, bytes, bytes, ← List.map_append, List.range'_append_1]

theorem bytes_one : bytes buf p 1 = [buf p] := rfl

theorem bytes_congr (h : ∀ a, p ≤ a → a < p + n → buf' a = buf a) : bytes buf' p n = bytes buf p n := by
  refine List.map_congr_left fun a ha ↦ ?_
  obtain ⟨h₁, h₂⟩ := List.mem_range'_1.mp ha
  exact h a h₁ h₂

theorem memmove_bytes (h : p + n ≤ SIZE) : bytes (ulibMemmove 0 p n buf).2 0 n = bytes buf p n := by
  have hsize : SIZE < 2 ^ 31 := by decide
  have hmoved : Moved 0 p n buf (ulibMemmove 0 p n buf).2 := by
    rw [ulibMemmove, if_pos (by omega)]
    exact copyUp_moved (by omega) (by omega) (by omega)
  refine List.ext_getElem (by simp [bytes]) fun i hi hi' ↦ ?_
  simp only [bytes, List.length_map, List.length_range'] at hi
  simpa [bytes] using hmoved.copied i hi

end Bytes

structure IsText (buf : Memory) (p : ℕ) (t : List UInt8) : Prop where
  stored : bytes buf p t.length = t
  ended : buf (p + t.length) = 0
  room : p + t.length < SIZE
  clean : 0 ∉ t

namespace IsText

variable {buf buf' : Memory} {p : ℕ} {t l r : List UInt8}

theorem string_eq (h : IsText buf p t) : string buf p = t := by
  have hroom := h.room
  obtain ⟨k, hk⟩ : ∃ k, SIZE - p = t.length + (1 + k) := ⟨SIZE - p - t.length - 1, by omega⟩
  have hclean : ∀ x ∈ t, decide (x ≠ 0) = true := fun x hx ↦ decide_eq_true fun h0 ↦ h.clean (h0 ▸ hx)
  rw [string, hk, bytes_add, bytes_add, h.stored, bytes_one, h.ended,
    List.takeWhile_append_of_pos hclean, List.singleton_append,
    List.takeWhile_cons_of_neg (by decide), List.append_nil]

theorem above (h : IsText buf p t) (hbuf : ∀ a, p ≤ a → buf' a = buf a) : IsText buf' p t where
  stored := by rw [bytes_congr fun a ha _ ↦ hbuf a ha, h.stored]
  ended := by rw [hbuf _ (Nat.le_add_right _ _), h.ended]
  room := h.room
  clean := h.clean

theorem strchr_none (h : IsText buf p t) (hno : newline ∉ t) : strchr buf p newline = none := by
  rw [strchr, h.string_eq, if_neg hno]

section Line

variable (h : IsText buf p (l ++ newline :: r))

include h

theorem strchr_line (hl : newline ∉ l) : strchr buf p newline = some (p + l.length) := by
  rw [strchr, h.string_eq, if_pos (by simp), List.idxOf_append_of_notMem hl, List.idxOf_cons_self,
    Nat.add_zero]

theorem bytes_line : bytes buf p l.length = l ∧ buf (p + l.length) = newline ∧
    bytes buf (p + l.length + 1) r.length = r := by
  have hst := h.stored
  rw [List.length_append, List.length_cons, Nat.add_comm r.length 1, bytes_add, bytes_add,
    bytes_one] at hst
  obtain ⟨hl, hr⟩ := List.append_inj hst (by simp [bytes])
  obtain ⟨hnl, hr⟩ := List.cons.inj hr
  exact ⟨hl, hnl, hr⟩

theorem cut : IsText (update buf (p + l.length) 0) p l where
  stored := by
    rw [bytes_congr fun a _ ha ↦ update_of_ne (by omega) _ _]
    exact h.bytes_line.1
  ended := update_self _ _ _
  room := by
    have hroom := h.room
    rw [List.length_append] at hroom
    omega
  clean := fun h0 ↦ h.clean (List.mem_append_left _ h0)

theorem next : IsText buf (p + l.length + 1) r where
  stored := h.bytes_line.2.2
  ended := by
    have hend := h.ended
    rw [List.length_append, List.length_cons] at hend
    rw [← hend]
    congr 1
    omega
  room := by
    have hroom := h.room
    rw [List.length_append, List.length_cons] at hroom
    omega
  clean := fun h0 ↦ h.clean (List.mem_append_right _ (List.mem_cons_of_mem _ h0))

end Line

end IsText

variable {pattern t l r c piece rest : List UInt8} {pieces : List (List UInt8)} {b b' : Buffer}

theorem matching_of_not_mem (h : newline ∉ t) : matching pattern t = [] := by
  rw [matching, terminated_of_not_mem h]
  rfl

theorem matching_line (hl : newline ∉ l) (r : List UInt8) :
    matching pattern (l ++ newline :: r) =
      if matchText pattern l then (l ++ [newline]) :: matching pattern r else matching pattern r := by
  rw [matching, terminated_line hl, List.filter_cons]
  split <;> rfl

theorem matching_append (s t : List UInt8) :
    matching pattern (s ++ t) = matching pattern s ++ matching pattern (unfinished newline s ++ t) := by
  rw [matching, terminated_append, List.filter_append, List.map_append]
  rfl

def lastLine (t : List UInt8) : ℕ := t.length - (unfinished newline t).length

theorem lastLine_of_not_mem (h : newline ∉ t) : lastLine t = 0 := by
  rw [lastLine, unfinished_of_not_mem h, Nat.sub_self]

theorem lastLine_line (hl : newline ∉ l) (r : List UInt8) :
    lastLine (l ++ newline :: r) = l.length + 1 + lastLine r := by
  have hle := unfinished_length_le newline r
  rw [lastLine, lastLine, unfinished_line hl, List.length_append, List.length_cons]
  omega

theorem lineLoop_spec (pattern : List UInt8) {fuel p : ℕ} {buf : Memory}
    (h : IsText buf p t) (hfuel : t.length < fuel) :
    ∃ buf', lineLoop pattern fuel p buf = (matching pattern t, p + lastLine t, buf') ∧
      IsText buf' (p + lastLine t) (unfinished newline t) := by
  induction t using lines_induction newline generalizing fuel p buf with
  | last t ht =>
    obtain ⟨fuel, rfl⟩ := Nat.exists_eq_succ_of_ne_zero (Nat.ne_zero_of_lt hfuel)
    refine ⟨buf, ?_, ?_⟩
    · rw [lineLoop, h.strchr_none ht, matching_of_not_mem ht, lastLine_of_not_mem ht]
      rfl
    · rwa [unfinished_of_not_mem ht, lastLine_of_not_mem ht]
  | line l r hl ih =>
    obtain ⟨fuel, rfl⟩ := Nat.exists_eq_succ_of_ne_zero (Nat.ne_zero_of_lt hfuel)
    rw [List.length_append, List.length_cons] at hfuel
    rw [lineLoop, h.strchr_line hl, matching_line hl, lastLine_line hl, unfinished_line hl]
    dsimp only
    rw [h.cut.string_eq, show p + (l.length + 1 + lastLine r) = p + l.length + 1 + lastLine r by omega]
    split
    · have hback : update (update buf (p + l.length) 0) (p + l.length) newline = buf := by
        rw [update_idem, ← h.bytes_line.2.1, update_eq_self]
      obtain ⟨buf', hloop, htext⟩ := ih h.next (show r.length < fuel by omega)
      refine ⟨buf', ?_, htext⟩
      rw [hback, hloop, show p + l.length + 1 - p = l.length + 1 by omega, bytes_add, h.bytes_line.1,
        bytes_one, h.bytes_line.2.1]
    · have habove : IsText (update buf (p + l.length) 0) (p + l.length + 1) r :=
        h.next.above fun a ha ↦ update_of_ne (by omega) _ _
      exact ih habove (show r.length < fuel by omega)

structure Buffer.Holds (b : Buffer) (c : List UInt8) : Prop where
  length : b.m = c.length
  stored : bytes b.buf 0 c.length = c
  clean : 0 ∉ c
  oneLine : newline ∉ c

theorem start_holds : Buffer.start.Holds [] := ⟨rfl, rfl, List.not_mem_nil, List.not_mem_nil⟩

def kept (t : List UInt8) : List UInt8 := if newline ∈ t then unfinished newline t else []

namespace Buffer.Holds

theorem filled (h : b.Holds c) (hpiece : 0 ∉ piece) (hlen : piece.length ≤ b.request)
    (hne : piece ≠ []) :
    IsText (update (fill b.m piece b.buf) (b.m + piece.length) 0) 0 (c ++ piece) where
  stored := by
    have hold : bytes (fill b.m piece b.buf) 0 c.length = bytes b.buf 0 c.length := by
      refine bytes_congr fun a _ ha ↦ if_neg ?_
      rw [h.length]
      omega
    have hnew : bytes (fill b.m piece b.buf) (0 + c.length) piece.length = piece := by
      refine List.ext_getElem (by simp [bytes]) fun i hi hi' ↦ ?_
      simp [bytes, fill, h.length, hi']
    have hend : ∀ a, 0 ≤ a → a < 0 + (c ++ piece).length →
        update (fill b.m piece b.buf) (b.m + piece.length) 0 a = fill b.m piece b.buf a := by
      intro a _ ha
      rw [List.length_append, ← h.length] at ha
      exact update_of_ne (by omega) _ _
    rw [bytes_congr hend, List.length_append, bytes_add, hold, hnew, h.stored]
  ended := by rw [Nat.zero_add, List.length_append, ← h.length, update_self]
  room := by
    have hpos := List.length_pos_of_ne_nil hne
    rw [request, h.length] at hlen
    rw [List.length_append]
    omega
  clean := by
    rw [List.mem_append]
    exact not_or.mpr ⟨h.clean, hpiece⟩

theorem round (pattern : List UInt8) (h : b.Holds c) (hpiece : 0 ∉ piece)
    (hlen : piece.length ≤ b.request) (hne : piece ≠ []) :
    (b.round pattern piece).1 = matching pattern (c ++ piece) ∧
      (b.round pattern piece).2.Holds (kept (c ++ piece)) := by
  have htext := h.filled hpiece hlen hne
  have hfuel : (c ++ piece).length < SIZE := by
    have hroom := htext.room
    omega
  have hlength : b.m + piece.length = (c ++ piece).length := by rw [List.length_append, h.length]
  obtain ⟨buf', hloop, hrest⟩ := lineLoop_spec pattern htext hfuel
  rw [Buffer.round]
  dsimp only
  rw [hlength] at hloop ⊢
  rw [hloop, Nat.zero_add] at *
  dsimp only
  by_cases hmem : newline ∈ c ++ piece
  · have hlt := unfinished_length_lt hmem
    have hcount : (c ++ piece).length - lastLine (c ++ piece) =
        (unfinished newline (c ++ piece)).length := by
      rw [lastLine]
      omega
    have hlast : lastLine (c ++ piece) ≠ 0 := by
      rw [lastLine]
      omega
    rw [if_neg hlast, if_pos (by omega), kept, if_pos hmem, hcount]
    refine ⟨rfl, rfl, ?_, hrest.clean, not_mem_unfinished newline _⟩
    dsimp only
    rw [memmove_bytes (Nat.le_of_lt hrest.room), hrest.stored]
  · rw [lastLine_of_not_mem hmem, if_pos rfl, if_neg (by decide), kept, if_neg hmem]
    exact ⟨rfl, rfl, rfl, List.not_mem_nil, List.not_mem_nil⟩

end Buffer.Holds

def Whole (pieces : List (List UInt8)) : Prop :=
  pieces.Pairwise fun piece later ↦ newline ∈ later → newline ∈ piece

instance (pieces : List (List UInt8)) : Decidable (Whole pieces) :=
  inferInstanceAs (Decidable (List.Pairwise _ _))

def Short (t : List UInt8) : Prop := ∀ l ∈ t.splitOn newline, l.length < 1023

instance (t : List UInt8) : Decidable (Short t) :=
  inferInstanceAs (Decidable (∀ l ∈ t.splitOn newline, l.length < 1023))

theorem matching_kept (hc : newline ∉ c) (hwhole : newline ∈ rest → newline ∈ piece) :
    matching pattern (c ++ piece) ++ matching pattern (kept (c ++ piece) ++ rest) =
      matching pattern (c ++ piece ++ rest) := by
  by_cases hmem : newline ∈ c ++ piece
  · rw [matching_append (c ++ piece) rest, kept, if_pos hmem]
  · have hpiece : newline ∉ piece := fun h ↦ hmem (List.mem_append_right _ h)
    have hrest : newline ∉ rest := fun h ↦ hpiece (hwhole h)
    have hall : newline ∉ c ++ piece ++ rest := by simp [hc, hpiece, hrest]
    rw [kept, if_neg hmem, List.nil_append, matching_of_not_mem hmem, matching_of_not_mem hrest,
      matching_of_not_mem hall, List.nil_append]

theorem short_kept (hc : newline ∉ c)
    (hwhole : newline ∈ rest → newline ∈ piece) (h : Short (c ++ piece ++ rest)) :
    Short (kept (c ++ piece) ++ rest) := by
  intro l hl
  by_cases hmem : newline ∈ c ++ piece
  · rw [kept, if_pos hmem] at hl
    refine h l ?_
    rw [splitOn_append]
    exact List.mem_append_right _ hl
  · have hpiece : newline ∉ piece := fun h ↦ hmem (List.mem_append_right _ h)
    have hrest : newline ∉ rest := fun h ↦ hpiece (hwhole h)
    have hall : newline ∉ c ++ piece ++ rest := by simp [hc, hpiece, hrest]
    rw [kept, if_neg hmem, List.nil_append, splitOn_of_not_mem hrest, List.mem_singleton] at hl
    have hlen := h (c ++ piece ++ rest) (by rw [splitOn_of_not_mem hall]; exact List.mem_singleton_self _)
    rw [List.length_append] at hlen
    rw [hl]
    omega

theorem Buffer.Holds.grep (h : b.Holds c)
    (hclean : 0 ∉ pieces.flatten) (hreads : b.Reads pattern pieces) (hwhole : Whole pieces)
    (hshort : Short (c ++ pieces.flatten)) :
    (b.grep pattern pieces).1 = matching pattern (c ++ pieces.flatten) ∧
      0 < (b.grep pattern pieces).2.request := by
  induction pieces generalizing b c with
  | nil =>
    rw [List.flatten_nil, List.append_nil] at hshort ⊢
    have hlen := hshort c (by rw [splitOn_of_not_mem h.oneLine]; exact List.mem_singleton_self _)
    refine ⟨(matching_of_not_mem h.oneLine).symm, ?_⟩
    rw [Buffer.grep, request, h.length, SIZE]
    omega
  | cons piece pieces ih =>
    obtain ⟨hne, hlen, hreads⟩ := hreads
    obtain ⟨hfirst, hwhole⟩ := List.pairwise_cons.mp hwhole
    have hlater : newline ∈ pieces.flatten → newline ∈ piece := by
      intro hmem
      obtain ⟨later, hlater, hmem⟩ := List.mem_flatten.mp hmem
      exact hfirst later hlater hmem
    rw [List.flatten_cons, List.mem_append, not_or] at hclean
    rw [List.flatten_cons, ← List.append_assoc] at hshort ⊢
    obtain ⟨hout, hround⟩ := h.round pattern hclean.1 hlen hne
    obtain ⟨hrest, hlast⟩ := ih hround hclean.2 hreads hwhole (short_kept h.oneLine hlater hshort)
    rw [Buffer.grep]
    refine ⟨?_, hlast⟩
    dsimp only
    rw [hout, hrest, matching_kept h.oneLine hlater]

theorem Buffer.Holds.reads {pattern' : List UInt8} (h : b.Holds c) (h' : b'.Holds c)
    (hclean : 0 ∉ pieces.flatten)
    (hreads : b.Reads pattern pieces) : b'.Reads pattern' pieces := by
  induction pieces generalizing b b' c with
  | nil => trivial
  | cons piece pieces ih =>
    obtain ⟨hne, hlen, hreads⟩ := hreads
    rw [List.flatten_cons, List.mem_append, not_or] at hclean
    have hlen' : piece.length ≤ b'.request := by rwa [request, h'.length, ← h.length]
    exact ⟨hne, hlen', ih (h.round pattern hclean.1 hlen hne).2 (h'.round pattern' hclean.1 hlen' hne).2
      hclean.2 hreads⟩

/-- Every line matches the empty pattern. -/
theorem length_matching_nil (t : List UInt8) : (matching [] t).flatten.length = lastLine t := by
  induction t using lines_induction newline with
  | last t ht => rw [matching_of_not_mem ht, lastLine_of_not_mem ht, List.flatten_nil, List.length_nil]
  | line l r hl ih =>
    rw [matching_line hl, if_pos (by cases l <;> rfl), List.flatten_cons, List.length_append, ih,
      lastLine_line hl, List.length_append, List.length_singleton]

theorem lastLine_append_of_not_mem (ht : newline ∉ t) (hr : newline ∈ r) :
    lastLine (t ++ r) = t.length + lastLine r := by
  obtain ⟨l, r, rfl, hl⟩ := List.eq_append_cons_of_mem hr
  rw [← List.append_assoc, lastLine_line (by simp [ht, hl]), lastLine_line hl, List.length_append]
  omega

/-- The lines that end are lost in part when a piece without a newline is followed by one with a
newline, for the buffer is then emptied. -/
theorem Buffer.Holds.length_grep (h : b.Holds c) (hclean : 0 ∉ pieces.flatten)
    (hreads : b.Reads [] pieces) :
    (b.grep [] pieces).1.flatten.length ≤ lastLine (c ++ pieces.flatten) ∧
      ((b.grep [] pieces).1.flatten.length = lastLine (c ++ pieces.flatten) → Whole pieces) := by
  induction pieces generalizing b c with
  | nil => exact ⟨Nat.zero_le _, fun _ ↦ .nil⟩
  | cons piece pieces ih =>
    obtain ⟨hne, hlen, hreads⟩ := hreads
    have hpos := List.length_pos_of_ne_nil hne
    rw [List.flatten_cons, List.mem_append, not_or] at hclean
    obtain ⟨hout, hround⟩ := h.round [] hclean.1 hlen hne
    obtain ⟨hle, hwhole⟩ := ih hround hclean.2 hreads
    rw [Buffer.grep, List.flatten_cons, ← List.append_assoc]
    dsimp only
    rw [hout, List.flatten_append, List.length_append, length_matching_nil]
    by_cases hmem : newline ∈ c ++ piece
    · have hpiece := (List.mem_append.mp hmem).resolve_left h.oneLine
      have hsum : lastLine (c ++ piece ++ pieces.flatten) =
          lastLine (c ++ piece) + lastLine (unfinished newline (c ++ piece) ++ pieces.flatten) := by
        simp only [← length_matching_nil]
        rw [matching_append, List.flatten_append, List.length_append]
      rw [kept, if_pos hmem] at hle hwhole
      rw [hsum]
      exact ⟨Nat.add_le_add_left hle _,
        fun heq ↦ .cons (fun _ _ _ ↦ hpiece) (hwhole (Nat.add_left_cancel heq))⟩
    · rw [kept, if_neg hmem, List.nil_append] at hle hwhole
      rw [lastLine_of_not_mem hmem, Nat.zero_add]
      by_cases hlater : newline ∈ pieces.flatten
      · rw [lastLine_append_of_not_mem hmem hlater, List.length_append]
        exact ⟨by omega, fun heq ↦ by omega⟩
      · have hnone (later : List UInt8) (hl : later ∈ pieces) : newline ∉ later :=
          fun hm ↦ hlater (List.mem_flatten.mpr ⟨later, hl, hm⟩)
        rw [lastLine_of_not_mem hlater] at hle hwhole
        rw [lastLine_of_not_mem (by simp only [List.mem_append, not_or] at hmem ⊢; exact ⟨hmem, hlater⟩)]
        exact ⟨hle, fun heq ↦ .cons (fun later hl hm ↦ absurd hm (hnone later hl)) (hwhole heq)⟩

/-- The output is the lines that match, whatever the pattern is, exactly when no piece without a
newline comes before one with a newline. The last `read` has then asked for something, so it is the
end of the stream that ends the loop. -/
theorem grep_writes_matching_lines {pieces : List (List UInt8)} (hclean : 0 ∉ pieces.flatten)
    (hshort : Short pieces.flatten) (hreads : Buffer.start.Reads pattern pieces) :
    (∀ pattern, (Buffer.start.grep pattern pieces).1 =
        ((terminated newline pieces.flatten).filter (matchText pattern)).map (· ++ [newline]) ∧
      0 < (Buffer.start.grep pattern pieces).2.request) ↔ Whole pieces := by
  have hany (pattern' : List UInt8) : Buffer.start.Reads pattern' pieces :=
    start_holds.reads start_holds hclean hreads
  constructor
  · intro h
    refine (start_holds.length_grep hclean (hany [])).2 ?_
    rw [(h []).1]
    exact length_matching_nil pieces.flatten
  · exact fun hwhole pattern' ↦ start_holds.grep hclean (hany pattern') hwhole hshort

theorem grep_writes_matching_lines_two :
    (Buffer.start.grep [97] [[97, 98, 10, 99], [100, 10, 97, 10]]).1 = [[97, 98, 10], [97, 10]] := by
  have hreads : Buffer.start.Reads [97] [[97, 98, 10, 99], [100, 10, 97, 10]] :=
    ⟨by decide, by decide, by decide, by decide +kernel, trivial⟩
  exact ((grep_writes_matching_lines (by decide) (by decide) hreads).mpr (by decide) [97]).1

/-- The line `abc` comes in two pieces. Of it only `c` is written. -/
theorem grep_drops_first_piece :
    (0 : UInt8) ∉ [[97, 98], [99, 10]].flatten ∧ Short [[97, 98], [99, 10]].flatten ∧
      Buffer.start.Reads [] [[97, 98], [99, 10]] ∧
      terminated newline [[97, 98], [99, 10]].flatten = [[97, 98, 99]] ∧
      matchText [] [97, 98, 99] = true ∧
      (Buffer.start.grep [] [[97, 98], [99, 10]]).1 = [[99, 10]] := by
  have hreads : Buffer.start.Reads [] [[97, 98], [99, 10]] :=
    ⟨by decide, by decide, by decide, by decide +kernel, trivial⟩
  exact ⟨by decide, by decide, hreads, by decide, by decide, by decide +kernel⟩

end Xv6Bfs.Grep

import Mathlib.Data.List.GetD
import Xv6Bfs.Shell.Program

namespace Xv6Bfs.Shell

open Lib.Execution

section Skip

variable {line : List Char} {f : Char → Bool} {s : ℕ}

theorem drop_eq_char (h : s < line.length) : line.drop s = char line s :: line.drop (s + 1) := by
  rw [List.drop_eq_getElem_cons h, char, List.getD_eq_getElem _ _ h]

theorem skip_stop (h : s < line.length → f (char line s) = false) : skip line f s = s := by
  by_cases hs : s < line.length
  · rw [skip, drop_eq_char hs, List.takeWhile_cons_of_neg (by simp [h hs])]
    rfl
  · rw [skip, List.drop_of_length_le (Nat.le_of_not_lt hs)]
    rfl

theorem skip_go (hs : s < line.length) (h : f (char line s) = true) :
    skip line f s = skip line f (s + 1) := by
  rw [skip, drop_eq_char hs, List.takeWhile_cons_of_pos h, List.length_cons, skip]
  omega

structure Skipped (line : List Char) (f : Char → Bool) (s e : ℕ) : Prop where
  le : s ≤ e
  le_length : e ≤ line.length
  inside : ∀ i, s ≤ i → i < e → f (char line i) = true
  outside : e < line.length → f (char line e) = false

theorem skipped (h : s ≤ line.length) : Skipped line f s (skip line f s) := by
  induction hn : line.length - s generalizing s with
  | zero =>
    rw [skip_stop (by omega)]
    exact ⟨Nat.le_refl s, h, by omega, by omega⟩
  | succ n ih =>
    have hs : s < line.length := by omega
    cases hf : f (char line s) with
    | false =>
      rw [skip_stop (fun _ ↦ hf)]
      exact ⟨Nat.le_refl s, h, by omega, fun _ ↦ hf⟩
    | true =>
      rw [skip_go hs hf]
      have hk := ih (show s + 1 ≤ line.length from hs) (by omega)
      refine ⟨Nat.le_of_succ_le hk.le, hk.le_length, fun i h1 h2 ↦ ?_, hk.outside⟩
      rcases Nat.eq_or_lt_of_le h1 with rfl | h1
      · exact hf
      · exact hk.inside i h1 h2

theorem skip_skip (h : s ≤ line.length) : skip line f (skip line f s) = skip line f s :=
  skip_stop (skipped h).outside

end Skip

def tokensFrom (line : List Char) : ℕ → ℕ → List Token
  | 0, _ => []
  | fuel + 1, s =>
    match gettoken line s with
    | (some t, s) => t :: tokensFrom line fuel s
    | (none, _) => []

def tokens (line : List Char) : List Token := tokensFrom line (line.length + 1) 0

def Token.first : Token → Option Char
  | .bar => some '|'
  | .lparen => some '('
  | .rparen => some ')'
  | .semi => some ';'
  | .amp => some '&'
  | .lt => some '<'
  | .gt => some '>'
  | .gtgt => some '>'
  | .word _ => none

structure Span.Good (line : List Char) (w : Span) : Prop where
  lt : w.q < w.eq
  le_length : w.eq ≤ line.length
  inside : ∀ i, w.q ≤ i → i < w.eq → isWord (char line i) = true
  outside : w.eq < line.length → isWord (char line w.eq) = false

section Scan

variable {line : List Char} {s e : ℕ} {t : Token}

theorem char_ne_nul (hline : NUL ∉ line) (hs : s < line.length) : char line s ≠ NUL := by
  rw [char, List.getD_eq_getElem _ _ hs]
  exact fun h ↦ hline (h ▸ List.getElem_mem hs)

theorem char_length (hs : line.length ≤ s) : char line s = NUL := by
  rw [char, List.getD_eq_default _ _ hs]

theorem single_some {c : Char} (h : single c = some t) : t.first = some c := by
  unfold single at h
  split_ifs at h with h1 h2 h3 h4 h5 h6 <;> cases h <;> simp only [Token.first, *]

theorem single_none {c : Char} (h : single c = none) (hc : c ≠ '>') (hw : isWhite c = false) :
    isWord c = true := by
  unfold single at h
  split_ifs at h with h1 h2 h3 h4 h5 h6
  simp_all [isWord, isWhite, symbols]

theorem isWord_not_symbol {c : Char} (h : isWord c = true) {cs : List Char} (hcs : cs ⊆ symbols) :
    c ∉ cs := by
  simp only [isWord, Bool.and_eq_true, Bool.not_eq_true', List.contains_eq_mem, decide_eq_false_iff_not] at h
  exact fun hc ↦ h.2 (hcs hc)

/-- What `scan` finds where there is no blank. -/
inductive Scanned (line : List Char) (s : ℕ) : Option Token → ℕ → Prop
  | done : s = line.length → Scanned line s none s
  | sym {t : Token} {e : ℕ} : s < line.length → t.first = some (char line s) → s < e → e ≤ line.length →
    Scanned line s (some t) e
  | word {e : ℕ} : s < line.length → Span.Good line ⟨s, e⟩ → Scanned line s (some (.word ⟨s, e⟩)) e

variable (hline : NUL ∉ line) (hs : s ≤ line.length)
include hline hs

theorem scanned (hw : s < line.length → isWhite (char line s) = false) :
    Scanned line s (scan line s).1 (scan line s).2 := by
  unfold scan
  rcases Nat.eq_or_lt_of_le hs with he | hs
  · rw [if_pos (char_length (Nat.le_of_eq he.symm))]
    exact .done he
  rw [if_neg (char_ne_nul hline hs)]
  cases hsing : single (char line s) with
  | some t => exact .sym hs (single_some hsing) (Nat.lt_succ_self s) hs
  | none =>
    dsimp only
    split_ifs with hgt hgt'
    · have hs' : s + 1 < line.length := by
        by_contra hle
        rw [char_length (by omega)] at hgt'
        exact absurd hgt' (by decide)
      exact .sym hs (by rw [hgt]; rfl) (by omega) hs'
    · exact .sym hs (by rw [hgt]; rfl) (Nat.lt_succ_self s) hs
    · have hword := single_none hsing hgt (hw hs)
      have hk := skipped (f := isWord) (show s + 1 ≤ line.length from hs)
      have hall := skipped (f := isWord) (Nat.le_of_lt hs)
      rw [← skip_go hs hword] at hk
      exact .word hs ⟨hk.le, hall.le_length, hall.inside, hall.outside⟩

theorem gettoken_scanned :
    ∃ r e, Scanned line (skip line isWhite s) r e ∧
      gettoken line s = (r, skip line isWhite e) ∧ e ≤ line.length := by
  have hk := skipped (f := isWhite) hs
  have hsc := scanned hline hk.le_length hk.outside
  refine ⟨_, _, hsc, rfl, ?_⟩
  revert hsc
  generalize (scan line (skip line isWhite s)).1 = r
  generalize (scan line (skip line isWhite s)).2 = e
  intro hsc
  cases hsc with
  | done h => exact Nat.le_of_eq h
  | sym _ _ _ h => exact h
  | word _ h => exact h.le_length

theorem gettoken_some (h : gettoken line s = (some t, e)) : s < e ∧ e ≤ line.length := by
  obtain ⟨r, e', hsc, hg, he⟩ := gettoken_scanned hline hs
  rw [hg] at h
  have hk := skipped (f := isWhite) hs
  have hk' := skipped (f := isWhite) he
  cases h
  have hlt : skip line isWhite s < e' := by
    cases hsc with
    | sym _ _ h _ => exact h
    | word _ h => exact h.lt
  exact ⟨Nat.lt_of_le_of_lt hk.le (Nat.lt_of_lt_of_le hlt hk'.le), hk'.le_length⟩

theorem tokensFrom_fuel {m n : ℕ} (hm : line.length < s + m) (hn : line.length < s + n) :
    tokensFrom line m s = tokensFrom line n s := by
  induction m generalizing s n with
  | zero => omega
  | succ m ih =>
    obtain _ | n := n
    · omega
    rw [tokensFrom, tokensFrom]
    cases hg : gettoken line s with
    | mk r e =>
      cases r with
      | none => rfl
      | some t =>
        obtain ⟨hlt, hle⟩ := gettoken_some hline hs hg
        dsimp only
        rw [ih hle (by omega) (show line.length < e + n by omega)]

theorem tokensFrom_good {n : ℕ} {w : Span} (h : .word w ∈ tokensFrom line n s) : w.Good line := by
  induction n generalizing s with
  | zero => cases h
  | succ n ih =>
    obtain ⟨r, e, hsc, hg, he⟩ := gettoken_scanned hline hs
    have hle := (skipped (f := isWhite) he).le_length
    rw [tokensFrom, hg] at h
    cases hsc with
    | done _ => cases h
    | sym _ hfirst _ _ =>
      rcases List.mem_cons.mp h with rfl | h
      · cases hfirst
      · exact ih hle h
    | word _ hgood =>
      rcases List.mem_cons.mp h with hw | h
      · cases hw
        exact hgood
      · exact ih hle h

end Scan

structure View (line : List Char) (s : ℕ) (ts : List Token) : Prop where
  le_length : s ≤ line.length
  tokens : tokensFrom line (line.length + 1) s = ts

def starts (cs : List Char) (ts : List Token) : Bool :=
  match ts with
  | [] => false
  | t :: _ => t.first.any cs.contains

namespace View

variable {line : List Char} {s : ℕ} {t : Token} {ts : List Token}

theorem start (line : List Char) : View line 0 (Shell.tokens line) := ⟨Nat.zero_le _, rfl⟩

theorem skip (h : View line s ts) : View line (Shell.skip line isWhite s) ts := by
  refine ⟨(skipped h.le_length).le_length, ?_⟩
  rw [← h.tokens, tokensFrom, tokensFrom, gettoken, skip_skip h.le_length]
  rfl

variable (hline : NUL ∉ line)
include hline

theorem get (h : View line s (t :: ts)) : ∃ e, gettoken line s = (some t, e) ∧ View line e ts := by
  have ht := h.tokens
  rw [tokensFrom] at ht
  cases hg : gettoken line s with
  | mk r e =>
    rw [hg] at ht
    cases r with
    | none => cases ht
    | some t' =>
      obtain ⟨hlt, hle⟩ := gettoken_some hline h.le_length hg
      cases ht
      exact ⟨e, rfl, hle, tokensFrom_fuel hline hle (by omega) (by omega)⟩

theorem get_nil (h : View line s []) :
    ∃ e, gettoken line s = (none, e) ∧ View line e [] ∧ Shell.skip line isWhite s = line.length := by
  have ht := h.tokens
  obtain ⟨r, e, hsc, hg, -⟩ := gettoken_scanned hline h.le_length
  rw [tokensFrom, hg] at ht
  cases hsc with
  | done hd => exact ⟨_, hg, h.skip.skip, hd⟩
  | sym _ _ _ _ => cases ht
  | word _ _ => cases ht

theorem length_le (h : View line s ts) : ts.length + s ≤ line.length := by
  induction ts generalizing s with
  | nil => simpa using h.le_length
  | cons t ts ih =>
    obtain ⟨e, hg, he⟩ := h.get hline
    have := gettoken_some hline h.le_length hg
    have := ih he
    rw [List.length_cons]
    omega

theorem eq_nil_iff (h : View line s ts) : Shell.skip line isWhite s = line.length ↔ ts = [] := by
  constructor
  · intro hs
    obtain ⟨r, e, hsc, hg, -⟩ := gettoken_scanned hline h.le_length
    have ht := h.tokens
    rw [tokensFrom, hg] at ht
    cases hsc with
    | done _ => exact ht.symm
    | sym hlt _ _ _ => omega
    | word hlt _ => omega
  · rintro rfl
    obtain ⟨e, -, -, hs⟩ := h.get_nil hline
    exact hs

theorem peek (h : View line s ts) (cs : List Char) (hcs : cs ⊆ symbols) :
    ∃ e, Shell.peek line cs s = (starts cs ts, e) ∧ View line e ts := by
  refine ⟨_, ?_, h.skip⟩
  obtain ⟨r, e, hsc, hg, -⟩ := gettoken_scanned hline h.le_length
  have ht := h.tokens
  rw [tokensFrom, hg] at ht
  rw [Shell.peek]
  refine Prod.ext ?_ rfl
  dsimp only
  cases hsc with
  | done hd =>
    rw [char_length (Nat.le_of_eq hd.symm), ← ht]
    simp [starts]
  | sym hlt hfirst _ _ =>
    rw [← ht, starts, hfirst]
    simp [char_ne_nul hline hlt]
  | word hlt hgood =>
    have hc := isWord_not_symbol (hgood.inside _ (Nat.le_refl _) hgood.lt) hcs
    rw [← ht]
    simp [starts, Token.first, hc]

end View

end Xv6Bfs.Shell

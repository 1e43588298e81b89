import Mathlib.Computability.Language
import Mathlib.Data.UInt

namespace Xv6Bfs.Grep

open scoped Computability

def caret : UInt8 := 94

def dollar : UInt8 := 36

def dot : UInt8 := 46

def asterisk : UInt8 := 42

def fits (c x : UInt8) : Bool := c == dot || c == x

/-- Here `here` is `matchhere` of the pattern that follows the star. -/
def matchstar (here : List UInt8 → Bool) (c : UInt8) : List UInt8 → Bool
  | [] => here []
  | x :: text => here (x :: text) || (x == c || c == dot) && matchstar here c text

/-- `*text!='\0' && (re[0]=='.' || re[0]==*text)`, and then the rest of the pattern. -/
def matchone (c : UInt8) (here : List UInt8 → Bool) : List UInt8 → Bool
  | [] => false
  | x :: text => fits c x && here text

/-- Strings are the lists of the characters before the `'\0'`. -/
def matchhere : List UInt8 → List UInt8 → Bool
  | [], _ => true
  | [c], text =>
    if c = dollar then text.isEmpty
    else matchone c (matchhere []) text
  | c :: d :: re, text =>
    if d = asterisk then matchstar (matchhere re) c text
    else matchone c (matchhere (d :: re)) text

def searchLoop (here : List UInt8 → Bool) : List UInt8 → Bool
  | [] => here []
  | x :: text => here (x :: text) || searchLoop here text

def matchText (re text : List UInt8) : Bool :=
  if re.head? = some caret then matchhere re.tail text
  else searchLoop (matchhere re) text

/-- What a pattern is made of, besides its anchors. -/
inductive Item
  | one (c : UInt8)
  | star (c : UInt8)
  deriving DecidableEq, Repr

def letter (c : UInt8) : Language UInt8 := {w | ∃ x, fits c x = true ∧ w = [x]}

def Item.language : Item → Language UInt8
  | one c => letter c
  | star c => (letter c)∗

def items : List UInt8 → List Item
  | [] => []
  | [c] => [.one c]
  | c :: d :: re => if d = asterisk then .star c :: items re else .one c :: items (d :: re)

def beforeEnd (re : List UInt8) : List UInt8 := if re.getLast? = some dollar then re.dropLast else re

def body (re : List UInt8) : List UInt8 :=
  beforeEnd (if re.head? = some caret then re.tail else re)

def language (re : List UInt8) : Language UInt8 := ((items re).map Item.language).prod

variable {c d : UInt8} {re text w : List UInt8} {here : List UInt8 → Bool}

theorem mem_letter_star : w ∈ (letter c)∗ ↔ ∀ x ∈ w, fits c x = true := by
  rw [Language.mem_kstar]
  constructor
  · rintro ⟨L, rfl, hL⟩ x hx
    obtain ⟨y, hy, hxy⟩ := List.mem_flatten.mp hx
    obtain ⟨z, hz, rfl⟩ := hL y hy
    rwa [List.mem_singleton.mp hxy]
  · intro h
    refine ⟨w.map ([·]), (List.flatMap_singleton' w).symm, fun y hy ↦ ?_⟩
    obtain ⟨x, hx, rfl⟩ := List.mem_map.mp hy
    exact ⟨x, h x hx, rfl⟩

theorem language_star (c : UInt8) (re : List UInt8) :
    language (c :: asterisk :: re) = (letter c)∗ * language re := by
  simp [language, items, Item.language]

theorem language_one (c : UInt8) (h : re.head? ≠ some asterisk) :
    language (c :: re) = letter c * language re := by
  cases re with
  | nil => simp [language, items, Item.language]
  | cons d re =>
    have hd : d ≠ asterisk := fun hd ↦ h (congrArg some hd)
    simp [language, items, Item.language, hd]

theorem exists_append_eq_cons {P : List UInt8 → List UInt8 → Prop} {x : UInt8} :
    (∃ u v, u ++ v = x :: text ∧ P u v) ↔
      P [] (x :: text) ∨ ∃ u v, u ++ v = text ∧ P (x :: u) v := by
  constructor
  · rintro ⟨u, v, huv, hP⟩
    cases u with
    | nil => exact .inl (by rwa [← huv])
    | cons y u =>
      obtain ⟨rfl, rfl⟩ := List.cons.inj huv
      exact .inr ⟨u, v, rfl, hP⟩
  · rintro (hP | ⟨u, v, rfl, hP⟩)
    · exact ⟨[], x :: text, rfl, hP⟩
    · exact ⟨x :: u, v, rfl, hP⟩

theorem matchstar_iff :
    matchstar here c text = true ↔ ∃ w v, w ++ v = text ∧ w ∈ (letter c)∗ ∧ here v = true := by
  simp only [mem_letter_star]
  induction text with
  | nil => simp [matchstar, and_assoc]
  | cons x text ih =>
    have hx : (x == c || c == dot) = fits c x := by
      rw [fits, Bool.or_comm, Bool.beq_comm (a := x)]
    rw [matchstar, Bool.or_eq_true, Bool.and_eq_true, ih, hx, exists_append_eq_cons]
    simp only [List.forall_mem_cons, List.not_mem_nil, false_implies, implies_true, true_and]
    refine or_congr_right ⟨?_, ?_⟩
    · rintro ⟨hfits, w, v, hwv, hw, hv⟩
      exact ⟨w, v, hwv, ⟨hfits, hw⟩, hv⟩
    · rintro ⟨w, v, hwv, ⟨hfits, hw⟩, hv⟩
      exact ⟨hfits, w, v, hwv, hw, hv⟩

theorem matchone_iff :
    matchone c here text = true ↔ ∃ w v, w ++ v = text ∧ w ∈ letter c ∧ here v = true := by
  constructor
  · intro h
    cases text with
    | nil => cases h
    | cons x text =>
      obtain ⟨hx, hv⟩ := Bool.and_eq_true_iff.mp h
      exact ⟨[x], text, rfl, ⟨x, hx, rfl⟩, hv⟩
  · rintro ⟨w, v, rfl, ⟨x, hx, rfl⟩, hv⟩
    exact Bool.and_eq_true_iff.mpr ⟨hx, hv⟩

theorem searchLoop_iff :
    searchLoop here text = true ↔ ∃ u v, u ++ v = text ∧ here v = true := by
  induction text with
  | nil => simp [searchLoop, and_assoc]
  | cons x text ih => rw [searchLoop, Bool.or_eq_true, ih, exists_append_eq_cons]

theorem beforeEnd_cons (hre : re ≠ [] ∨ c ≠ dollar) : beforeEnd (c :: re) = c :: beforeEnd re := by
  cases re with
  | nil => simpa [beforeEnd] using hre
  | cons d re =>
    rw [beforeEnd, beforeEnd, List.getLast?_cons_cons, List.dropLast_cons_cons]
    split <;> rfl

theorem head?_beforeEnd (h : re.head? ≠ some asterisk) : (beforeEnd re).head? ≠ some asterisk := by
  rw [beforeEnd]
  split
  · cases re with
    | nil => exact h
    | cons d re => cases re <;> simp_all
  · exact h

/-- The text begins with a word of the pattern, which a final `$` makes the whole text. -/
def Begins (re text : List UInt8) : Prop :=
  ∃ w v, w ++ v = text ∧ w ∈ language (beforeEnd re) ∧ (re.getLast? = some dollar → v = [])

theorem begins_mul {pat rest : List UInt8} {L : Language UInt8}
    (hlang : language (beforeEnd pat) = L * language (beforeEnd rest))
    (hlast : pat.getLast? = some dollar ↔ rest.getLast? = some dollar) :
    Begins pat text ↔ ∃ w v, w ++ v = text ∧ w ∈ L ∧ Begins rest v := by
  rw [Begins, hlang, hlast]
  constructor
  · rintro ⟨_, v, rfl, ⟨a, ha, b, hb, rfl⟩, hv⟩
    exact ⟨a, b ++ v, (List.append_assoc _ _ _).symm, ha, b, v, rfl, hb, hv⟩
  · rintro ⟨a, _, rfl, ha, b, v, rfl, hb, hv⟩
    exact ⟨a ++ b, v, List.append_assoc _ _ _, Language.append_mem_mul ha hb, hv⟩

theorem begins_star (c : UInt8) (re : List UInt8) :
    Begins (c :: asterisk :: re) text ↔ ∃ w v, w ++ v = text ∧ w ∈ (letter c)∗ ∧ Begins re v := by
  have hne : asterisk ≠ dollar := by decide
  apply begins_mul
  · rw [beforeEnd_cons (.inl (List.cons_ne_nil _ _)), beforeEnd_cons (.inr hne), language_star]
  · cases re with
    | nil => simpa using hne
    | cons d re => simp only [List.getLast?_cons_cons]

theorem begins_one (hstar : re.head? ≠ some asterisk) (hend : re ≠ [] ∨ c ≠ dollar) :
    Begins (c :: re) text ↔ ∃ w v, w ++ v = text ∧ w ∈ letter c ∧ Begins re v := by
  apply begins_mul
  · rw [beforeEnd_cons hend, language_one c (head?_beforeEnd hstar)]
  · cases re with
    | nil => simpa using hend
    | cons d re => simp only [List.getLast?_cons_cons]

theorem head?_nil_ne : ([] : List UInt8).head? ≠ some asterisk := (Option.some_ne_none _).symm

theorem begins_nil (text : List UInt8) : Begins [] text :=
  ⟨[], text, rfl, Language.nil_mem_one, fun h ↦ absurd h (Option.some_ne_none _).symm⟩

theorem begins_dollar : Begins [dollar] text ↔ text = [] := by
  constructor
  · rintro ⟨w, v, rfl, hw, hv⟩
    rw [hv rfl, show w = [] from hw]
    rfl
  · rintro rfl
    exact ⟨[], [], rfl, Language.nil_mem_one, fun _ ↦ rfl⟩

theorem matchhere_iff : ∀ re text : List UInt8, matchhere re text = true ↔ Begins re text
  | [], text => iff_of_true rfl (begins_nil text)
  | [c], text => by
    rw [matchhere]
    split
    case isTrue hc => rw [hc, begins_dollar, List.isEmpty_iff]
    case isFalse hc =>
      rw [matchone_iff, begins_one head?_nil_ne (.inr hc)]
      simp only [matchhere_iff []]
  | c :: d :: re, text => by
    rw [matchhere]
    split
    case isTrue hd =>
      rw [matchstar_iff, hd, begins_star]
      simp only [matchhere_iff re]
    case isFalse hd =>
      rw [matchone_iff, begins_one (by simpa using hd) (.inl (List.cons_ne_nil _ _))]
      simp only [matchhere_iff (d :: re)]

theorem getLast?_tail (h : re.head? = some caret) :
    re.tail.getLast? = some dollar ↔ re.getLast? = some dollar := by
  cases re with
  | nil => cases h
  | cons c re =>
    obtain rfl : c = caret := Option.some.inj h
    cases re with
    | nil => exact iff_of_false (by decide) (by decide)
    | cons d re => rw [List.getLast?_cons_cons, List.tail_cons]

/-- The matcher finds exactly the substrings that the pattern denotes: prefixes after a `^`, and
suffixes before a `$`. -/
theorem match_iff_mem_language (re text : List UInt8) :
    matchText re text = true ↔ ∃ u w v, u ++ w ++ v = text ∧ w ∈ language (body re) ∧
      (re.head? = some caret → u = []) ∧ (re.getLast? = some dollar → v = []) := by
  rw [matchText, body]
  split
  case isTrue hcaret =>
    rw [matchhere_iff, Begins, getLast?_tail hcaret]
    constructor
    · rintro ⟨w, v, rfl, hw, hv⟩
      exact ⟨[], w, v, rfl, hw, fun _ ↦ rfl, hv⟩
    · rintro ⟨u, w, v, rfl, hw, hu, hv⟩
      exact ⟨w, v, by rw [hu hcaret, List.nil_append], hw, hv⟩
  case isFalse hcaret =>
    simp only [searchLoop_iff, matchhere_iff, Begins]
    constructor
    · rintro ⟨u, _, rfl, w, v, rfl, hw, hv⟩
      exact ⟨u, w, v, List.append_assoc _ _ _, hw, fun h ↦ absurd h hcaret, hv⟩
    · rintro ⟨u, w, v, rfl, hw, -, hv⟩
      exact ⟨u, w ++ v, (List.append_assoc _ _ _).symm, w, v, rfl, hw, hv⟩

end Xv6Bfs.Grep

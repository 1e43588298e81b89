import Mathlib.Data.List.Basic
import Mathlib.Data.List.Nodup
import Mathlib.Logic.Function.Iterate

namespace Xv6Bfs.Lib.LinkedChain

variable {P : Type} {next prev next' prev' : P → P} {nil a b n x : P} {l l₁ l₂ : List P}

/-- Starting at `a` the `next` pointers visit exactly `l` and end in `nil`,
and every visited cell points back to the one before it. -/
def Linked (next prev : P → P) (nil : P) : P → List P → Prop
  | a, [] => next a = nil
  | a, b :: l => next a = b ∧ prev b = a ∧ Linked next prev nil b l

theorem Linked.next_eq (h : Linked next prev nil a l) : next a = l.headD nil := by
  cases l with
  | nil => exact h
  | cons b l => exact h.1

theorem Linked.drop (h : Linked next prev nil a (l₁ ++ l₂)) :
    Linked next prev nil (l₁.getLastD a) l₂ := by
  induction l₁ generalizing a with
  | nil => exact h
  | cons b l₁ ih =>
    rw [List.getLastD_cons]
    exact ih h.2.2

theorem Linked.prev_eq (h : Linked next prev nil a (l₁ ++ n :: l₂)) : prev n = l₁.getLastD a :=
  h.drop.2.1

theorem Linked.congr (h : Linked next prev nil a l)
    (hn : ∀ x ∈ a :: l, next' x = next x) (hp : ∀ x ∈ l, prev' x = prev x) :
    Linked next' prev' nil a l := by
  induction l generalizing a with
  | nil => exact (hn a (by simp)).trans h
  | cons b l ih =>
    refine ⟨(hn a (by simp)).trans h.1, (hp b (by simp)).trans h.2.1, ih h.2.2 ?_ ?_⟩
    · exact fun x hx ↦ hn x (List.mem_cons_of_mem a hx)
    · exact fun x hx ↦ hp x (List.mem_cons_of_mem b hx)

theorem Linked.insert (h : Linked next prev nil a (l₁ ++ l₂))
    (hd : (a :: (l₁ ++ l₂)).Nodup) (hf : n ∉ a :: (l₁ ++ l₂))
    (hc : next' (l₁.getLastD a) = n) (hn : next' n = next (l₁.getLastD a))
    (hp : prev' n = l₁.getLastD a) (hb : ∀ b ∈ l₂.head?, prev' b = n)
    (hnext : ∀ x, x ≠ l₁.getLastD a → x ≠ n → next' x = next x)
    (hprev : ∀ x, x ≠ n → x ∉ l₂.head? → prev' x = prev x) :
    Linked next' prev' nil a (l₁ ++ n :: l₂) := by
  induction l₁ generalizing a with
  | nil =>
    simp only [List.nil_append, List.getLastD_nil] at *
    refine ⟨hc, hp, ?_⟩
    cases l₂ with
    | nil => exact hn.trans h
    | cons b l₂ =>
      refine ⟨hn.trans h.1, hb b (by simp), h.2.2.congr ?_ ?_⟩
      · intro x hx
        apply hnext x
        · rintro rfl; exact (List.nodup_cons.mp hd).1 hx
        · rintro rfl; exact hf (List.mem_cons_of_mem _ hx)
      · intro x hx
        apply hprev x
        · rintro rfl; exact hf (by simp [hx])
        · simp only [List.head?_cons, Option.mem_def, Option.some.injEq]
          rintro rfl
          exact (List.nodup_cons.mp (List.nodup_cons.mp hd).2).1 hx
  | cons b l₁ ih =>
    rw [List.getLastD_cons] at hc hn hp hnext
    have hlast : l₁.getLastD b ∈ b :: (l₁ ++ l₂) := by
      have hm := List.getLastD_mem_cons (l := l₁) (a := b)
      simp only [List.mem_cons, List.mem_append] at hm ⊢
      tauto
    have ha : a ∉ b :: (l₁ ++ l₂) := (List.nodup_cons.mp hd).1
    have hd' : (b :: (l₁ ++ l₂)).Nodup := (List.nodup_cons.mp hd).2
    refine ⟨?_, ?_, ih h.2.2 hd' (fun hx ↦ hf (List.mem_cons_of_mem a hx)) hc hn hp hnext⟩
    · rw [hnext a (fun he ↦ ha (he ▸ hlast)) (fun he ↦ hf (by simp [he]))]
      exact h.1
    · rw [hprev b (fun he ↦ hf (by simp [he]))]
      · exact h.2.1
      · intro hb'
        exact (List.nodup_cons.mp hd').1
          (List.mem_append_right _ (List.mem_of_mem_head? hb'))

theorem Linked.erase (h : Linked next prev nil a (l₁ ++ n :: l₂))
    (hd : (a :: (l₁ ++ n :: l₂)).Nodup) (hc : next' (l₁.getLastD a) = next n)
    (hb : ∀ b ∈ l₂.head?, prev' b = l₁.getLastD a)
    (hnext : ∀ x, x ≠ l₁.getLastD a → x ≠ n → next' x = next x)
    (hprev : ∀ x, x ≠ n → x ∉ l₂.head? → prev' x = prev x) :
    Linked next' prev' nil a (l₁ ++ l₂) := by
  induction l₁ generalizing a with
  | nil =>
    simp only [List.nil_append, List.getLastD_nil] at *
    obtain ⟨-, -, ht⟩ := h
    have ha : a ∉ n :: l₂ := (List.nodup_cons.mp hd).1
    have hd' : (n :: l₂).Nodup := (List.nodup_cons.mp hd).2
    cases l₂ with
    | nil => exact hc.trans ht
    | cons b l₂ =>
      refine ⟨hc.trans ht.1, hb b (by simp), ht.2.2.congr ?_ ?_⟩
      · intro x hx
        apply hnext x
        · rintro rfl; exact ha (List.mem_cons_of_mem n hx)
        · rintro rfl; exact (List.nodup_cons.mp hd').1 hx
      · intro x hx
        apply hprev x
        · rintro rfl; exact (List.nodup_cons.mp hd').1 (List.mem_cons_of_mem b hx)
        · simp only [List.head?_cons, Option.mem_def, Option.some.injEq]
          rintro rfl
          exact (List.nodup_cons.mp (List.nodup_cons.mp hd').2).1 hx
  | cons b l₁ ih =>
    rw [List.getLastD_cons] at hc hb hnext
    have hlast : l₁.getLastD b ∈ b :: (l₁ ++ n :: l₂) := by
      have hm := List.getLastD_mem_cons (l := l₁) (a := b)
      simp only [List.mem_cons, List.mem_append] at hm ⊢
      tauto
    have ha : a ∉ b :: (l₁ ++ n :: l₂) := (List.nodup_cons.mp hd).1
    have hd' : (b :: (l₁ ++ n :: l₂)).Nodup := (List.nodup_cons.mp hd).2
    have hb' : b ∉ l₁ ++ n :: l₂ := (List.nodup_cons.mp hd').1
    refine ⟨?_, ?_, ih h.2.2 hd' hc hb hnext⟩
    · rw [hnext a (fun he ↦ ha (he ▸ hlast)) (fun he ↦ ha (by simp [he]))]
      exact h.1
    · rw [hprev b (fun he ↦ hb' (by simp [he]))]
      · exact h.2.1
      · intro hm
        exact hb' (List.mem_append_right _ (List.mem_cons_of_mem n (List.mem_of_mem_head? hm)))

theorem Linked.append (h : Linked next prev b a l₁)
    (hb : prev b = l₁.getLastD a) (h₂ : Linked next prev nil b l₂) :
    Linked next prev nil a (l₁ ++ b :: l₂) := by
  induction l₁ generalizing a with
  | nil => exact ⟨h, hb, h₂⟩
  | cons c l₁ ih =>
    rw [List.getLastD_cons] at hb
    exact ⟨h.1, h.2.1, ih h.2.2 hb⟩

theorem Linked.reverse (h : Linked next prev nil a l) (hlast : prev nil = l.getLastD a) :
    Linked prev next a nil l.reverse ∧ next a = l.reverse.getLastD nil := by
  induction l generalizing a with
  | nil => exact ⟨hlast, h⟩
  | cons b l ih =>
    rw [List.getLastD_cons] at hlast
    obtain ⟨hl, hb⟩ := ih h.2.2 hlast
    rw [List.reverse_cons]
    refine ⟨Linked.append hl hb h.2.1, ?_⟩
    rw [h.1]
    simp

theorem Linked.prev_next (h : Linked next prev nil a l)
    (hlast : prev nil = l.getLastD a) (hx : x ∈ a :: l) : prev (next x) = x := by
  induction l generalizing a with
  | nil =>
    obtain rfl : x = a := by simpa using hx
    rwa [show next x = nil from h]
  | cons b l ih =>
    rw [List.getLastD_cons] at hlast
    rcases List.mem_cons.mp hx with rfl | hx
    · rw [h.1, h.2.1]
    · exact ih h.2.2 hlast hx

theorem Linked.iterate (h : Linked next prev nil a l) :
    (List.range (l.length + 2)).map (fun n ↦ next^[n] a) = a :: l ++ [nil] := by
  induction l generalizing a with
  | nil =>
    have : next a = nil := h
    simp [List.range_succ, this]
  | cons b l ih =>
    have := ih h.2.2
    rw [List.length_cons, List.range_succ_eq_map, List.map_cons, List.map_map]
    simp only [Function.comp_def, Nat.succ_eq_add_one, Function.iterate_succ_apply, h.1, this]
    rfl

/-- A loop along `next` up to `nil`, or up to the first cell that passes the test. -/
def search [DecidableEq P] (next : P → P) (nil : P) (test : P → Bool) : ℕ → P → Option P
  | 0, _ => none
  | n + 1, a => if a = nil ∨ test a then some a else search next nil test n (next a)

theorem Linked.search_eq [DecidableEq P] {test : P → Bool} (h : Linked next prev nil a l)
    (hnil : nil ∉ l) :
    search next nil test (l.length + 1) (next a) = some ((l.find? test).getD nil) := by
  induction l generalizing a with
  | nil =>
    have : next a = nil := h
    simp [search, this]
  | cons b l ih =>
    rw [List.mem_cons, not_or] at hnil
    rw [h.1, List.length_cons, search, List.find?_cons]
    cases ht : test b with
    | true => simp
    | false =>
      rw [if_neg (by simpa [ht] using Ne.symm hnil.1)]
      exact ih h.2.2 hnil.2

end Xv6Bfs.Lib.LinkedChain

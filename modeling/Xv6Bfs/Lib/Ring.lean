import Mathlib.Data.List.Nodup
import Mathlib.Logic.Function.Basic

namespace Xv6Bfs.Lib.Ring

open Function

variable {P : Type} {next next' : P → P} {a b c n x y : P} {l l₁ l₂ : List P}

def Path (next : P → P) : P → List P → P → Prop
  | a, [], b => next a = b
  | a, c :: l, b => next a = c ∧ Path next c l b

theorem path_iff_map : Path next a l b ↔ (a :: l).map next = l ++ [b] := by
  induction l generalizing a with
  | nil => simp [Path]
  | cons c l ih => simp [Path, ih]

theorem path_append : Path next a (l₁ ++ c :: l₂) b ↔ Path next a l₁ c ∧ Path next c l₂ b := by
  induction l₁ generalizing a with
  | nil => rfl
  | cons d l₁ ih => simp only [List.cons_append, Path, ih, and_assoc]

theorem Path.congr (h : Path next a l b) (hn : ∀ x ∈ a :: l, next' x = next x) :
    Path next' a l b := by
  rw [path_iff_map] at h ⊢
  rw [← h]
  exact List.map_congr_left hn

theorem Path.next_eq (h : Path next a l b) : next a = l.headD b := by
  cases l with
  | nil => exact h
  | cons c l => exact h.1

theorem Path.next_at (h : Path next a l b) (hx : a :: l = l₁ ++ x :: l₂) : next x = l₂.headD b := by
  cases l₁ with
  | nil =>
    injection hx with ha hl
    rw [← ha, ← hl]
    exact h.next_eq
  | cons c l₁ =>
    injection hx with ha hl
    rw [hl] at h
    exact (path_append.mp h).2.next_eq

theorem Path.next_last (h : Path next a l b) : next (l.getLastD a) = b := by
  induction l generalizing a with
  | nil => exact h
  | cons d l ih =>
    rw [List.getLastD_cons]
    exact ih h.2

theorem Path.rotate (h : Path next a l a) (hx : x ∈ a :: l) :
    ∃ l₁ l₂, a :: l = l₁ ++ x :: l₂ ∧ Path next x (l₂ ++ l₁) x := by
  rcases List.mem_cons.mp hx with rfl | hx
  · exact ⟨[], l, rfl, by rwa [List.append_nil]⟩
  · obtain ⟨m₁, m₂, rfl⟩ := List.append_of_mem hx
    obtain ⟨h₁, h₂⟩ := path_append.mp h
    exact ⟨a :: m₁, m₂, rfl, path_append.mpr ⟨h₂, h₁⟩⟩

theorem Path.eq_of_next (h : Path next a l a) (hd : (a :: l).Nodup) (hx : x ∈ a :: l)
    (hy : y ∈ a :: l) (he : next x = next y) : x = y := by
  refine List.inj_on_of_nodup_map ?_ hx hy he
  rw [path_iff_map.mp h]
  exact (List.perm_append_singleton a l).nodup_iff.mpr hd

theorem Path.insert (h : Path next a (l₁ ++ l₂) b) (hd : (a :: (l₁ ++ l₂)).Nodup)
    (hn : n ∉ a :: (l₁ ++ l₂)) (hnext : next' n = next (l₁.getLastD a))
    (hlast : next' (l₁.getLastD a) = n)
    (hsame : ∀ x ∈ a :: (l₁ ++ l₂), x ≠ l₁.getLastD a → next' x = next x) :
    Path next' a (l₁ ++ n :: l₂) b := by
  induction l₁ generalizing a with
  | nil =>
    refine ⟨hlast, ?_⟩
    cases l₂ with
    | nil => exact hnext.trans h
    | cons c l₂ =>
      refine ⟨hnext.trans h.1, h.2.congr (fun x hx ↦ hsame x (List.mem_cons_of_mem a hx) ?_)⟩
      rintro rfl
      exact (List.nodup_cons.mp hd).1 hx
  | cons d l₁ ih =>
    rw [List.getLastD_cons] at hnext hlast hsame
    obtain ⟨ha, hd⟩ := List.nodup_cons.mp hd
    refine ⟨(hsame a List.mem_cons_self ?_).trans h.1, ih h.2 hd ?_ hnext hlast ?_⟩
    · intro he
      have hm : l₁.getLastD d ∈ d :: l₁ := List.getLastD_mem_cons
      exact ha (he ▸ List.mem_append_left l₂ hm)
    · exact fun hm ↦ hn (List.mem_cons_of_mem a hm)
    · exact fun x hx ↦ hsame x (List.mem_cons_of_mem a hx)

theorem Path.remove (h : Path next a (l₁ ++ n :: l₂) b) (hd : (a :: (l₁ ++ n :: l₂)).Nodup)
    (hlast : next' (l₁.getLastD a) = next n)
    (hsame : ∀ x ∈ a :: (l₁ ++ l₂), x ≠ l₁.getLastD a → next' x = next x) :
    Path next' a (l₁ ++ l₂) b := by
  induction l₁ generalizing a with
  | nil =>
    cases l₂ with
    | nil => exact hlast.trans h.2
    | cons c l₂ =>
      refine ⟨hlast.trans h.2.1, h.2.2.congr (fun x hx ↦ hsame x (List.mem_cons_of_mem a hx) ?_)⟩
      rintro rfl
      exact (List.nodup_cons.mp hd).1 (List.mem_cons_of_mem n hx)
  | cons d l₁ ih =>
    rw [List.getLastD_cons] at hlast hsame
    obtain ⟨ha, hd⟩ := List.nodup_cons.mp hd
    refine ⟨(hsame a List.mem_cons_self ?_).trans h.1, ih h.2 hd hlast ?_⟩
    · intro he
      have hm : l₁.getLastD d ∈ d :: l₁ := List.getLastD_mem_cons
      exact ha (he ▸ List.mem_append_left (n :: l₂) hm)
    · exact fun x hx ↦ hsame x (List.mem_cons_of_mem a hx)

end Xv6Bfs.Lib.Ring

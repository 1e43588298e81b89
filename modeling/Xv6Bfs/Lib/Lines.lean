import Mathlib.Data.List.Basic
import Mathlib.Tactic.Common

namespace Xv6Bfs.Lib.Lines

variable {α : Type*} [DecidableEq α] (sep : α)

def terminated (t : List α) : List (List α) := (t.splitOn sep).dropLast

def unfinished (t : List α) : List α := (t.splitOn sep).getLastD []

variable {sep} {l r s t : List α}

theorem splitOn_of_not_mem (h : sep ∉ t) : t.splitOn sep = [t] := by
  refine List.splitOnP_eq_singleton fun x hx ↦ ?_
  rw [beq_eq_false_iff_ne]
  rintro rfl
  exact h hx

theorem splitOn_line (h : sep ∉ l) (r : List α) :
    (l ++ sep :: r).splitOn sep = l :: r.splitOn sep := by
  have hno : ∀ x ∈ l, (x == sep) = false := by
    intro x hx
    rw [beq_eq_false_iff_ne]
    rintro rfl
    exact h hx
  exact List.splitOnP_append_cons_of_forall_mem (p := (· == sep)) hno sep (beq_self_eq_true sep) r

theorem splitOn_ne_nil (t : List α) : t.splitOn sep ≠ [] := List.splitOnP_ne_nil (· == sep) t

theorem terminated_of_not_mem (h : sep ∉ t) : terminated sep t = [] := by
  rw [terminated, splitOn_of_not_mem h]
  rfl

theorem unfinished_of_not_mem (h : sep ∉ t) : unfinished sep t = t := by
  rw [unfinished, splitOn_of_not_mem h]
  rfl

theorem terminated_line (h : sep ∉ l) (r : List α) :
    terminated sep (l ++ sep :: r) = l :: terminated sep r := by
  rw [terminated, splitOn_line h, List.dropLast_cons_of_ne_nil (splitOn_ne_nil r)]
  rfl

theorem unfinished_line (h : sep ∉ l) (r : List α) :
    unfinished sep (l ++ sep :: r) = unfinished sep r := by
  rw [unfinished, unfinished, splitOn_line h]
  cases hr : r.splitOn sep with
  | nil => exact absurd hr (splitOn_ne_nil r)
  | cons a b => rfl

@[elab_as_elim]
theorem lines_induction (sep : α) {motive : List α → Prop} (last : ∀ t, sep ∉ t → motive t)
    (line : ∀ l r, sep ∉ l → motive r → motive (l ++ sep :: r)) (t : List α) : motive t := by
  induction hn : t.length using Nat.strongRecOn generalizing t with
  | _ n ih =>
    by_cases hmem : sep ∈ t
    · obtain ⟨l, r, rfl, hl⟩ := List.eq_append_cons_of_mem hmem
      refine line l r hl (ih r.length ?_ r rfl)
      rw [← hn, List.length_append, List.length_cons]
      omega
    · exact last t hmem

theorem not_mem_unfinished (sep : α) (t : List α) : sep ∉ unfinished sep t := by
  induction t using lines_induction sep with
  | last t ht => rwa [unfinished_of_not_mem ht]
  | line l r hl ih => rwa [unfinished_line hl]

theorem splitOn_append (s t : List α) :
    (s ++ t).splitOn sep = terminated sep s ++ (unfinished sep s ++ t).splitOn sep := by
  induction s using lines_induction sep with
  | last s hs => rw [terminated_of_not_mem hs, unfinished_of_not_mem hs, List.nil_append]
  | line l r hl ih =>
    rw [List.append_assoc, List.cons_append, splitOn_line hl, terminated_line hl,
      unfinished_line hl, ih, List.cons_append]

theorem terminated_append (s t : List α) :
    terminated sep (s ++ t) = terminated sep s ++ terminated sep (unfinished sep s ++ t) := by
  rw [terminated, splitOn_append, List.dropLast_append_of_ne_nil (splitOn_ne_nil _)]
  rfl

theorem unfinished_isSuffix (sep : α) (t : List α) : unfinished sep t <:+ t := by
  induction t using lines_induction sep with
  | last t ht => exact ⟨[], unfinished_of_not_mem ht⟩
  | line l r hl ih =>
    rw [unfinished_line hl]
    exact ih.trans ⟨l ++ [sep], by rw [List.append_assoc, List.singleton_append]⟩

theorem unfinished_length_le (sep : α) (t : List α) : (unfinished sep t).length ≤ t.length :=
  (unfinished_isSuffix sep t).length_le

theorem unfinished_length_lt (h : sep ∈ t) : (unfinished sep t).length < t.length := by
  obtain ⟨l, r, rfl, hl⟩ := List.eq_append_cons_of_mem h
  have hle := unfinished_length_le sep r
  rw [unfinished_line hl, List.length_append, List.length_cons]
  omega

end Xv6Bfs.Lib.Lines

import Mathlib.Data.List.Nodup
import Mathlib.Logic.Function.Basic

namespace Xv6Bfs.Lib.PointerQueue

open Function

variable {B : Type} {link link' : Option B → Option B} {pp : Option B} {b : B} {q l₁ l₂ : List B}

/-- A queue given by pointers: `link none` is its head, and `link (some b)` the link of `b`. From the
pointer `pp` on it visits the cells of the list and ends. -/
def Chained (link : Option B → Option B) : Option B → List B → Prop
  | pp, [] => link pp = none
  | pp, b :: q => link pp = some b ∧ Chained link (some b) q

def lastPtr : Option B → List B → Option B
  | pp, [] => pp
  | _, b :: q => lastPtr (some b) q

theorem lastPtr_concat : lastPtr pp (q ++ [b]) = some b := by
  induction q generalizing pp with
  | nil => rfl
  | cons c q ih => exact ih

theorem Chained.head (h : Chained link pp q) : link pp = q.head? := by
  cases q with
  | nil => exact h
  | cons b q => exact h.1

theorem Chained.drop (h : Chained link pp (l₁ ++ l₂)) : Chained link (lastPtr pp l₁) l₂ := by
  induction l₁ generalizing pp with
  | nil => exact h
  | cons b l₁ ih => exact ih h.2

theorem Chained.congr (h : Chained link pp q) (hl : ∀ x ∈ pp :: q.map some, link' x = link x) :
    Chained link' pp q := by
  induction q generalizing pp with
  | nil => exact (hl pp (by simp)).trans h
  | cons b q ih =>
    refine ⟨(hl pp (by simp)).trans h.1, ih h.2 (fun x hx ↦ hl x ?_)⟩
    exact List.mem_cons_of_mem _ hx

variable [DecidableEq B]

theorem Chained.enqueue (h : Chained link pp q) (hd : (pp :: q.map some).Nodup)
    (hb : some b ∉ pp :: q.map some) (hl : link (some b) = none) :
    Chained (update link (lastPtr pp q) (some b)) pp (q ++ [b]) := by
  induction q generalizing pp with
  | nil =>
    refine ⟨by simp [lastPtr], ?_⟩
    have hne : some b ≠ pp := fun he ↦ hb (by simp [he])
    change update link pp (some b) (some b) = none
    rw [update_of_ne hne, hl]
  | cons c q ih =>
    have hd' := List.nodup_cons.mp hd
    refine ⟨?_, ih h.2 hd'.2 (fun hm ↦ hb (List.mem_cons_of_mem _ hm))⟩
    have hne : pp ≠ lastPtr (some c) q := by
      rintro rfl
      apply hd'.1
      clear hd hd' hb h ih
      induction q generalizing c with
      | nil => simp [lastPtr]
      | cons d q ih => exact List.mem_cons_of_mem _ (ih d)
    change update link (lastPtr (some c) q) (some b) pp = some c
    rw [update_of_ne hne, h.1]

theorem Chained.dequeue (h : Chained link none (b :: q)) :
    Chained (update link none (link (some b))) none q := by
  cases q with
  | nil =>
    change update link none (link (some b)) none = none
    rw [update_self]
    exact h.2
  | cons c q =>
    refine ⟨by rw [update_self]; exact h.2.1, h.2.2.congr (fun x hx ↦ update_of_ne ?_ _ _)⟩
    rintro rfl
    simp at hx

end Xv6Bfs.Lib.PointerQueue

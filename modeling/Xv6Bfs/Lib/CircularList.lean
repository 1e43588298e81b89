import Xv6Bfs.Lib.LinkedChain

namespace Xv6Bfs.Lib.CircularList

open LinkedChain Function

variable {P : Type} {next prev : P → P} {head a n : P} {l l₁ l₂ : List P}

/-- From `head` the `next` pointers visit exactly `l` and come back to `head`, and the `prev`
pointers lead the other way. -/
structure Circular (next prev : P → P) (head : P) (l : List P) : Prop where
  linked : Linked next prev head head l
  last : prev head = l.getLastD head
  nodup : (head :: l).Nodup

namespace Circular

theorem reverse (h : Circular next prev head l) : Circular prev next head l.reverse := by
  obtain ⟨hl, hlast⟩ := h.linked.reverse h.last
  refine ⟨hl, hlast, ?_⟩
  have := h.nodup
  simp only [List.nodup_cons, List.mem_reverse, List.nodup_reverse] at this ⊢
  exact this

theorem prev_next (h : Circular next prev head l) (ha : a ∈ head :: l) : prev (next a) = a :=
  h.linked.prev_next h.last ha

theorem next_prev (h : Circular next prev head l) (ha : a ∈ head :: l) : next (prev a) = a :=
  h.reverse.prev_next (by simpa using ha)

section

variable [DecidableEq P]

theorem search_eq (h : Circular next prev head l) (test : P → Bool) :
    search next head test (l.length + 1) (next head) = some ((l.find? test).getD head) :=
  h.linked.search_eq (List.nodup_cons.mp h.nodup).1

theorem erase (h : Circular next prev head (l₁ ++ n :: l₂)) :
    Circular (update next (prev n) (next n)) (update prev (next n) (prev n)) head (l₁ ++ l₂) := by
  have hnext : next n = l₂.headD head := (h.linked.drop).2.2.next_eq
  have hprev : prev n = l₁.getLastD head := h.linked.prev_eq
  have hnodup : (head :: (l₁ ++ l₂)).Nodup := by
    have := h.nodup
    simp only [List.nodup_cons, List.nodup_append, List.mem_append, List.mem_cons] at this ⊢
    grind
  have hhead : head ∉ l₁ ++ l₂ := (List.nodup_cons.mp hnodup).1
  rw [hprev]
  cases l₂ with
  | nil =>
    -- only `head.prev` changes, which the chain up to `head` does not use
    obtain rfl : next n = head := hnext
    have hl : Linked (update next (l₁.getLastD (next n)) (next n)) prev (next n) (next n) (l₁ ++ []) :=
      h.linked.erase h.nodup (by rw [update_self]) (by simp) (fun x hx _ ↦ by rw [update_of_ne hx])
        (fun _ _ _ ↦ rfl)
    refine ⟨hl.congr (fun _ _ ↦ rfl) (fun x hx ↦ ?_), by simp, hnodup⟩
    have : x ≠ next n := fun he ↦ hhead (he ▸ hx)
    rw [update_of_ne this]
  | cons b l₂ =>
    obtain rfl : next n = b := hnext
    refine ⟨h.linked.erase h.nodup (by rw [update_self]) ?_ (fun x hx _ ↦ by rw [update_of_ne hx])
      (fun x _ hb ↦ ?_), ?_, hnodup⟩
    · simp
    · rw [update_of_ne]
      rintro rfl
      simp at hb
    · rw [update_of_ne, h.last]
      · simp [List.getLastD_eq_getLast?]
      · rintro he
        exact hhead (he ▸ by simp)

theorem cons (h : Circular next prev head l) (hn : n ∉ head :: l) :
    Circular (update (update next n (next head)) head n)
      (update (update prev n head) (next head) n) head (n :: l) := by
  rw [List.mem_cons, not_or] at hn
  have hnodup : (head :: n :: l).Nodup := by
    have := h.nodup
    simp only [List.nodup_cons, List.mem_cons] at this ⊢
    grind
  have hhead : head ∉ l := (List.nodup_cons.mp h.nodup).1
  have hl := h.linked
  have hlast := h.last
  cases l with
  | nil =>
    have hself : next head = head := hl
    have hnext : update (update next n (next head)) head n n = head := by simp [hself, hn.1]
    exact ⟨⟨by simp, by simp [hself, hn.1], hnext⟩, by simp [hself], hnodup⟩
  | cons b l =>
    obtain rfl : next head = b := hl.1
    have hne : n ≠ next head := fun he ↦ hn.2 (he ▸ by simp)
    have hnotin : n ∉ l := fun hm ↦ hn.2 (List.mem_cons_of_mem _ hm)
    have hb : next head ∉ l := by
      have := h.nodup
      simp only [List.nodup_cons] at this
      exact this.2.1
    refine ⟨⟨by simp, by simp [hne], by simp [hn.1], by simp, hl.2.2.congr (fun x hx ↦ ?_)
      (fun x hx ↦ ?_)⟩, ?_, hnodup⟩
    · have : x ≠ head := fun he ↦ hhead (he ▸ hx)
      have : x ≠ n := fun he ↦ hn.2 (he ▸ hx)
      simp [*]
    · have : x ≠ next head := fun he ↦ hb (he ▸ hx)
      have : x ≠ n := fun he ↦ hnotin (he ▸ hx)
      simp [*]
    · have : head ≠ next head := fun he ↦ hhead (he ▸ by simp)
      rw [update_of_ne this, update_of_ne (Ne.symm hn.1), hlast]
      simp

end

end Circular

end Xv6Bfs.Lib.CircularList

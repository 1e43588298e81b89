import Mathlib.Data.List.Sort
import Mathlib.Data.List.TakeWhile
import Mathlib.Order.Defs.LinearOrder

namespace Xv6Bfs.Lib.KeyedQueue

variable {α β K : Type} [LinearOrder K] {key : α → K} {rank rank' : α → ℕ} {a : α} {l : List α}

/-- A queue kept by increasing key. A new element goes in front of those with
the same key. -/
def enqueue (key : α → K) (a : α) (l : List α) : List α :=
  l.orderedInsert (fun x y ↦ key x ≤ key y) a

instance isTrans_key_le (key : α → K) : IsTrans α (fun x y ↦ key x ≤ key y) := ⟨fun _ _ _ ↦ le_trans⟩

instance total_key_le (key : α → K) : Std.Total (fun x y : α ↦ key x ≤ key y) := ⟨fun _ _ ↦ le_total _ _⟩

theorem enqueue_eq_split (key : α → K) (a : α) (l : List α) :
    enqueue key a l = l.takeWhile (fun x ↦ key x < key a) ++
      a :: l.dropWhile (fun x ↦ key x < key a) := by
  simpa only [enqueue, not_le] using List.orderedInsert_eq_take_drop (fun x y ↦ key x ≤ key y) a l

@[simp] theorem mem_enqueue {x : α} : x ∈ enqueue key a l ↔ x = a ∨ x ∈ l :=
  List.mem_orderedInsert _

theorem nodup_enqueue (key : α → K) (ha : a ∉ l) (hl : l.Nodup) : (enqueue key a l).Nodup :=
  (List.perm_orderedInsert _ a l).nodup_iff.mpr (List.nodup_cons.mpr ⟨ha, hl⟩)

theorem sorted_enqueue (a : α) (hl : l.Pairwise (fun x y ↦ key x ≤ key y)) :
    (enqueue key a l).Pairwise (fun x y ↦ key x ≤ key y) :=
  List.Pairwise.orderedInsert a l hl

theorem sublist_enqueue (key : α → K) (a : α) (l : List α) : l.Sublist (enqueue key a l) :=
  List.sublist_orderedInsert a l

theorem enqueue_sublist {l' : List α} (a : α) (h : l.Sublist l')
    (hl : l'.Pairwise (fun x y ↦ key x ≤ key y)) :
    (enqueue key a l).Sublist (enqueue key a l') :=
  h.orderedInsert_sublist a hl

theorem map_enqueue (key : α → K) (f : β → α) (b : β) (l : List β) :
    (enqueue (fun x ↦ key (f x)) b l).map f = enqueue key (f b) (l.map f) :=
  List.map_orderedInsert _ _ f l b (fun _ _ ↦ Iff.rfl) (fun _ _ ↦ Iff.rfl)

theorem enqueue_congr {key' : α → K} (hl : ∀ x ∈ l, key' x = key x) (ha : key' a = key a) :
    enqueue key' a l = enqueue key a l := by
  induction l with
  | nil => rfl
  | cons b l ih =>
    have ih' := ih (fun x hx ↦ hl x (List.mem_cons_of_mem b hx))
    simp only [enqueue, List.orderedInsert_cons] at ih' ⊢
    rw [ha, hl b List.mem_cons_self, ih']

def Ranked (key : α → K) (rank : α → ℕ) (l : List α) : Prop :=
  l.Pairwise (fun x y ↦ key x < key y ∨ key x = key y ∧ rank x < rank y)

theorem Ranked.sorted (h : Ranked key rank l) : l.Pairwise (fun x y ↦ key x ≤ key y) :=
  h.imp (fun hxy ↦ hxy.elim le_of_lt (fun hxy ↦ hxy.1.le))

theorem Ranked.sublist {l' : List α} (h : Ranked key rank l) (hs : l'.Sublist l) :
    Ranked key rank l' := List.Pairwise.sublist hs h

theorem Ranked.congr {key' : α → K} (h : Ranked key rank l) (hk : ∀ x ∈ l, key' x = key x)
    (hr : ∀ x ∈ l, ∀ y ∈ l, rank x < rank y → rank' x < rank' y) : Ranked key' rank' l := by
  refine h.imp_of_mem (fun {x y} hx hy hxy ↦ ?_)
  rw [hk x hx, hk y hy]
  exact hxy.imp_right (fun hxy ↦ ⟨hxy.1, hr x hx y hy hxy.2⟩)

theorem dropWhile_ge (hl : l.Pairwise (fun x y ↦ key x ≤ key y)) (a : α) :
    ∀ x ∈ l.dropWhile (fun x ↦ key x < key a), key a ≤ key x := by
  induction l with
  | nil => simp
  | cons b l ih =>
    intro x hx
    rw [List.dropWhile_cons] at hx
    split at hx
    · exact ih (List.pairwise_cons.mp hl).2 x hx
    · rename_i hb
      have hab : key a ≤ key b := by simpa using hb
      rcases List.mem_cons.mp hx with rfl | hx
      · exact hab
      · exact hab.trans ((List.pairwise_cons.mp hl).1 x hx)

theorem Ranked.enqueue (h : Ranked key rank l) (ha : ∀ x ∈ l, rank' a < rank' x)
    (hr : ∀ x ∈ l, ∀ y ∈ l, rank x < rank y → rank' x < rank' y) :
    Ranked key rank' (enqueue key a l) := by
  have h' : Ranked key rank' l := h.congr (fun _ _ ↦ rfl) hr
  have hge := dropWhile_ge h.sorted a
  have hsplit : l.takeWhile (fun x ↦ key x < key a) ++ l.dropWhile (fun x ↦ key x < key a) = l :=
    List.takeWhile_append_dropWhile
  rw [enqueue_eq_split]
  rw [← hsplit] at h'
  obtain ⟨h₁, h₂, h₁₂⟩ := List.pairwise_append.mp h'
  refine List.pairwise_append.mpr ⟨h₁, List.pairwise_cons.mpr ⟨fun y hy ↦ ?_, h₂⟩, fun x hx y hy ↦ ?_⟩
  · rcases (hge y hy).lt_or_eq with hlt | heq
    · exact .inl hlt
    · exact .inr ⟨heq, ha y (hsplit ▸ List.mem_append_right _ hy)⟩
  · rcases List.mem_cons.mp hy with rfl | hy
    · exact .inl (by simpa using List.mem_takeWhile_imp hx)
    · exact h₁₂ x hx y hy

theorem Ranked.head {x : α} (h : Ranked key rank (a :: l)) (hx : x ∈ l) :
    key a < key x ∨ key a = key x ∧ rank a < rank x :=
  (List.pairwise_cons.mp h).1 x hx

end Xv6Bfs.Lib.KeyedQueue

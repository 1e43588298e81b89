import Xv6Bfs.Lib.LinkedChain
import Xv6Bfs.Sched.SkipList
import Mathlib.Data.List.Sort
import Mathlib.Data.List.TakeWhile
import Mathlib.Data.Fintype.Card
import Mathlib.Data.Finset.Card
import Mathlib.Order.Interval.Finset.Nat

namespace Xv6Bfs.Sched

open Lib.LinkedChain Lib.Execution

/-- The slot of a linked node and the process it stands for. -/
abbrev Entry := ℕ × ProcId

def InLevels (k : ℤ) : Prop := 0 ≤ k ∧ k < LEVELS

def ptr (k : ℤ) (e : Entry) : NodePtr := .cell k e.1

def procs (L : ℤ → List Entry) (k : ℤ) : List ProcId := (L k).map Prod.snd

namespace SkipList

/-- On level `k` the nodes `l` are linked, in this order, behind the head, and
every other slot is unallocated. -/
structure LevelRep (t : SkipList) (k : ℤ) (l : List Entry) : Prop where
  head_proc : (t.level (.cell k 0)).proc = none
  head_prev : (t.level (.cell k 0)).prev = .null
  linked : Linked (fun a ↦ (t.level a).next) (fun a ↦ (t.level a).prev) .null (.cell k 0)
    (l.map (ptr k))
  slot : ∀ e ∈ l, 1 ≤ e.1 ∧ e.1 ≤ NPROC
  holds : ∀ e ∈ l, (t.level (ptr k e)).proc = some e.2
  slots_nodup : (l.map Prod.fst).Nodup
  free : ∀ j, 1 ≤ j → j ≤ NPROC → j ∉ l.map Prod.fst → (t.level (.cell k j)).proc = none

end SkipList

/-- The bottom level is sorted by deadline and each level is a subsequence of the one below. -/
structure Ordered (vd : ProcId → ℤ) (L : ℤ → List Entry) : Prop where
  sub : ∀ k, InLevels k → k ≠ 0 → (procs L k).Sublist (procs L (k - 1))
  nodup : (procs L 0).Nodup
  sorted : (procs L 0).Pairwise (fun p q ↦ vd p ≤ vd q)

structure SkipList.Rep (vd : ProcId → ℤ) (t : SkipList) (L : ℤ → List Entry) : Prop
    extends Ordered vd L where
  level : ∀ k, InLevels k → LevelRep t k (L k)
  bottom : ∀ e ∈ L 0, (t.level (ptr 0 e)).lower = .null
  lower : ∀ k, InLevels k → k ≠ 0 → ∀ e ∈ L k,
    ∃ e' ∈ L (k - 1), e'.2 = e.2 ∧ (t.level (ptr k e)).lower = ptr (k - 1) e'

theorem levels_pos : 0 < LEVELS := by decide

theorem inLevels_zero : InLevels 0 := ⟨le_rfl, by decide⟩

theorem InLevels.pred {k : ℤ} (hk : InLevels k) (h0 : k ≠ 0) : InLevels (k - 1) := by
  unfold InLevels at *
  omega

theorem valid_cell {k : ℤ} {j : ℕ} (hk : InLevels k) (hj : j ≤ NPROC) :
    (NodePtr.cell k j).Valid := ⟨hk, hj⟩

theorem ptr_injective (k : ℤ) (l : List Entry) (h : (l.map Prod.fst).Nodup) :
    (l.map (ptr k)).Nodup := by
  have he : l.map (ptr k) = (l.map Prod.fst).map (NodePtr.cell k) := by
    rw [List.map_map]; rfl
  rw [he]
  exact h.map (fun i j hij ↦ by injection hij)

namespace Ordered

variable {vd : ProcId → ℤ} {L : ℤ → List Entry} {k : ℤ}

theorem sub_zero (h : Ordered vd L) (n : ℕ) (hn : InLevels n) :
    (procs L n).Sublist (procs L 0) := by
  induction n with
  | zero => exact List.Sublist.refl _
  | succ n ih =>
    have hs := h.sub _ hn (by omega)
    rw [show ((n + 1 : ℕ) : ℤ) - 1 = n by omega] at hs
    refine hs.trans (ih ?_)
    unfold InLevels at *
    omega

theorem sub_bottom (h : Ordered vd L) (hk : InLevels k) : (procs L k).Sublist (procs L 0) := by
  obtain ⟨n, rfl⟩ := Int.eq_ofNat_of_zero_le hk.1
  exact h.sub_zero n hk

theorem nodup_at (h : Ordered vd L) (hk : InLevels k) : (procs L k).Nodup :=
  h.nodup.sublist (h.sub_bottom hk)

theorem sorted_at (h : Ordered vd L) (hk : InLevels k) :
    (procs L k).Pairwise (fun p q ↦ vd p ≤ vd q) :=
  h.sorted.sublist (h.sub_bottom hk)

theorem length_le (h : Ordered vd L) (hk : InLevels k) : (L k).length ≤ NPROC := by
  have hl := (h.nodup_at hk).length_le_card
  simpa only [procs, List.length_map, Fintype.card_fin] using hl

end Ordered

namespace SkipList

theorem valid_head {k : ℤ} (hk : InLevels k) : (NodePtr.cell k 0).Valid :=
  valid_cell hk (Nat.zero_le _)

namespace LevelRep

variable {t t' : SkipList} {k : ℤ} {l : List Entry} {e : Entry}

theorem valid (h : LevelRep t k l) (hk : InLevels k) (he : e ∈ l) : (ptr k e).Valid :=
  valid_cell hk (h.slot e he).2

theorem cells_nodup (h : LevelRep t k l) : (NodePtr.cell k 0 :: l.map (ptr k)).Nodup := by
  refine List.nodup_cons.mpr ⟨?_, ptr_injective k _ h.slots_nodup⟩
  intro hm
  obtain ⟨e, he, hp⟩ := List.mem_map.mp hm
  have hs := (h.slot e he).1
  injection hp with _ hj
  omega

theorem congr (h : LevelRep t k l) (ht : ∀ j, t'.level (.cell k j) = t.level (.cell k j)) :
    LevelRep t' k l := by
  have hptr (e : Entry) : t'.level (ptr k e) = t.level (ptr k e) := ht e.1
  constructor
  · rw [ht]; exact h.head_proc
  · rw [ht]; exact h.head_prev
  · refine h.linked.congr ?_ ?_
    · intro x hx
      rcases List.mem_cons.mp hx with rfl | hx
      · rw [ht]
      · obtain ⟨e, -, rfl⟩ := List.mem_map.mp hx
        rw [hptr]
    · intro x hx
      obtain ⟨e, -, rfl⟩ := List.mem_map.mp hx
      rw [hptr]
  · exact h.slot
  · intro e he
    rw [hptr]
    exact h.holds e he
  · exact h.slots_nodup
  · intro j h1 h2 hj
    rw [ht]
    exact h.free j h1 h2 hj

end LevelRep

namespace Rep

variable {vd vd' : ProcId → ℤ} {t t' : SkipList} {L : ℤ → List Entry} {k : ℤ} {e : Entry}

theorem valid (h : Rep vd t L) (hk : InLevels k) (he : e ∈ L k) : (ptr k e).Valid :=
  (h.level k hk).valid hk he

theorem congr_level (h : Rep vd t L) (ht : t'.level = t.level) : Rep vd t' L :=
  { h with
    level := fun k hk ↦ (h.level k hk).congr (fun j ↦ by rw [ht])
    bottom := by simpa only [ht] using h.bottom
    lower := by simpa only [ht] using h.lower }

end Rep

variable {vd : ProcId → ℤ} {d : ℤ} {t : SkipList} {L : ℤ → List Entry} {k : ℤ}

def before (vd : ProcId → ℤ) (d : ℤ) (l : List Entry) : List Entry :=
  l.takeWhile (fun e ↦ goesBefore (vd e.2) d)

def predSlot (vd : ProcId → ℤ) (d : ℤ) (l : List Entry) : ℕ :=
  ((before vd d l).map Prod.fst).getLastD 0

theorem before_append (vd : ProcId → ℤ) (d : ℤ) (l : List Entry) :
    before vd d l ++ l.dropWhile (fun e ↦ goesBefore (vd e.2) d) = l :=
  List.takeWhile_append_dropWhile

theorem before_sublist (vd : ProcId → ℤ) (d : ℤ) (l : List Entry) : (before vd d l).Sublist l :=
  List.takeWhile_sublist _

theorem mem_before_lt {l : List Entry} {e : Entry} (he : e ∈ before vd d l) : vd e.2 < d := by
  simpa only [goesBefore, decide_eq_true_eq] using List.mem_takeWhile_imp he

theorem predSlot_cases (vd : ProcId → ℤ) (d : ℤ) (l : List Entry) :
    predSlot vd d l = 0 ∨ ∃ e ∈ l, e.1 = predSlot vd d l ∧ vd e.2 < d := by
  have hm := List.getLastD_mem_cons (l := (before vd d l).map Prod.fst) (a := 0)
  rcases List.mem_cons.mp hm with h0 | hm
  · exact .inl h0
  · obtain ⟨e, he, hj⟩ := List.mem_map.mp hm
    exact .inr ⟨e, (before_sublist vd d l).subset he, hj, mem_before_lt he⟩

theorem nextTest_linked (vd : ProcId → ℤ) (test : ℤ → Bool) {a : NodePtr} {l : List Entry}
    (hl : Linked (fun a ↦ (t.level a).next) (fun a ↦ (t.level a).prev) .null a (l.map (ptr k)))
    (hv : ∀ e ∈ l, (ptr k e).Valid) (hp : ∀ e ∈ l, (t.level (ptr k e)).proc = some e.2) :
    t.nextTest vd test (t.level a) = .ok ((l.head?.map (fun e ↦ test (vd e.2))).getD false) := by
  have hn := hl.next_eq
  cases l with
  | nil =>
    simp only [List.map_nil, List.headD_nil] at hn
    simp [nextTest, hn]
  | cons e l =>
    simp only [List.map_cons, List.headD_cons] at hn
    have he : e ∈ e :: l := List.mem_cons_self
    have hnull : ptr k e ≠ .null := by simp [ptr]
    simp [nextTest, hn, hnull, load_of_valid (hv e he), hp e he]

theorem search_walk (m : Panic) {j fuel : ℕ} {rest : List Entry} {pl : ℤ → NodePtr} (hk : 0 ≤ k)
    (hj : (NodePtr.cell k j).Valid)
    (hl : Linked (fun a ↦ (t.level a).next) (fun a ↦ (t.level a).prev) .null (.cell k j)
      (rest.map (ptr k)))
    (hv : ∀ e ∈ rest, (ptr k e).Valid) (hp : ∀ e ∈ rest, (t.level (ptr k e)).proc = some e.2) :
    search m vd d t (fuel + (before vd d rest).length) k (.cell k j) pl =
      search m vd d t fuel k (.cell k (((before vd d rest).map Prod.fst).getLastD j)) pl := by
  induction rest generalizing j with
  | nil => rfl
  | cons e rest ih =>
    by_cases hb : goesBefore (vd e.2) d
    · have hbe : before vd d (e :: rest) = e :: before vd d rest := by
        simp only [before, List.takeWhile_cons, hb, if_true]
      have hnext : (t.level (.cell k j)).next = .cell k e.1 := hl.1
      have htest := nextTest_linked vd (goesBefore · d) hl hv hp
      simp only [List.head?_cons, Option.map_some, Option.getD_some, hb] at htest
      rw [hbe, List.length_cons, ← Nat.add_assoc, search, if_neg (by omega), load_of_valid hj]
      simp only [ok_bind, htest, if_true, hnext, List.map_cons, List.getLastD_cons]
      exact ih (hv e List.mem_cons_self) hl.2.2
        (fun e' he' ↦ hv e' (List.mem_cons_of_mem e he'))
        (fun e' he' ↦ hp e' (List.mem_cons_of_mem e he'))
    · have hbe : before vd d (e :: rest) = [] := by
        simp only [before, List.takeWhile_cons, hb, Bool.false_eq_true, if_false]
      rw [hbe]
      rfl

/-- Where the search loop may stand when it comes to level `k`: at the head or at
a node it would have passed; below level 0, where the last level has sent it. -/
def StartAt (vd : ProcId → ℤ) (d : ℤ) (L : ℤ → List Entry) (k : ℤ) (a : NodePtr) : Prop :=
  (k < 0 ∧ a = if predSlot vd d (L 0) = 0 then .cell k 0 else .null) ∨
    (0 ≤ k ∧ ∃ j, a = .cell k j ∧ (j = 0 ∨ ∃ e ∈ L k, e.1 = j ∧ vd e.2 < d))

theorem before_of_mem {l₁ l₂ : List Entry} {e : Entry}
    (hs : (l₁ ++ e :: l₂).Pairwise (fun a b ↦ vd a.2 ≤ vd b.2)) (he : vd e.2 < d) :
    before vd d (l₁ ++ e :: l₂) = l₁ ++ e :: before vd d l₂ := by
  have hl : ∀ x ∈ l₁ ++ [e], goesBefore (vd x.2) d = true := by
    intro x hx
    simp only [goesBefore, decide_eq_true_eq]
    rcases List.mem_append.mp hx with hx | hx
    · have := (List.pairwise_append.mp hs).2.2 x hx e (by simp)
      omega
    · rw [List.mem_singleton.mp hx]
      exact he
  have ha : l₁ ++ e :: l₂ = (l₁ ++ [e]) ++ l₂ := by simp
  rw [ha, before, List.takeWhile_append_of_pos hl]
  simp [before]

theorem start_rest (h : Rep vd t L) (hk : InLevels k) {j : ℕ}
    (hj : j = 0 ∨ ∃ e ∈ L k, e.1 = j ∧ vd e.2 < d) :
    ∃ l₁ rest, L k = l₁ ++ rest ∧
      Linked (fun a ↦ (t.level a).next) (fun a ↦ (t.level a).prev) .null (.cell k j)
        (rest.map (ptr k)) ∧
      ((before vd d rest).map Prod.fst).getLastD j = predSlot vd d (L k) ∧
      (before vd d rest).length ≤ NPROC := by
  have hlen (rest : List Entry) (hr : rest.Sublist (L k)) :
      (before vd d rest).length ≤ NPROC :=
    ((before_sublist vd d rest).trans hr).length_le.trans (h.length_le hk)
  rcases hj with rfl | ⟨e, he, rfl, hlt⟩
  · exact ⟨[], L k, rfl, (h.level k hk).linked, rfl, hlen _ (List.Sublist.refl _)⟩
  · obtain ⟨l₁, l₂, hsplit⟩ := List.append_of_mem he
    refine ⟨l₁ ++ [e], l₂, by simp [hsplit], ?_, ?_, hlen _ ?_⟩
    · have hl := (h.level k hk).linked
      have ha : (L k).map (ptr k) = (l₁ ++ [e]).map (ptr k) ++ l₂.map (ptr k) := by simp [hsplit]
      rw [ha] at hl
      simpa [List.getLastD_concat, ptr] using hl.drop
    · have hs := h.sorted_at hk
      rw [procs, List.pairwise_map, hsplit] at hs
      rw [predSlot, hsplit, before_of_mem hs hlt]
      simp [List.getLastD_eq_getLast?, List.getLast?_append, List.getLast?_cons]
    · rw [hsplit]
      exact ((List.sublist_cons_self e l₂).trans (List.sublist_append_right l₁ _))

theorem pred_valid (h : Rep vd t L) (hk : InLevels k) :
    (NodePtr.cell k (predSlot vd d (L k))).Valid := by
  rcases predSlot_cases vd d (L k) with h0 | ⟨e, he, hj, -⟩
  · rw [h0]
    exact valid_head hk
  · rw [← hj]
    exact h.valid hk he

theorem pred_linked (h : Rep vd t L) (hk : InLevels k) :
    Linked (fun a ↦ (t.level a).next) (fun a ↦ (t.level a).prev) .null
      (.cell k (predSlot vd d (L k)))
      (((L k).dropWhile (fun e ↦ goesBefore (vd e.2) d)).map (ptr k)) := by
  have hl := (h.level k hk).linked
  rw [← before_append vd d (L k), List.map_append] at hl
  have hg : ((before vd d (L k)).map (ptr k)).getLastD (.cell k 0) =
      .cell k (predSlot vd d (L k)) := by
    rw [predSlot, ← List.getLastD_map (f := NodePtr.cell k), List.map_map]
    rfl
  have hd := hl.drop
  rwa [hg] at hd

theorem pred_test (h : Rep vd t L) (hk : InLevels k) :
    t.nextTest vd (goesBefore · d) (t.level (.cell k (predSlot vd d (L k)))) = .ok false := by
  have hsub : ∀ e ∈ (L k).dropWhile (fun e ↦ goesBefore (vd e.2) d), e ∈ L k :=
    fun e he ↦ (List.dropWhile_sublist _).subset he
  rw [nextTest_linked vd (goesBefore · d) (pred_linked h hk) (fun e he ↦ h.valid hk (hsub e he))
    (fun e he ↦ (h.level k hk).holds e (hsub e he))]
  cases hd : (L k).dropWhile (fun e ↦ goesBefore (vd e.2) d) with
  | nil => rfl
  | cons e l =>
    have hne := List.head?_dropWhile_not (fun e : Entry ↦ goesBefore (vd e.2) d) (L k)
    rw [hd] at hne
    simpa using hne

theorem search_level (m : Panic) (h : Rep vd t L) (hk : InLevels k) {a : NodePtr}
    (ha : StartAt vd d L k a) :
    ∃ n b, n ≤ NPROC ∧ StartAt vd d L (k - 1) b ∧ ∀ fuel pl,
      search m vd d t (fuel + 1 + n) k a pl =
        search m vd d t fuel (k - 1) b
          (Function.update pl k (.cell k (predSlot vd d (L k)))) := by
  obtain ⟨hk0, -⟩ | ⟨hk0, j, rfl, hj⟩ := ha
  · exact absurd hk.1 (by omega)
  obtain ⟨l₁, rest, hsplit, hl, hlast, hlen⟩ := start_rest h hk hj
  have hmem : ∀ e ∈ rest, e ∈ L k := fun e he ↦ hsplit ▸ List.mem_append_right l₁ he
  have hv : ∀ e ∈ rest, (ptr k e).Valid := fun e he ↦ h.valid hk (hmem e he)
  have hp : ∀ e ∈ rest, (t.level (ptr k e)).proc = some e.2 := fun e he ↦ (h.level k hk).holds e (hmem e he)
  have hjv : (NodePtr.cell k j).Valid := by
    rcases hj with rfl | ⟨e, he, rfl, -⟩
    · exact valid_head hk
    · exact h.valid hk he
  have hpred := pred_valid (d := d) h hk
  have htest := pred_test (d := d) h hk
  have hstep (fuel : ℕ) (pl : ℤ → NodePtr) :
      search m vd d t (fuel + 1 + (before vd d rest).length) k (.cell k j) pl =
        search m vd d t (fuel + 1) k (.cell k (predSlot vd d (L k))) pl := by
    rw [search_walk m hk.1 hjv hl hv hp, hlast]
  rcases predSlot_cases vd d (L k) with h0 | ⟨e, he, hj', hlt⟩
  · refine ⟨_, .cell (k - 1) 0, hlen, ?_, fun fuel pl ↦ ?_⟩
    · by_cases hz : k = 0
      · subst hz
        exact .inl ⟨by omega, by simp [h0]⟩
      · exact .inr ⟨(hk.pred hz).1, 0, rfl, .inl rfl⟩
    · rw [hstep, search, if_neg (by omega), load_of_valid hpred]
      simp only [ok_bind, htest, Bool.false_eq_true, if_false]
      rw [h0, if_pos (h.level k hk).head_proc]
  · have hproc : (t.level (.cell k (predSlot vd d (L k)))).proc = some e.2 := by
      rw [← hj']; exact (h.level k hk).holds e he
    have hne : predSlot vd d (L k) ≠ 0 := by
      have := ((h.level k hk).slot e he).1
      omega
    refine ⟨_, (t.level (.cell k (predSlot vd d (L k)))).lower, hlen, ?_, fun fuel pl ↦ ?_⟩
    · by_cases hz : k = 0
      · subst hz
        refine .inl ⟨by omega, ?_⟩
        rw [if_neg hne, ← hj']
        exact h.bottom e he
      · obtain ⟨e', he', hpe, hlow⟩ := h.lower k hk hz e he
        refine .inr ⟨(hk.pred hz).1, e'.1, ?_, .inr ⟨e', he', rfl, hpe ▸ hlt⟩⟩
        rw [← hj']
        exact hlow
    · have hpanic : ¬ ((t.level (.cell k (predSlot vd d (L k)))).lower = .null ∧ 0 ≤ k - 1) := by
        rintro ⟨hnull, hk1⟩
        obtain ⟨e', -, -, hlow⟩ := h.lower k hk (by omega) e he
        rw [← hj'] at hnull
        exact absurd (hlow.symm.trans hnull) (by simp [ptr])
      rw [hstep, search, if_neg (by omega), load_of_valid hpred]
      simp only [ok_bind, htest, Bool.false_eq_true, if_false]
      rw [if_neg (by simp [hproc]), if_neg hpanic]

theorem search_spec (m : Panic) (h : Rep vd t L) (n : ℕ) (hn : n ≤ LEVELS) (fuel : ℕ)
    (hf : n * (NPROC + 1) + 1 ≤ fuel) {a : NodePtr} (ha : StartAt vd d L (n - 1) a)
    (pl : ℤ → NodePtr) :
    ∃ b pl', StartAt vd d L (-1) b ∧ search m vd d t fuel (n - 1) a pl = .ok (b, pl') ∧
      (∀ k : ℤ, 0 ≤ k → k < n → pl' k = .cell k (predSlot vd d (L k))) ∧
      (∀ k : ℤ, n ≤ k → pl' k = pl k) := by
  induction n generalizing fuel a pl with
  | zero =>
    obtain ⟨fuel, rfl⟩ : ∃ f, fuel = f + 1 := ⟨fuel - 1, by omega⟩
    refine ⟨a, pl, by simpa using ha, ?_, fun k h0 hk ↦ ?_, fun _ _ ↦ rfl⟩
    · rw [search, if_pos (by omega)]
    · exact absurd hk (by omega)
  | succ n ih =>
    have hk : InLevels ((n + 1 : ℕ) - 1 : ℤ) := ⟨by omega, by omega⟩
    obtain ⟨s, b, hs, hb, hstep⟩ := search_level m h hk ha
    rw [show (((n + 1 : ℕ) : ℤ) - 1) = n by omega] at *
    rw [Nat.succ_mul] at hf
    obtain ⟨c, pl', hc, he, hpl, hrest⟩ := ih (by omega) (fuel - 1 - s) (by omega) hb
      (Function.update pl n (.cell n (predSlot vd d (L n))))
    refine ⟨c, pl', hc, ?_, fun k h0 hk ↦ ?_, fun k hk ↦ ?_⟩
    · have hfuel : fuel = fuel - 1 - s + 1 + s := by omega
      rw [hfuel, hstep]
      exact he
    · by_cases hkn : k = n
      · rw [hrest k (by omega), hkn, Function.update_self]
      · exact hpl k h0 (by omega)
    · rw [hrest k (by omega), Function.update_of_ne (by omega)]

theorem searchAll_spec (m : Panic) (d : ℤ) (h : Rep vd t L) :
    ∃ pl, t.searchAll m vd d =
        .ok (if predSlot vd d (L 0) = 0 then .cell (-1) 0 else .null, pl) ∧
      ∀ k, InLevels k → pl k = .cell k (predSlot vd d (L k)) := by
  have hstart : StartAt vd d L (LEVELS - 1) (.cell (LEVELS - 1) 0) :=
    .inr ⟨by have := levels_pos; omega, 0, rfl, .inl rfl⟩
  obtain ⟨b, pl, hb, he, hpl, -⟩ := search_spec m h LEVELS le_rfl (LEVELS * (NPROC + 1) + 1) le_rfl
    hstart (fun _ ↦ .null)
  refine ⟨pl, ?_, fun k hk ↦ hpl k hk.1 hk.2⟩
  obtain ⟨-, rfl⟩ | ⟨h0, -⟩ := hb
  · exact he
  · exact absurd h0 (by decide)

theorem pinit_rep (vd : ProcId → ℤ) (seed : BitVec 32) :
    Rep vd (bss seed).pinit (fun _ ↦ []) where
  sub _ _ _ := List.Sublist.refl _
  nodup := List.nodup_nil
  sorted := List.Pairwise.nil
  level k hk := by
    have hhead : ((bss seed).pinit.level (.cell k 0)) = ⟨none, .null, .null, .null⟩ := by
      simp [pinit, valid_head hk]
    constructor
    · rw [hhead]
    · rw [hhead]
    · simp [Lib.LinkedChain.Linked, hhead]
    · simp
    · simp
    · simp
    · intro j h1 h2 _
      obtain ⟨j, rfl⟩ : ∃ i, j = i + 1 := ⟨j - 1, by omega⟩
      simp [pinit, bss]
  bottom := by simp
  lower := by simp

theorem walk_linked {k : ℤ} {l : List Entry} {a : NodePtr} {fuel : ℕ}
    (hl : Linked (fun a ↦ (t.level a).next) (fun a ↦ (t.level a).prev) .null a (l.map (ptr k)))
    (hp : ∀ e ∈ l, (t.level (ptr k e)).proc = some e.2) (hf : l.length < fuel) :
    t.walk fuel (t.level a).next = l.map Prod.snd := by
  induction l generalizing a fuel with
  | nil =>
    obtain ⟨fuel, rfl⟩ : ∃ f, fuel = f + 1 := ⟨fuel - 1, by simp at hf; omega⟩
    rw [show (t.level a).next = .null from hl]
    rfl
  | cons e l ih =>
    obtain ⟨fuel, rfl⟩ : ∃ f, fuel = f + 1 := ⟨fuel - 1, by simp at hf; omega⟩
    obtain ⟨hn, -, hl⟩ := hl
    have hrest := ih hl (fun e he ↦ hp e (List.mem_cons_of_mem _ he)) (by simpa using hf)
    have he := hp e List.mem_cons_self
    rw [show (t.level a).next = .cell k e.1 from hn]
    rw [ptr] at he hrest
    simp [walk, he, hrest]

theorem levelProcs_eq {k : ℤ} (h : Rep vd t L) (hk : InLevels k) : t.levelProcs k = procs L k :=
  walk_linked (h.level k hk).linked (h.level k hk).holds
    (Nat.lt_succ_of_le (h.length_le hk))

end SkipList

end Xv6Bfs.Sched

import Xv6Bfs.Lib.Ring
import Xv6Bfs.Lib.Tiling
import Xv6Bfs.Umalloc.Program
import Mathlib.Data.List.Chain

namespace Xv6Bfs.Umalloc

open Lib.Ring Lib.Tiling

/-- A piece of the heap: where its header is, its size in headers, and what was asked for if
it is not free. -/
structure Block where
  addr : ℕ
  size : ℕ
  use : Option ℕ
  deriving DecidableEq

namespace Block

def bytes (b : Block) : ℕ := HEADER * b.size

def isFree (b : Block) : Bool := b.use.isNone

def live (b : Block) : Option (ℕ × ℕ) := b.use.map (fun n ↦ (b.addr + HEADER, n))

end Block

def frees (bs : List Block) : List ℕ := (bs.filter Block.isFree).map Block.addr

def lives (bs : List Block) : List (ℕ × ℕ) := bs.filterMap Block.live

section Lists

variable {b : Block} {bs l r : List Block}

@[simp] theorem frees_append : frees (l ++ r) = frees l ++ frees r := by simp [frees]

@[simp] theorem frees_nil : frees [] = [] := rfl

theorem frees_cons_free (h : b.use = none) : frees (b :: bs) = b.addr :: frees bs := by
  simp [frees, Block.isFree, h]

theorem frees_cons_live (h : b.use ≠ none) : frees (b :: bs) = frees bs := by
  simp [frees, Block.isFree, h]

theorem mem_frees {a : ℕ} : a ∈ frees bs ↔ ∃ b ∈ bs, b.use = none ∧ b.addr = a := by
  simp [frees, Block.isFree, and_assoc]

@[simp] theorem lives_append : lives (l ++ r) = lives l ++ lives r := by simp [lives]

theorem lives_cons_free (h : b.use = none) : lives (b :: bs) = lives bs := by
  simp [lives, Block.live, h]

theorem lives_cons_live {n : ℕ} (h : b.use = some n) :
    lives (b :: bs) = (b.addr + HEADER, n) :: lives bs := by
  simp [lives, Block.live, h]

theorem mem_lives {x : ℕ × ℕ} :
    x ∈ lives bs ↔ ∃ b ∈ bs, b.use = some x.2 ∧ b.addr + HEADER = x.1 := by
  simp only [lives, List.mem_filterMap, Block.live, Option.map_eq_some_iff]
  constructor
  · rintro ⟨b, hb, n, hn, rfl⟩
    exact ⟨b, hb, hn, rfl⟩
  · rintro ⟨b, hb, hn, hx⟩
    exact ⟨b, hb, x.2, hn, Prod.ext hx rfl⟩

end Lists

/-- The blocks cover the heap, no two free ones are next to each other, and no live one is
smaller than what was asked for. -/
structure Layout (lo hi : ℕ) (bs : List Block) : Prop where
  tiled : Tiled Block.addr Block.bytes lo bs hi
  apart : bs.IsChain (fun b c ↦ b.use = none → c.use ≠ none)
  room : ∀ b ∈ bs, ∀ n, b.use = some n → n + HEADER ≤ b.bytes

namespace Layout

variable {lo hi : ℕ} {b c : Block} {bs l r : List Block}

theorem header_pos : 0 < HEADER := by decide

theorem bounds (h : Layout lo hi bs) (hb : b ∈ bs) :
    lo ≤ b.addr ∧ HEADER ≤ b.bytes ∧ b.addr + b.bytes ≤ hi := by
  obtain ⟨h1, h2, h3⟩ := h.tiled.bounds hb
  refine ⟨h1, ?_, h3⟩
  rw [Block.bytes] at h2 ⊢
  exact Nat.le_mul_of_pos_right _ (Nat.pos_of_mul_pos_left h2)

theorem split (h : Layout lo hi (l ++ b :: r)) :
    Tiled Block.addr Block.bytes lo l b.addr ∧
      Tiled Block.addr Block.bytes (b.addr + b.bytes) r hi := by
  obtain ⟨m, hl, rfl, -, hr⟩ := tiled_append.mp h.tiled
  exact ⟨hl, hr⟩

theorem before (h : Layout lo hi (l ++ b :: r)) (hc : c ∈ l) : c.addr + c.bytes ≤ b.addr :=
  (h.split.1.bounds hc).2.2

theorem after (h : Layout lo hi (l ++ b :: r)) (hc : c ∈ r) : b.addr + b.bytes ≤ c.addr :=
  (h.split.2.bounds hc).1

theorem bytes_pos (h : Layout lo hi bs) (hb : b ∈ bs) : 0 < b.bytes := (h.tiled.bounds hb).2.1

theorem addr_ne (h : Layout lo hi (l ++ b :: r)) (hc : c ∈ l ∨ c ∈ r) : c.addr ≠ b.addr := by
  have hb := h.bytes_pos (b := b) (by simp)
  rcases hc with hc | hc
  · have := h.before hc
    have := h.bytes_pos (b := c) (by simp [hc])
    omega
  · have := h.after hc
    omega

theorem frees_pairwise (h : Layout lo hi bs) : (frees bs).Pairwise (· < ·) := by
  rw [frees, List.pairwise_map]
  refine (h.tiled.pairwise.filter _).imp_of_mem (fun {b c} hb _ hbc ↦ ?_)
  have := h.bytes_pos (List.mem_of_mem_filter hb)
  omega

theorem frees_bounds (h : Layout lo hi bs) {a : ℕ} (ha : a ∈ frees bs) : lo ≤ a ∧ a < hi := by
  obtain ⟨b, hb, -, rfl⟩ := mem_frees.mp ha
  have := h.bounds hb
  have := h.bytes_pos hb
  omega

theorem ring_nodup (h : Layout lo hi bs) {base : ℕ} (hbase : base < lo) :
    (base :: frees bs).Nodup := by
  refine List.nodup_cons.mpr ⟨fun hm ↦ ?_, h.frees_pairwise.imp Nat.ne_of_lt⟩
  have := (h.frees_bounds hm).1
  omega

theorem length_frees_le (h : Layout lo hi bs) : (frees bs).length ≤ hi := by
  have hs : (frees bs) ⊆ List.range hi := fun a ha ↦ List.mem_range.mpr (h.frees_bounds ha).2
  have hn : (frees bs).Nodup := h.frees_pairwise.imp Nat.ne_of_lt
  simpa using (List.subperm_of_subset hn hs).length_le

theorem split_chain (h : Layout lo hi (l ++ b :: r)) :
    l.IsChain (fun b c ↦ b.use = none → c.use ≠ none) ∧
      r.IsChain (fun b c ↦ b.use = none → c.use ≠ none) ∧
      (∀ d ∈ l.getLast?, d.use = none → b.use ≠ none) ∧
      ∀ c ∈ r.head?, b.use = none → c.use ≠ none := by
  obtain ⟨hl, hr, hlr⟩ := List.isChain_append.mp h.apart
  obtain ⟨hbr, hr⟩ := List.isChain_cons.mp hr
  exact ⟨hl, hr, fun d hd ↦ hlr d hd b rfl, hbr⟩

theorem join {m : ℕ} (hb : 0 < b.bytes) (hm : b.addr = m)
    (hl : Tiled Block.addr Block.bytes lo l m)
    (hr : Tiled Block.addr Block.bytes (m + b.bytes) r hi)
    (hcl : l.IsChain (fun b c ↦ b.use = none → c.use ≠ none))
    (hcr : r.IsChain (fun b c ↦ b.use = none → c.use ≠ none))
    (hlb : ∀ d ∈ l.getLast?, d.use = none → b.use ≠ none)
    (hbr : ∀ c ∈ r.head?, b.use = none → c.use ≠ none)
    (hroom : ∀ c ∈ l ++ b :: r, ∀ n, c.use = some n → n + HEADER ≤ c.bytes) :
    Layout lo hi (l ++ b :: r) where
  tiled := tiled_append.mpr ⟨m, hl, hm, hb, hr⟩
  apart := List.isChain_append.mpr ⟨hcl, List.isChain_cons.mpr ⟨hbr, hcr⟩, fun d hd c hc ↦ by
    cases hc
    exact hlb d hd⟩
  room := hroom

end Layout

end Xv6Bfs.Umalloc

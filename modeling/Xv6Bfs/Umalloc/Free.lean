import Xv6Bfs.Umalloc.Layout

namespace Xv6Bfs.Umalloc

open Lib.Ring Lib.Tiling Lib.Execution

/-- The free blocks are on the circular list of `base`, by address, and `freep` is on it. -/
structure Inv (base lo : ℕ) (s : Heap) (bs : List Block) : Prop where
  layout : Layout lo s.brk bs
  size : ∀ b ∈ bs, s.size b.addr = b.size
  base_size : s.size base = 0
  ring : Path s.ptr base (frees bs) base
  freep : s.freep ∈ base :: frees bs

namespace Heap

variable {s : Heap} {a b p n : ℕ}

theorem setPtr_ptr : (s.setPtr a p).ptr b = if b = a then p else s.ptr b := by
  simp only [ptr, setPtr_mem, Function.update_apply]
  split <;> rfl

@[simp] theorem setPtr_size : (s.setPtr a p).size b = s.size b := by
  simp only [size, setPtr_mem, Function.update_apply]
  split
  · rename_i hb
    rw [hb]
  · rfl

theorem setSize_size : (s.setSize a n).size b = if b = a then n else s.size b := by
  simp only [size, setSize_mem, Function.update_apply]
  split <;> rfl

@[simp] theorem setSize_ptr : (s.setSize a n).ptr b = s.ptr b := by
  simp only [ptr, setSize_mem, Function.update_apply]
  split
  · rename_i hb
    rw [hb]
  · rfl

@[simp] theorem setFreep_ptr : (s.setFreep p).ptr b = s.ptr b := rfl

@[simp] theorem setFreep_size : (s.setFreep p).size b = s.size b := rfl

end Heap

section Loop

variable {s : Heap} {base bp q x y : ℕ} {fs m : List ℕ}

def Stops (bp : ℕ) (s : Heap) (p : ℕ) : Prop :=
  (p < bp ∧ bp < s.ptr p) ∨ (s.ptr p ≤ p ∧ (p < bp ∨ bp < s.ptr p))

theorem freeLoop_stop (h : Stops bp s x) (fuel : ℕ) : s.freeLoop bp (fuel + 1) x = .ok x := by
  rw [Heap.freeLoop]
  split
  · rfl
  · rename_i h1
    rw [if_pos (h.resolve_left h1)]

theorem freeLoop_walk (h : Path s.ptr x m y) (hm : ∀ z ∈ x :: m, ¬ Stops bp s z) (fuel : ℕ) :
    s.freeLoop bp (fuel + (m.length + 1)) x = s.freeLoop bp fuel y := by
  induction m generalizing x with
  | nil =>
    have hx := not_or.mp (hm x List.mem_cons_self)
    rw [List.length_nil, Heap.freeLoop, if_neg hx.1, if_neg hx.2, show s.ptr x = y from h]
  | cons z m ih =>
    have hx := not_or.mp (hm x List.mem_cons_self)
    have hstep : s.freeLoop bp (fuel + (m.length + 1) + 1) x = s.freeLoop bp (fuel + (m.length + 1)) z := by
      rw [Heap.freeLoop, if_neg hx.1, if_neg hx.2, h.1]
    exact hstep.trans (ih h.2 (fun w hw ↦ hm w (List.mem_cons_of_mem x hw)))

variable (hring : Path s.ptr base fs base) (hsort : (base :: fs).Pairwise (· < ·))
  (hq : q ∈ base :: fs) (hqb : q < bp) (hmax : ∀ x ∈ base :: fs, x < bp → x ≤ q)
  (hbp : bp ∉ base :: fs) (hx : x ∈ base :: fs)
include hring hsort hq hqb hmax hbp hx

theorem stops_iff : Stops bp s x ↔ x = q := by
  obtain ⟨u, v, hsplit⟩ := List.append_of_mem hx
  have hptr := hring.next_at hsplit
  have hbase : base ≤ q ∧ base ≤ x := by
    have hle : ∀ z ∈ base :: fs, base ≤ z := by
      intro z hz
      rcases List.mem_cons.mp hz with rfl | hz
      · exact le_rfl
      · exact ((List.pairwise_cons.mp hsort).1 z hz).le
    exact ⟨hle q hq, hle x hx⟩
  rw [hsplit] at hsort hq
  obtain ⟨-, hv, hlow⟩ := List.pairwise_append.mp hsort
  have hu : ∀ z ∈ u, z < x := fun z hz ↦ hlow z hz x List.mem_cons_self
  unfold Stops
  rw [hptr]
  cases v with
  | nil =>
    -- the last node points back to `base`
    simp only [List.headD_nil]
    have hqx : q ≤ x := by
      rcases List.mem_append.mp hq with h | h
      · exact (hu q h).le
      · exact (List.mem_singleton.mp h).le
    have := hmax x hx
    omega
  | cons c v =>
    simp only [List.headD_cons]
    obtain ⟨hxc, hcv⟩ := List.pairwise_cons.mp hv
    have hc : c ∈ base :: fs := hsplit ▸ by simp
    have hcb : c ≠ bp := fun he ↦ hbp (he ▸ hc)
    have hqc : q ≤ x ∨ c ≤ q := by
      rcases List.mem_append.mp hq with h | h
      · exact .inl (hu q h).le
      · rcases List.mem_cons.mp h with h | h
        · exact .inl h.le
        · rcases List.mem_cons.mp h with h | h
          · exact .inr h.ge
          · exact .inr ((List.pairwise_cons.mp hcv).1 q h).le
    have := hxc c List.mem_cons_self
    have := hmax x hx
    have := hmax c hc
    omega

theorem freeLoop_finds {fuel : ℕ} (hf : fs.length + 1 < fuel) : s.freeLoop bp fuel x = .ok q := by
  have hstops {z : ℕ} (hz : z ∈ base :: fs) := stops_iff hring hsort hq hqb hmax hbp hz
  obtain ⟨l₁, l₂, hsplit, hrot⟩ := hring.rotate hx
  have hperm : (base :: fs).Perm (x :: (l₂ ++ l₁)) := by
    rw [hsplit]
    exact List.perm_append_comm
  by_cases hxq : x = q
  · obtain ⟨fuel, rfl⟩ : ∃ f, fuel = f + 1 := ⟨fuel - 1, by omega⟩
    rw [freeLoop_stop ((hstops hx).mpr hxq), hxq]
  · have hqm : q ∈ l₂ ++ l₁ := (List.mem_cons.mp (hperm.mem_iff.mp hq)).resolve_left (Ne.symm hxq)
    obtain ⟨m₁, m₂, hm⟩ := List.append_of_mem hqm
    rw [hm] at hrot hperm
    obtain ⟨hpath, -⟩ := path_append.mp hrot
    have hnd : (x :: (m₁ ++ q :: m₂)).Nodup := hperm.nodup_iff.mp (hsort.imp Nat.ne_of_lt)
    have hlen := hperm.length_eq
    simp only [List.length_cons, List.length_append] at hlen
    obtain ⟨f, rfl⟩ : ∃ f, fuel = f + 1 + (m₁.length + 1) := ⟨fuel - (m₁.length + 2), by omega⟩
    rw [freeLoop_walk hpath, freeLoop_stop ((hstops hq).mpr rfl)]
    intro z hz hstop
    have hzm : z ∈ x :: (m₁ ++ q :: m₂) := by
      rcases List.mem_cons.mp hz with rfl | hz
      · exact List.mem_cons_self
      · simp [hz]
    have hzq := (hstops (hperm.mem_iff.mpr hzm)).mp hstop
    subst hzq
    rcases List.mem_cons.mp hz with rfl | hz
    · exact hxq rfl
    · rw [List.nodup_cons] at hnd
      exact (List.nodup_middle.mp hnd.2 |> List.nodup_cons.mp).1 (List.mem_append_left m₂ hz)

end Loop

def prevNode (base : ℕ) (l : List Block) : ℕ := (frees l).getLastD base

section Join

variable {base lo : ℕ} {s : Heap} {l r : List Block} {b : Block}

theorem prevNode_mem (base : ℕ) (l : List Block) : prevNode base l ∈ base :: frees l :=
  List.getLastD_mem_cons

theorem prevNode_concat {d : Block} (hd : d.use = none) : prevNode base (l ++ [d]) = d.addr := by
  rw [prevNode, frees_append, frees_cons_free hd, frees_nil, List.getLastD_concat]

theorem frees_live (hb : b.use ≠ none) : frees (l ++ b :: r) = frees l ++ frees r := by
  rw [frees_append, frees_cons_live hb]

theorem Layout.frees_before (h : Layout lo s.brk (l ++ b :: r)) {x : ℕ} (hx : x ∈ frees l) :
    x < b.addr := by
  obtain ⟨c, hc, -, rfl⟩ := mem_frees.mp hx
  have := h.before hc
  have := h.bytes_pos (b := c) (by simp [hc])
  omega

theorem Layout.frees_after (h : Layout lo s.brk (l ++ b :: r)) {x : ℕ} (hx : x ∈ frees r) :
    b.addr + b.bytes ≤ x := by
  obtain ⟨c, hc, -, rfl⟩ := mem_frees.mp hx
  exact h.after hc

variable (hbase : base < lo)
include hbase

theorem Layout.ring_sorted {bs : List Block} (h : Layout lo s.brk bs) :
    (base :: frees bs).Pairwise (· < ·) := by
  refine List.pairwise_cons.mpr ⟨fun x hx ↦ ?_, h.frees_pairwise⟩
  have := (h.frees_bounds hx).1
  omega

theorem Layout.base_lt (h : Layout lo s.brk (l ++ b :: r)) : base < b.addr := by
  have := (h.bounds (b := b) (by simp)).1
  omega

theorem Layout.prevNode_lt (h : Layout lo s.brk (l ++ b :: r)) : prevNode base l < b.addr := by
  rcases List.mem_cons.mp (prevNode_mem base l) with hq | hq
  · rw [hq]
    exact h.base_lt hbase
  · exact h.frees_before hq

theorem Layout.le_prevNode (h : Layout lo s.brk (l ++ b :: r)) {x : ℕ} (hx : x ∈ base :: frees l) :
    x ≤ prevNode base l := by
  have hs := h.ring_sorted hbase
  rw [frees_append, ← List.cons_append] at hs
  have hs := (List.pairwise_append.mp hs).1
  rw [prevNode]
  rcases List.eq_nil_or_concat (frees l) with hl | ⟨m, y, hl⟩
  · rw [hl] at hx ⊢
    exact (List.mem_singleton.mp hx).le
  · rw [hl] at hx hs ⊢
    rw [List.concat_eq_append] at hx hs ⊢
    rw [List.getLastD_concat]
    rw [← List.cons_append] at hx hs
    rcases List.mem_append.mp hx with hx | hx
    · exact ((List.pairwise_append.mp hs).2.2 x hx y (by simp)).le
    · exact (List.mem_singleton.mp hx).le

theorem Layout.addr_not_ring (h : Layout lo s.brk (l ++ b :: r)) :
    b.addr ∉ base :: (frees l ++ frees r) := by
  intro hm
  rw [← List.cons_append] at hm
  rcases List.mem_append.mp hm with hm | hm
  · have := h.le_prevNode hbase hm
    have := h.prevNode_lt hbase
    omega
  · have := h.frees_after hm
    have := h.bytes_pos (b := b) (by simp)
    omega

theorem Inv.freeLoop (h : Inv base lo s (l ++ b :: r)) (hb : b.use ≠ none) :
    s.freeLoop b.addr (s.brk + 2) s.freep = .ok (prevNode base l) := by
  have hl := h.layout
  have hpos := hl.bytes_pos (b := b) (by simp)
  have hring := h.ring
  have hfreep := h.freep
  have hsort := hl.ring_sorted hbase
  have hlen := hl.length_frees_le
  rw [frees_live hb] at hring hfreep hsort hlen
  refine freeLoop_finds hring hsort ?_ (hl.prevNode_lt hbase) ?_ (hl.addr_not_ring hbase) hfreep
    (by omega)
  · rw [← List.cons_append]
    exact List.mem_append_left _ (prevNode_mem _ _)
  · intro x hx hxb
    rw [← List.cons_append] at hx
    rcases List.mem_append.mp hx with hx | hx
    · exact hl.le_prevNode hbase hx
    · have := hl.frees_after hx
      omega

end Join

/-- The heap after the first half of the end of `free`: the block `b` is on no list, and the
list would be right without it if the node before it took over its pointer. -/
structure Mid (base lo : ℕ) (s : Heap) (l : List Block) (b : Block) (r : List Block) : Prop where
  layout : Layout lo s.brk (l ++ b :: r)
  live : b.use ≠ none
  next : ∀ c ∈ r.head?, c.use ≠ none
  size : ∀ c ∈ l ++ b :: r, s.size c.addr = c.size
  base_size : s.size base = 0
  ring : Path (Function.update s.ptr (prevNode base l) (s.ptr b.addr)) base (frees l ++ frees r) base

section Halves

variable {base lo : ℕ} {s : Heap} {l r : List Block} {b c : Block}

theorem mem_middle (hc : c ∈ l ∨ c ∈ r) : c ∈ l ++ b :: r := by
  rcases hc with hc | hc <;> simp [hc]

theorem forall_mem_middle {P : Block → Prop} (h : ∀ c, c ∈ l ∨ c ∈ r → P c) (hb : P b) :
    ∀ c ∈ l ++ b :: r, P c := by
  intro c hc
  rcases List.mem_append.mp hc with hc | hc
  · exact h c (.inl hc)
  · rcases List.mem_cons.mp hc with rfl | hc
    · exact hb
    · exact h c (.inr hc)

theorem Layout.joined (h : Layout lo s.brk (l ++ b :: c :: r)) (hb : b.use ≠ none)
    (hc : c.use = none) :
    Layout lo s.brk (l ++ { b with size := b.size + c.size } :: r) ∧ c.addr = b.addr + b.bytes ∧
      ∀ d ∈ r.head?, d.use ≠ none := by
  obtain ⟨hl, hr⟩ := h.split
  obtain ⟨hcl, hcr, -, -⟩ := h.split_chain
  obtain ⟨haddr, -, hr⟩ := hr
  obtain ⟨hcr', hcr⟩ := List.isChain_cons.mp hcr
  have hbytes : Block.bytes { b with size := b.size + c.size } = b.bytes + c.bytes :=
    Nat.mul_add HEADER b.size c.size
  have hpos := h.bytes_pos (b := b) (by simp)
  refine ⟨.join (m := b.addr) ?_ rfl hl ?_ hcl hcr (fun d _ _ ↦ hb) (fun d _ hn ↦ absurd hn hb) ?_,
    haddr, fun d hd ↦ hcr' d hd hc⟩
  · rw [hbytes]
    omega
  · rw [hbytes, ← Nat.add_assoc]
    exact hr
  · refine forall_mem_middle (fun d hd ↦ h.room d (mem_middle (hd.imp_right (.tail c)))) ?_
    intro n hn
    have := h.room b (by simp) n hn
    rw [hbytes]
    omega

variable (hbase : base < lo)
include hbase

theorem Inv.joinNext_free (h : Inv base lo s (l ++ b :: c :: r)) (hb : b.use ≠ none)
    (hc : c.use = none) :
    Mid base lo (s.joinNext b.addr (prevNode base l)) l { b with size := b.size + c.size } r := by
  obtain ⟨hlay, haddr, hnext⟩ := h.layout.joined hb hc
  have hring := h.ring
  rw [frees_live hb, frees_cons_free hc] at hring
  have hptr : s.ptr (prevNode base l) = c.addr := (path_append.mp hring).1.next_last
  have hsb : s.size b.addr = b.size := h.size b (by simp)
  have hsc : s.size c.addr = c.size := h.size c (by simp)
  have hjoin : Heap.plus b.addr (s.size b.addr) = s.ptr (prevNode base l) := by
    rw [hsb, hptr, haddr]
    rfl
  have hs₁ : s.joinNext b.addr (prevNode base l) =
      (s.setSize b.addr (b.size + c.size)).setPtr b.addr (s.ptr c.addr) := by
    rw [Heap.joinNext, if_pos hjoin]
    simp only [Heap.setSize_ptr, hptr, hsb, hsc]
  have hne {d : Block} (hd : d ∈ l ∨ d ∈ r) : d.addr ≠ b.addr :=
    h.layout.addr_ne (hd.imp id (List.mem_cons_of_mem c))
  rw [hs₁]
  refine ⟨hlay, hb, hnext, ?_, ?_, ?_⟩
  · simp only [Heap.setPtr_size, Heap.setSize_size]
    refine forall_mem_middle (fun d hd ↦ ?_) (if_pos rfl)
    rw [if_neg (hne hd)]
    exact h.size d (mem_middle (hd.imp_right (.tail c)))
  · have := h.layout.base_lt hbase
    simp only [Heap.setPtr_size, Heap.setSize_size, if_neg (Nat.ne_of_lt this)]
    exact h.base_size
  · have hnd := h.layout.ring_nodup hbase
    rw [frees_live hb, frees_cons_free hc] at hnd
    refine hring.remove hnd ?_ (fun x hx hxq ↦ ?_)
    · simp [prevNode, Heap.setPtr_ptr]
    · have hxb : x ≠ b.addr := fun he ↦ hlay.addr_not_ring hbase (he ▸ hx)
      rw [Function.update_of_ne (show x ≠ prevNode base l from hxq), Heap.setPtr_ptr, if_neg hxb,
        Heap.setSize_ptr]

theorem Layout.gap_after (h : Layout lo s.brk (l ++ b :: r)) (hr : ∀ c ∈ r.head?, c.use ≠ none) :
    b.addr + b.bytes ≠ (frees r).headD base := by
  cases r with
  | nil =>
    have := h.base_lt hbase
    simp only [frees_nil, List.headD_nil]
    omega
  | cons c r =>
    rw [frees_cons_live (hr c rfl)]
    have hc : c.addr = b.addr + b.bytes := h.split.2.1
    have hpos := h.bytes_pos (b := c) (by simp)
    cases hf : frees r with
    | nil =>
      have := h.base_lt hbase
      simp only [List.headD_nil]
      omega
    | cons x m =>
      have hlay : Layout lo s.brk ((l ++ [b]) ++ c :: r) := by simpa using h
      have := hlay.frees_after (x := x) (by simp [hf])
      simp only [List.headD_cons]
      omega

theorem Inv.joinNext_live (h : Inv base lo s (l ++ b :: r)) (hb : b.use ≠ none)
    (hr : ∀ c ∈ r.head?, c.use ≠ none) :
    Mid base lo (s.joinNext b.addr (prevNode base l)) l b r := by
  have hring := h.ring
  rw [frees_live hb] at hring
  have hptr : s.ptr (prevNode base l) = (frees r).headD base := by
    cases hf : frees r with
    | nil =>
      rw [hf, List.append_nil] at hring
      exact hring.next_last
    | cons x m =>
      rw [hf] at hring
      exact (path_append.mp hring).1.next_last
  have hsb : s.size b.addr = b.size := h.size b (by simp)
  have hs₁ : s.joinNext b.addr (prevNode base l) = s.setPtr b.addr (s.ptr (prevNode base l)) := by
    rw [Heap.joinNext, if_neg]
    rw [hsb, hptr]
    exact h.layout.gap_after hbase hr
  rw [hs₁]
  refine ⟨h.layout, hb, hr, fun d hd ↦ ?_, ?_, hring.congr (fun x hx ↦ ?_)⟩
  · rw [Heap.setPtr_size]
    exact h.size d hd
  · rw [Heap.setPtr_size]
    exact h.base_size
  · by_cases hxq : x = prevNode base l
    · rw [hxq, Function.update_self, Heap.setPtr_ptr, if_pos rfl]
    · have hxb : x ≠ b.addr := fun he ↦ h.layout.addr_not_ring hbase (he ▸ hx)
      rw [Function.update_of_ne hxq, Heap.setPtr_ptr, if_neg hxb]

theorem Inv.joinNext (h : Inv base lo s (l ++ b :: r)) (hb : b.use ≠ none) :
    ∃ b' r', Mid base lo (s.joinNext b.addr (prevNode base l)) l b' r' ∧ b'.addr = b.addr ∧
      b.size ≤ b'.size ∧ lives r' = lives r := by
  by_cases hr : ∀ c ∈ r.head?, c.use ≠ none
  · exact ⟨b, r, h.joinNext_live hbase hb hr, rfl, le_rfl, rfl⟩
  · cases r with
    | nil => exact absurd (fun c hc ↦ by cases hc) hr
    | cons c r =>
      have hc : c.use = none := by
        by_contra hc
        exact hr (fun d hd ↦ by cases hd; exact hc)
      exact ⟨_, r, h.joinNext_free hbase hb hc, rfl, Nat.le_add_right _ _, (lives_cons_free hc).symm⟩

theorem Mid.gap_before (h : Mid base lo s l b r) (hl : ∀ d ∈ l.getLast?, d.use ≠ none) :
    Heap.plus (prevNode base l) (s.size (prevNode base l)) ≠ b.addr := by
  rcases List.mem_cons.mp (prevNode_mem base l) with hq | hq
  · have := h.layout.base_lt hbase
    rw [hq, h.base_size, Heap.plus]
    omega
  · obtain ⟨d, hd, hfree, haddr⟩ := mem_frees.mp hq
    rcases List.eq_nil_or_concat l with rfl | ⟨m, e, rfl⟩
    · cases hd
    · rw [List.concat_eq_append] at *
      have he : e.use ≠ none := hl e (by simp)
      have hdm : d ∈ m := by
        rcases List.mem_append.mp hd with hd | hd
        · exact hd
        · rw [List.mem_singleton.mp hd] at hfree
          exact absurd hfree he
      have hlay : Layout lo s.brk (m ++ e :: b :: r) := by simpa using h.layout
      have hbe : b.addr = e.addr + e.bytes := hlay.split.2.1
      have hpos := hlay.bytes_pos (b := e) (by simp)
      have hde := hlay.before hdm
      have hsize : s.size d.addr = d.size := h.size d (by simp [hdm])
      rw [← haddr, hsize, Heap.plus]
      rw [Block.bytes] at hde
      omega

theorem Mid.joinPrev_live (h : Mid base lo s l b r) (hl : ∀ d ∈ l.getLast?, d.use ≠ none) :
    Inv base lo ((s.joinPrev b.addr (prevNode base l)).setFreep (prevNode base l))
      (l ++ { b with use := none } :: r) := by
  have hs₂ : s.joinPrev b.addr (prevNode base l) = s.setPtr (prevNode base l) b.addr := by
    rw [Heap.joinPrev, if_neg (h.gap_before hbase hl)]
  have hfrees : frees (l ++ { b with use := none } :: r) = frees l ++ b.addr :: frees r := by
    rw [frees_append, frees_cons_free rfl]
  have hqb := h.layout.prevNode_lt hbase
  obtain ⟨hcl, hcr, -, -⟩ := h.layout.split_chain
  rw [hs₂]
  refine ⟨?_, ?_, ?_, ?_, ?_⟩
  · have hpos : 0 < b.bytes := h.layout.bytes_pos (by simp)
    refine .join hpos rfl h.layout.split.1 h.layout.split.2 hcl hcr
      (fun d hd hn ↦ absurd hn (hl d hd)) (fun c hc _ ↦ h.next c hc) ?_
    exact forall_mem_middle (fun c hc ↦ h.layout.room c (mem_middle hc)) nofun
  · simp only [Heap.setFreep_size, Heap.setPtr_size]
    exact forall_mem_middle (fun c hc ↦ h.size c (mem_middle hc)) (h.size b (by simp))
  · rw [Heap.setFreep_size, Heap.setPtr_size]
    exact h.base_size
  · rw [hfrees]
    have hnd := h.layout.ring_nodup hbase
    rw [frees_live h.live] at hnd
    refine h.ring.insert hnd (h.layout.addr_not_ring hbase) ?_ ?_ (fun x hx hxq ↦ ?_)
    · rw [← prevNode, Function.update_self, Heap.setFreep_ptr, Heap.setPtr_ptr,
        if_neg (Nat.ne_of_gt hqb)]
    · exact Heap.setPtr_ptr.trans (if_pos rfl)
    · rw [Function.update_of_ne (show x ≠ prevNode base l from hxq), Heap.setFreep_ptr,
        Heap.setPtr_ptr, if_neg (show x ≠ prevNode base l from hxq)]
  · rw [hfrees, ← List.cons_append]
    exact List.mem_append_left _ (prevNode_mem _ _)

theorem Mid.joinPrev_free {d : Block} (h : Mid base lo s (l ++ [d]) b r) (hd : d.use = none) :
    Inv base lo ((s.joinPrev b.addr d.addr).setFreep d.addr)
      (l ++ { d with size := d.size + b.size } :: r) := by
  have hlay : Layout lo s.brk (l ++ d :: b :: r) := by simpa using h.layout
  have hbe : b.addr = d.addr + d.bytes := hlay.split.2.1
  have hsd : s.size d.addr = d.size := h.size d (by simp)
  have hsb : s.size b.addr = b.size := h.size b (by simp)
  have hs₂ : s.joinPrev b.addr d.addr =
      (s.setSize d.addr (d.size + b.size)).setPtr d.addr (s.ptr b.addr) := by
    rw [Heap.joinPrev, if_pos (by rw [hsd, hbe]; rfl)]
    simp only [Heap.setSize_ptr, hsd, hsb]
  have hbytes : Block.bytes { d with size := d.size + b.size } = d.bytes + b.bytes :=
    Nat.mul_add HEADER d.size b.size
  have hfrees : frees (l ++ { d with size := d.size + b.size } :: r) = frees (l ++ [d]) ++ frees r := by
    have hd' : Block.use { d with size := d.size + b.size } = none := hd
    simp [frees_cons_free hd, frees_cons_free hd']
  have hne {e : Block} (he : e ∈ l ∨ e ∈ r) : e.addr ≠ d.addr :=
    hlay.addr_ne (he.imp id (List.mem_cons_of_mem b))
  obtain ⟨hcl, -, hld, -⟩ := hlay.split_chain
  obtain ⟨-, hcr, -, -⟩ := h.layout.split_chain
  rw [hs₂]
  refine ⟨?_, ?_, ?_, ?_, ?_⟩
  · refine .join (m := d.addr) ?_ rfl hlay.split.1 ?_ hcl hcr (fun e he hn ↦ absurd hd (hld e he hn))
      (fun c hc _ ↦ h.next c hc) ?_
    · have := hlay.bytes_pos (b := d) (by simp)
      rw [hbytes]
      omega
    · rw [hbytes, ← Nat.add_assoc, ← hbe]
      exact h.layout.split.2
    · exact forall_mem_middle (fun e he ↦ hlay.room e (mem_middle (he.imp_right (.tail b))))
        fun n hn ↦ absurd (hd.symm.trans hn) (by simp)
  · simp only [Heap.setFreep_size, Heap.setPtr_size, Heap.setSize_size]
    refine forall_mem_middle (fun e he ↦ ?_) (if_pos rfl)
    rw [if_neg (hne he)]
    exact h.size e (by rcases he with he | he <;> simp [he])
  · have := hlay.base_lt hbase
    simp only [Heap.setFreep_size, Heap.setPtr_size, Heap.setSize_size, if_neg (Nat.ne_of_lt this)]
    exact h.base_size
  · rw [hfrees]
    refine h.ring.congr (fun x _ ↦ ?_)
    rw [prevNode_concat hd, Heap.setFreep_ptr, Heap.setPtr_ptr, Function.update_apply,
      Heap.setSize_ptr]
  · rw [hfrees, ← List.cons_append]
    refine List.mem_append_left _ ?_
    have := prevNode_mem base (l ++ [d])
    rwa [prevNode_concat hd] at this

theorem Mid.joinPrev (h : Mid base lo s l b r) :
    ∃ bs, Inv base lo ((s.joinPrev b.addr (prevNode base l)).setFreep (prevNode base l)) bs ∧
      lives bs = lives l ++ lives r ∧ ∃ c ∈ bs, c.use = none ∧ b.size ≤ c.size := by
  by_cases hl : ∀ d ∈ l.getLast?, d.use ≠ none
  · refine ⟨_, h.joinPrev_live hbase hl, ?_, { b with use := none }, by simp, rfl, le_rfl⟩
    rw [lives_append, lives_cons_free rfl]
  · rcases List.eq_nil_or_concat l with rfl | ⟨m, d, rfl⟩
    · exact absurd (fun d hd ↦ by cases hd) hl
    · rw [List.concat_eq_append] at *
      have hd : d.use = none := by
        by_contra hd
        refine hl (fun e he ↦ ?_)
        rw [List.getLast?_concat] at he
        cases he
        exact hd
      rw [prevNode_concat hd]
      refine ⟨_, h.joinPrev_free hbase hd, ?_, { d with size := d.size + b.size }, by simp, hd,
        Nat.le_add_left _ _⟩
      have hd' : Block.use { d with size := d.size + b.size } = none := hd
      simp [lives_cons_free hd, lives_cons_free hd', show lives [] = [] from rfl]

theorem Inv.free (h : Inv base lo s (l ++ b :: r)) (hb : b.use ≠ none) :
    ∃ s' bs, s.free (b.addr + HEADER) = .ok s' ∧ Inv base lo s' bs ∧ lives bs = lives l ++ lives r ∧
      (∃ c ∈ bs, c.use = none ∧ b.size ≤ c.size) ∧ s'.brk = s.brk ∧ s'.live = s.live := by
  obtain ⟨b', r', hmid, haddr, hsize, hlives⟩ := h.joinNext hbase hb
  obtain ⟨bs, hinv, hl, c, hc, hfree, hle⟩ := hmid.joinPrev hbase
  rw [haddr] at hinv
  refine ⟨_, bs, ?_, hinv, by rw [hl, hlives], ⟨c, hc, hfree, hsize.trans hle⟩, ?_, ?_⟩
  · rw [Heap.free, Nat.add_sub_cancel, h.freeLoop hbase hb, ok_bind]
  · simp only [Heap.setFreep_brk, Heap.joinPrev, Heap.joinNext]
    split <;> split <;> rfl
  · simp only [Heap.setFreep_live, Heap.joinPrev, Heap.joinNext]
    split <;> split <;> rfl

end Halves

end Xv6Bfs.Umalloc

import Xv6Bfs.Umalloc.Free

namespace Xv6Bfs.Umalloc

open Lib.Ring Lib.Tiling Lib.Execution

section Take

variable {base lo n nb : ℕ} {s : Heap} {l r : List Block} {b : Block}

theorem frees_free (hb : b.use = none) : frees (l ++ b :: r) = frees l ++ b.addr :: frees r := by
  rw [frees_append, frees_cons_free hb]

variable (hbase : base < lo) (h : Inv base lo s (l ++ b :: r)) (hb : b.use = none)
include hbase h hb

theorem Inv.take_exact (hn : b.size = n) (hroom : nb + HEADER ≤ HEADER * n) :
    Inv base lo ((s.setPtr (prevNode base l) (s.ptr b.addr)).setFreep (prevNode base l))
      (l ++ { b with use := some nb } :: r) := by
  have hlay := h.layout
  have hfrees : frees (l ++ { b with use := some nb } :: r) = frees l ++ frees r :=
    frees_live (by simp)
  obtain ⟨hcl, hcr, -, -⟩ := hlay.split_chain
  refine ⟨?_, ?_, ?_, ?_, ?_⟩
  · have hpos : 0 < b.bytes := hlay.bytes_pos (by simp)
    refine .join hpos rfl hlay.split.1 hlay.split.2 hcl hcr (by simp) (by simp)
      (forall_mem_middle (fun c hc ↦ hlay.room c (mem_middle hc)) fun m hm ↦ ?_)
    cases hm
    rw [Block.bytes, hn]
    exact hroom
  · simp only [Heap.setFreep_size, Heap.setPtr_size]
    exact forall_mem_middle (fun c hc ↦ h.size c (mem_middle hc)) (h.size b (by simp))
  · rw [Heap.setFreep_size, Heap.setPtr_size]
    exact h.base_size
  · rw [hfrees]
    have hring := h.ring
    have hnd := hlay.ring_nodup hbase
    rw [frees_free hb] at hring hnd
    refine hring.remove hnd ?_ (fun x _ hxq ↦ ?_)
    · rw [← prevNode, Heap.setFreep_ptr, Heap.setPtr_ptr, if_pos rfl]
    · rw [Heap.setFreep_ptr, Heap.setPtr_ptr, if_neg (show x ≠ prevNode base l from hxq)]
  · rw [hfrees, ← List.cons_append]
    exact List.mem_append_left _ (prevNode_mem _ _)

theorem Inv.take_tail (h0 : 0 < n) (hn : n < b.size) (hroom : nb + HEADER ≤ HEADER * n) :
    Inv base lo (((s.setSize b.addr (b.size - n)).setSize (Heap.plus b.addr (b.size - n)) n).setFreep
      (prevNode base l))
      (l ++ { b with size := b.size - n } :: ⟨Heap.plus b.addr (b.size - n), n, some nb⟩ :: r) := by
  have hlay := h.layout
  have hb' : Block.use { b with size := b.size - n } = none := hb
  have hfrees : frees (l ++ { b with size := b.size - n } ::
      ⟨Heap.plus b.addr (b.size - n), n, some nb⟩ :: r) = frees l ++ b.addr :: frees r := by
    rw [frees_free hb', frees_cons_live (by simp)]
  obtain ⟨hcl, hcr, hlb, -⟩ := hlay.split_chain
  have hbytes : HEADER * (b.size - n) + HEADER * n = b.bytes := by
    rw [← Nat.mul_add, Nat.sub_add_cancel hn.le, Block.bytes]
  have hpos : 0 < HEADER * n := Nat.mul_pos Layout.header_pos h0
  have hpos' : 0 < HEADER * (b.size - n) := Nat.mul_pos Layout.header_pos (by omega)
  have hout {c : Block} (hc : c ∈ l ∨ c ∈ r) :
      c.addr ≠ b.addr ∧ c.addr ≠ Heap.plus b.addr (b.size - n) := by
    refine ⟨hlay.addr_ne hc, ?_⟩
    rw [Heap.plus]
    rcases hc with hc | hc
    · have := hlay.before hc
      omega
    · have := hlay.after hc
      omega
  have hbaseb := hlay.base_lt hbase
  refine ⟨?_, fun c hc ↦ ?_, ?_, ?_, ?_⟩
  · refine .join (m := b.addr) hpos' rfl hlay.split.1 ⟨rfl, hpos, ?_⟩ hcl
      (List.isChain_cons.mpr ⟨by simp, hcr⟩) hlb (fun c hc _ ↦ ?_) (fun c hc m hm ↦ ?_)
    · have htail := hlay.split.2
      rw [← hbytes, ← Nat.add_assoc] at htail
      exact htail
    · cases hc
      simp
    · rcases List.mem_append.mp hc with hc | hc
      · exact hlay.room c (by simp [hc]) m hm
      · rcases List.mem_cons.mp hc with rfl | hc
        · exact absurd (hb.symm.trans hm) (by simp)
        · rcases List.mem_cons.mp hc with rfl | hc
          · cases hm
            exact hroom
          · exact hlay.room c (by simp [hc]) m hm
  · simp only [Heap.setFreep_size, Heap.setSize_size]
    rcases List.mem_append.mp hc with hc | hc
    · rw [if_neg (hout (.inl hc)).2, if_neg (hout (.inl hc)).1]
      exact h.size c (by simp [hc])
    · rcases List.mem_cons.mp hc with rfl | hc
      · rw [if_neg (show b.addr ≠ Heap.plus b.addr (b.size - n) by rw [Heap.plus]; omega),
          if_pos rfl]
      · rcases List.mem_cons.mp hc with rfl | hc
        · rw [if_pos rfl]
        · rw [if_neg (hout (.inr hc)).2, if_neg (hout (.inr hc)).1]
          exact h.size c (by simp [hc])
  · simp only [Heap.setFreep_size, Heap.setSize_size]
    rw [if_neg (by rw [Heap.plus]; omega), if_neg (Nat.ne_of_lt hbaseb)]
    exact h.base_size
  · rw [hfrees, ← frees_free hb]
    exact h.ring.congr (fun x _ ↦ by simp)
  · rw [hfrees, ← List.cons_append]
    exact List.mem_append_left _ (prevNode_mem _ _)

theorem Inv.take (h0 : 0 < n) (hn : n ≤ b.size) (hroom : nb + HEADER ≤ HEADER * n) :
    ∃ s' ap bs, s.take n (prevNode base l) b.addr = (s', ap) ∧ Inv base lo s' bs ∧ ap ≠ 0 ∧
      lives bs = lives l ++ (ap, nb) :: lives r ∧ s'.brk = s.brk ∧ s'.live = s.live := by
  have hsize : s.size b.addr = b.size := h.size b (by simp)
  by_cases he : b.size = n
  · refine ⟨_, b.addr + HEADER, _, ?_, h.take_exact hbase hb he hroom, ?_, ?_, rfl, rfl⟩
    · rw [Heap.take, hsize, if_pos he]
      rfl
    · have := Layout.header_pos
      omega
    · rw [lives_append, lives_cons_live (n := nb) rfl]
  · refine ⟨_, Heap.plus b.addr (b.size - n) + HEADER, _, ?_,
      h.take_tail hbase hb h0 (by omega) hroom, ?_, ?_, rfl, rfl⟩
    · rw [Heap.take, hsize, if_neg he]
      simp only [Heap.setSize_size, if_true]
      rfl
    · have := Layout.header_pos
      omega
    · rw [lives_append, lives_cons_free (by exact hb), lives_cons_live (n := nb) rfl]

end Take

section Search

variable {R : Type} {base lo n x y : ℕ} {m : List ℕ} {s : Heap} {bs : List Block}
  {found : ℕ → ℕ → R} {more : ℕ → R} {loop : ℕ → ℕ → ℕ → R}

def Searches (s : Heap) (n : ℕ) (found : ℕ → ℕ → R) (more : ℕ → R) (loop : ℕ → ℕ → ℕ → R) : Prop :=
  ∀ fuel prevp p, loop (fuel + 1) prevp p =
    if n ≤ s.size p then found prevp p
    else if p = s.freep then more fuel
    else loop fuel p (s.ptr p)

theorem Searches.walk (hloop : Searches s n found more loop) (h : Path s.ptr x m y)
    (hm : ∀ z ∈ m, s.size z < n ∧ z ≠ s.freep) (fuel : ℕ) :
    loop (fuel + m.length) x (s.ptr x) = loop fuel (m.getLastD x) y := by
  induction m generalizing x with
  | nil => rw [show s.ptr x = y from h, List.length_nil, List.getLastD_nil, Nat.add_zero]
  | cons c m ih =>
    obtain ⟨hc, hf⟩ := hm c List.mem_cons_self
    rw [show s.ptr x = c from h.1, List.length_cons, ← Nat.add_assoc, hloop,
      if_neg (Nat.not_le_of_lt hc), if_neg hf, List.getLastD_cons]
    exact ih h.2 (fun z hz ↦ hm z (List.mem_cons_of_mem _ hz))

variable (hbase : base < lo) (h : Inv base lo s bs)
include hbase h

theorem Inv.round :
    ∃ m, Path s.ptr s.freep m s.freep ∧ (s.freep :: m).Perm (base :: frees bs) ∧ s.freep ∉ m := by
  obtain ⟨l₁, l₂, hl, hpath⟩ := h.ring.rotate h.freep
  have hperm : (s.freep :: (l₂ ++ l₁)).Perm (base :: frees bs) := by
    rw [hl, ← List.cons_append]
    exact List.perm_append_comm
  have hnd := hperm.nodup_iff.mpr (h.layout.ring_nodup hbase)
  exact ⟨l₂ ++ l₁, hpath, hperm, (List.nodup_cons.mp hnd).1⟩

theorem Inv.ring_block {p prevp : ℕ} (h0 : 0 < n) (hp : p ∈ base :: frees bs)
    (hq : prevp ∈ base :: frees bs) (hnext : s.ptr prevp = p) (hn : n ≤ s.size p) :
    ∃ l b r, bs = l ++ b :: r ∧ b.use = none ∧ n ≤ b.size ∧ p = b.addr ∧
      prevp = prevNode base l := by
  rcases List.mem_cons.mp hp with rfl | hp
  · rw [h.base_size] at hn
    omega
  obtain ⟨b, hb, hfree, rfl⟩ := mem_frees.mp hp
  obtain ⟨l, r, rfl⟩ := List.append_of_mem hb
  refine ⟨l, b, r, rfl, hfree, ?_, rfl, ?_⟩
  · rwa [h.size b hb] at hn
  · have hring := h.ring
    rw [frees_free hfree] at hring
    have hlast := (path_append.mp hring).1.next_last
    have hmem : prevNode base l ∈ base :: frees (l ++ b :: r) := by
      rw [frees_append, ← List.cons_append]
      exact List.mem_append_left _ (prevNode_mem _ _)
    exact h.ring.eq_of_next (h.layout.ring_nodup hbase) hq hmem (hnext.trans hlast.symm)

theorem Inv.search_found (hloop : Searches s n found more loop) {c : Block} (h0 : 0 < n) (hc : c ∈ bs)
    (hfree : c.use = none) (hn : n ≤ c.size) {fuel : ℕ} (hf : (frees bs).length < fuel) :
    ∃ l b r, bs = l ++ b :: r ∧ b.use = none ∧ n ≤ b.size ∧
      loop fuel s.freep (s.ptr s.freep) = found (prevNode base l) b.addr := by
  obtain ⟨m, hpath, hperm, hnot⟩ := h.round hbase
  have hcm : c.addr ∈ m ++ [s.freep] := by
    have : c.addr ∈ s.freep :: m :=
      hperm.mem_iff.mpr (List.mem_cons_of_mem _ (mem_frees.mpr ⟨c, hc, hfree, rfl⟩))
    simpa [or_comm] using this
  have hsome : ∃ z ∈ m ++ [s.freep], decide (n ≤ s.size z) = true :=
    ⟨c.addr, hcm, by rw [h.size c hc]; exact decide_eq_true hn⟩
  obtain ⟨p, hp⟩ := Option.isSome_iff_exists.mp (List.find?_isSome.mpr hsome)
  obtain ⟨hpn, u, v, huv, hu⟩ := List.find?_eq_some_iff_append.mp hp
  have hpn : n ≤ s.size p := of_decide_eq_true hpn
  -- the nodes passed over are an initial part of the round
  have hupath : Path s.ptr s.freep u p ∧ (∀ z ∈ u, z ∈ m) ∧ p ∈ s.freep :: m := by
    rcases List.eq_nil_or_concat v with rfl | ⟨v', w, rfl⟩
    · obtain ⟨rfl, hw⟩ := List.append_inj' huv rfl
      cases hw
      exact ⟨hpath, fun z hz ↦ hz, List.mem_cons_self⟩
    · have hm : m = u ++ p :: v' := by
        have hw : m ++ [s.freep] = (u ++ p :: v') ++ [w] := by
          simpa using huv
        exact (List.append_inj' hw rfl).1
      subst hm
      exact ⟨(path_append.mp hpath).1, fun z hz ↦ List.mem_append_left _ hz, by simp⟩
  obtain ⟨hup, hum, hpm⟩ := hupath
  have hlast : u.getLastD s.freep ∈ s.freep :: m :=
    List.cons_subset_cons _ hum List.getLastD_mem_cons
  obtain ⟨l, b, r, hbs, hb, hbn, rfl, hprev⟩ := h.ring_block hbase h0 (hperm.subset hpm)
    (hperm.subset hlast) hup.next_last hpn
  refine ⟨l, b, r, hbs, hb, hbn, ?_⟩
  have hlen : u.length < fuel := by
    have h1 : m.length = (frees bs).length := by simpa using hperm.length_eq
    have h2 := congrArg List.length huv
    simp only [List.length_append, List.length_cons] at h2
    simp only [List.length_nil] at h2
    omega
  obtain ⟨k, rfl⟩ := Nat.exists_eq_add_of_lt hlen
  rw [show u.length + k + 1 = (k + 1) + u.length by omega,
    hloop.walk hup (fun z hz ↦ ⟨?_, fun he ↦ hnot (he ▸ hum z hz)⟩), hloop, if_pos hpn, hprev]
  simpa using hu z hz

theorem Inv.search_none (hloop : Searches s n found more loop)
    (hnone : ∀ c ∈ bs, c.use = none → c.size < n) (h0 : 0 < n) (fuel : ℕ) :
    loop (fuel + 1 + (frees bs).length) s.freep (s.ptr s.freep) = more fuel := by
  obtain ⟨m, hpath, hperm, hnot⟩ := h.round hbase
  have hsmall (z : ℕ) (hz : z ∈ s.freep :: m) : s.size z < n := by
    rcases List.mem_cons.mp (hperm.subset hz) with rfl | hz
    · rwa [h.base_size]
    · obtain ⟨c, hc, hfree, rfl⟩ := mem_frees.mp hz
      rw [h.size c hc]
      exact hnone c hc hfree
  have hlen : (frees bs).length = m.length := by simpa using hperm.length_eq.symm
  rw [hlen, hloop.walk hpath (fun z hz ↦
    ⟨hsmall z (List.mem_cons_of_mem _ hz), fun he ↦ hnot (he ▸ hz)⟩), hloop,
    if_neg (Nat.not_le_of_lt (hsmall _ List.mem_cons_self)), if_pos rfl]

end Search

section Request

variable {base lo n nb : ℕ} {s : Heap} {bs : List Block}

theorem Inv.freep_pos (hpos : 0 < base) (hbase : base < lo) (h : Inv base lo s bs) :
    s.freep ≠ 0 := by
  rcases List.mem_cons.mp h.freep with hf | hf
  · omega
  · have := h.layout.frees_bounds hf
    omega

theorem Inv.setSize_brk {size : ℕ} (hbase : base < lo) (h : Inv base lo s bs) (h0 : 0 < size) :
    Inv base lo (Heap.setSize { s with brk := s.brk + HEADER * size } s.brk size)
      (bs ++ [⟨s.brk, size, some 0⟩]) := by
  have hlay := h.layout
  have hpos : 0 < HEADER * size := Nat.mul_pos Layout.header_pos h0
  have hle : lo ≤ s.brk := hlay.tiled.le
  have hfrees : frees (bs ++ [⟨s.brk, size, some 0⟩]) = frees bs := by
    rw [frees_live (by simp), frees_nil, List.append_nil]
  have hne {c : Block} (hc : c ∈ bs) : c.addr ≠ s.brk := by
    have := hlay.bounds hc
    have := hlay.bytes_pos hc
    omega
  refine ⟨⟨?_, ?_, fun c hc m hm ↦ ?_⟩, fun c hc ↦ ?_, ?_, ?_, ?_⟩
  · exact tiled_append.mpr ⟨s.brk, hlay.tiled, rfl, hpos, rfl⟩
  · refine List.isChain_append.mpr ⟨hlay.apart, .singleton _, fun c _ d hd ↦ ?_⟩
    cases hd
    simp
  · rcases List.mem_append.mp hc with hc | hc
    · exact hlay.room c hc m hm
    · cases List.mem_singleton.mp hc
      cases hm
      rw [Block.bytes, Nat.zero_add]
      exact Nat.le_mul_of_pos_right _ h0
  · rw [Heap.setSize_size]
    rcases List.mem_append.mp hc with hc | hc
    · rw [if_neg (hne hc)]
      exact h.size c hc
    · cases List.mem_singleton.mp hc
      rw [if_pos rfl]
  · rw [Heap.setSize_size, if_neg (by omega)]
    exact h.base_size
  · rw [hfrees]
    exact h.ring.congr (fun x _ ↦ by rw [Heap.setSize_ptr]; rfl)
  · rw [hfrees]
    exact h.freep

theorem Inv.free_brk (hbase : base < lo) (h : Inv base lo s bs) (h0 : 0 < n) :
    ∃ s' bs', (Heap.setSize { s with brk := s.brk + n * HEADER } s.brk n).free (Heap.plus s.brk 1) =
        .ok s' ∧ Inv base lo s' bs' ∧ lives bs' = lives bs ∧ (∃ c ∈ bs', c.use = none ∧ n ≤ c.size) ∧
      s'.brk = s.brk + HEADER * n ∧ s'.live = s.live := by
  obtain ⟨s', bs', hrun, hinv, hlives, hfit, hbrk, hlive⟩ :=
    (h.setSize_brk hbase h0).free hbase (by simp)
  rw [Nat.mul_comm n]
  exact ⟨s', bs', hrun, hinv, by simpa [lives] using hlives, hfit, hbrk, hlive⟩

theorem coreUnits_small (hn : HEADER * n < 2 ^ 31) : n ≤ Heap.coreUnits n ∧
    0 < Heap.coreUnits n * HEADER ∧ Heap.coreUnits n * HEADER < 2 ^ 31 := by
  rw [Heap.coreUnits, Heap.MINUNITS]
  split <;> simp only [HEADER] at hn ⊢ <;> omega

end Request

section Search

variable {κ ε : Type} {K : Kernel κ ε} {P : Process κ → Prop} {base lo n nb nbytes : ℕ}
  {s : Process κ} {bs : List Block}

theorem mallocLoop_searches (K : Kernel κ ε) (n : ℕ) (s : Process κ) :
    Searches s.heap n
      (fun prevp p ↦ .ok ({ s with heap := (s.heap.take n prevp p).1 }, (s.heap.take n prevp p).2))
      (fun fuel ↦ do
        let (s, p) ← s.morecore K n
        if p = 0 then .ok (s, 0) else Process.mallocLoop K n fuel s p (s.heap.ptr p))
      (fun fuel ↦ Process.mallocLoop K n fuel s) := fun _ _ _ ↦ rfl

/-- In states with `P` the kernel gives memory at the break, or nothing. -/
structure Kernel.Grants (K : Kernel κ ε) (P : Process κ → Prop) : Prop where
  sbrk : ∀ {s n}, P s → 0 < n → n < 2 ^ 31 → ∃ r, K.sbrk n s = .ok r ∧ P r.2 ∧
    (r.1 = none ∧ r.2.heap = s.heap ∨
      r.1 = some s.heap.brk ∧ r.2.heap = { s.heap with brk := s.heap.brk + n })
  heap : ∀ {s heap}, P s → heap.brk = s.heap.brk → P { s with heap }

variable (hK : K.Grants P) (hP : P s) (hbase : base < lo) (hinv : Inv base lo s.heap bs)
include hK hP hbase hinv

theorem Inv.morecore (hn : HEADER * n < 2 ^ 31) :
    (∃ s', s.morecore K n = .ok (s', 0) ∧ P s' ∧ s'.heap = s.heap) ∨
    ∃ s' bs', s.morecore K n = .ok (s', s'.heap.freep) ∧ P s' ∧ Inv base lo s'.heap bs' ∧
      lives bs' = lives bs ∧ (∃ c ∈ bs', c.use = none ∧ n ≤ c.size) ∧
      s'.heap.brk = s.heap.brk + HEADER * Heap.coreUnits n ∧ s'.heap.live = s.heap.live := by
  obtain ⟨hle, hunits⟩ := coreUnits_small hn
  obtain ⟨⟨hp, s₁⟩, hsbrk, hP₁, hcase⟩ := hK.sbrk hP hunits.1 hunits.2
  rw [Process.morecore]
  dsimp only
  rw [Nat.mod_eq_of_lt (show _ < 2 ^ 32 by omega), hsbrk, ok_bind]
  rcases hcase with ⟨hnone, hheap⟩ | ⟨hsome, hheap⟩
  · obtain rfl : hp = none := hnone
    exact .inl ⟨s₁, rfl, hP₁, hheap⟩
  · obtain rfl : hp = some s.heap.brk := hsome
    obtain ⟨heap, bs', hfree, hinv', hlives, ⟨c, hc, hcfree, hcn⟩, hbrk, hlive⟩ :=
      hinv.free_brk hbase (Nat.pos_of_mul_pos_right hunits.1)
    dsimp only at hheap ⊢
    rw [hheap, hfree]
    refine .inr ⟨{ s₁ with heap }, bs', rfl, hK.heap hP₁ ?_, hinv', hlives,
      ⟨c, hc, hcfree, hle.trans hcn⟩, hbrk, hlive⟩
    rw [hheap, hbrk, Nat.mul_comm]

theorem Inv.loop_found (h0 : 0 < n) (hroom : nb + HEADER ≤ HEADER * n) {c : Block} (hc : c ∈ bs)
    (hfree : c.use = none) (hle : n ≤ c.size) {fuel : ℕ} (hfuel : (frees bs).length < fuel) :
    ∃ s' bs' ap, Process.mallocLoop K n fuel s s.heap.freep (s.heap.ptr s.heap.freep) = .ok (s', ap) ∧
      P s' ∧ Inv base lo s'.heap bs' ∧ s'.heap.live = s.heap.live ∧ ap ≠ 0 ∧
      (lives bs').Perm ((ap, nb) :: lives bs) := by
  obtain ⟨l, b, r, rfl, hb, hbn, hrun⟩ := hinv.search_found hbase (mallocLoop_searches K n s)
    h0 hc hfree hle hfuel
  obtain ⟨heap, ap, bs', htake, hinv', hap, hlives, hbrk, hlive⟩ := hinv.take hbase hb h0 hbn hroom
  rw [htake] at hrun
  refine ⟨_, bs', ap, hrun, hK.heap hP hbrk, hinv', hlive, hap, ?_⟩
  rw [hlives, lives_append, lives_cons_free hb]
  exact List.perm_middle

theorem Inv.mallocLoop (hpos : 0 < base) (h0 : 0 < n) (hn : HEADER * n < 2 ^ 31)
    (hroom : nb + HEADER ≤ HEADER * n) {fuel : ℕ}
    (hfuel : 2 * (s.heap.brk + HEADER * Heap.coreUnits n) + 4 ≤ fuel) :
    ∃ s' bs' ap, Process.mallocLoop K n fuel s s.heap.freep (s.heap.ptr s.heap.freep) = .ok (s', ap) ∧
      P s' ∧ Inv base lo s'.heap bs' ∧ s'.heap.live = s.heap.live ∧
      (lives bs').Perm (if ap = 0 then lives bs else (ap, nb) :: lives bs) := by
  have hlen := hinv.layout.length_frees_le
  by_cases hfit : ∃ c ∈ bs, c.use = none ∧ n ≤ c.size
  · obtain ⟨c, hc, hfree, hle⟩ := hfit
    obtain ⟨s', bs', ap, hrun, hP', hinv', hlive, hap, hperm⟩ :=
      hinv.loop_found hK hP hbase h0 hroom hc hfree hle (show _ < fuel by omega)
    exact ⟨s', bs', ap, hrun, hP', hinv', hlive, by rwa [if_neg hap]⟩
  · obtain ⟨k, hk⟩ := Nat.exists_eq_add_of_le (show 1 + (frees bs).length ≤ fuel by omega)
    rw [show fuel = k + 1 + (frees bs).length by omega, hinv.search_none hbase
      (mallocLoop_searches K n s) (fun c hc hfree ↦
        Nat.lt_of_not_le (fun hle ↦ hfit ⟨c, hc, hfree, hle⟩)) h0]
    rcases hinv.morecore hK hP hbase hn with ⟨s', hmore, hP', hheap⟩ |
      ⟨s₁, bs₁, hmore, hP₁, hinv₁, hlives₁, ⟨c, hc, hfree, hle⟩, hbrk, hlive₁⟩
    · refine ⟨s', bs, 0, ?_, hP', hheap ▸ hinv, by rw [hheap], .refl _⟩
      rw [hmore]
      rfl
    · have hlen₁ := hinv₁.layout.length_frees_le
      obtain ⟨s', bs', ap, hrun, hP', hinv', hlive, hap, hperm⟩ :=
        hinv₁.loop_found hK hP₁ hbase h0 hroom hc hfree hle (show _ < k by omega)
      refine ⟨s', bs', ap, ?_, hP', hinv', hlive.trans hlive₁, ?_⟩
      · rw [hmore, ok_bind]
        dsimp only
        rw [if_neg (hinv₁.freep_pos hpos hbase), hrun]
      · rwa [if_neg hap, ← hlives₁]

end Search

end Xv6Bfs.Umalloc

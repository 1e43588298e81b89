import Xv6Bfs.Umalloc.Malloc

namespace Xv6Bfs.Umalloc

open Lib.Ring Lib.Tiling Lib.Execution

namespace Heap

def headers (s : Heap) : List ℕ := s.live.map (fun x ↦ x.1 - HEADER)

def Apart (s : Heap) (p q : ℕ) : Prop := plus p (s.size p) ≤ q ∨ plus q (s.size q) ≤ p

theorem Apart.symm {s : Heap} {p q : ℕ} (h : s.Apart p q) : s.Apart q p := Or.symm h

/-- The list behind `base` visits the free blocks `fs` upwards and comes back to `base`. The
free blocks and the live ones make up the memory from `lo` to the break. -/
structure FreeList (base lo : ℕ) (s : Heap) (fs : List ℕ) : Prop where
  ring : Path s.ptr base fs base
  sorted : (base :: fs).Pairwise (· < ·)
  freep : s.freep ∈ base :: fs
  inside : ∀ p ∈ fs, lo ≤ p ∧ plus p (s.size p) ≤ s.brk
  gaps : fs.Pairwise (fun p q ↦ plus p (s.size p) < q)
  apart : ∀ p ∈ fs, ∀ q ∈ s.headers, s.Apart p q
  total : lo + HEADER * ((fs.map s.size).sum + (s.headers.map s.size).sum) = s.brk

structure Sound (base lo : ℕ) (s : Heap) : Prop where
  inside : ∀ p ∈ s.headers, lo ≤ p ∧ plus p (s.size p) ≤ s.brk
  apart : s.headers.Pairwise s.Apart
  room : ∀ x ∈ s.live, x.1 + x.2 ≤ plus (x.1 - HEADER) (s.size (x.1 - HEADER))
  list : s.freep = 0 ∧ s.live = [] ∧ s.brk = lo ∨ ∃ fs, s.FreeList base lo fs

end Heap

def busy (bs : List Block) : List ℕ := (bs.filter (fun b ↦ !b.isFree)).map Block.addr

section Reading

variable {base lo hi a : ℕ} {s : Heap} {b : Block} {bs : List Block}

theorem headers_lives : (lives bs).map (fun x ↦ x.1 - HEADER) = busy bs := by
  induction bs with
  | nil => rfl
  | cons b bs ih =>
    cases hb : b.use with
    | none => simpa [lives_cons_free hb, busy, Block.isFree, hb] using ih
    | some n => simpa [lives_cons_live hb, busy, Block.isFree, hb] using ih

theorem mem_busy : a ∈ busy bs ↔ ∃ b ∈ bs, b.use ≠ none ∧ b.addr = a := by
  simp [busy, Block.isFree, and_assoc, Option.ne_none_iff_isSome]

theorem sum_sizes (f : ℕ → ℕ) (hf : ∀ b ∈ bs, f b.addr = b.size) :
    (bs.map Block.bytes).sum = HEADER * (((frees bs).map f).sum + ((busy bs).map f).sum) := by
  induction bs with
  | nil => rfl
  | cons b bs ih =>
    have hb := hf b List.mem_cons_self
    have ih := ih (fun c hc ↦ hf c (List.mem_cons_of_mem _ hc))
    rw [List.map_cons, List.sum_cons, ih, Block.bytes, ← hb, ← Nat.mul_add]
    congr 1
    cases hu : b.use with
    | none =>
      have hbusy : busy (b :: bs) = busy bs := by simp [busy, Block.isFree, hu]
      rw [frees_cons_free hu, hbusy, List.map_cons, List.sum_cons, Nat.add_assoc]
    | some n =>
      have hbusy : busy (b :: bs) = b.addr :: busy bs := by simp [busy, Block.isFree, hu]
      rw [frees_cons_live (by simp [hu]), hbusy, List.map_cons, List.sum_cons]
      exact Nat.add_left_comm _ _ _

theorem free_gaps (ht : Tiled Block.addr Block.bytes lo bs hi)
    (hc : bs.IsChain (fun b c ↦ b.use = none → c.use ≠ none)) :
    (bs.filter Block.isFree).Pairwise (fun b c ↦ b.addr + b.bytes < c.addr) := by
  induction bs generalizing lo with
  | nil => exact .nil
  | cons b bs ih =>
    obtain ⟨hhead, hc⟩ := List.isChain_cons.mp hc
    obtain ⟨rfl, -, ht⟩ := ht
    cases hb : b.use with
    | some n =>
      rw [List.filter_cons_of_neg (by simp [Block.isFree, hb])]
      exact ih ht hc
    | none =>
      rw [List.filter_cons_of_pos (by simp [Block.isFree, hb])]
      refine List.pairwise_cons.mpr ⟨fun c hcm ↦ ?_, ih ht hc⟩
      obtain ⟨hcm, hfree⟩ := List.mem_filter.mp hcm
      cases bs with
      | nil => cases hcm
      | cons d bs =>
        obtain ⟨hd, hpos, ht⟩ := ht
        rcases List.mem_cons.mp hcm with rfl | hcm
        · exact absurd (Option.isNone_iff_eq_none.mp hfree) (hhead c rfl hb)
        · have := (ht.bounds hcm).1
          omega

theorem Inv.plus_size (h : Inv base lo s bs) (hb : b ∈ bs) :
    Heap.plus b.addr (s.size b.addr) = b.addr + b.bytes := by
  rw [h.size b hb]
  rfl

theorem Inv.apart (h : Inv base lo s bs) {c : Block} (hb : b ∈ bs) (hc : c ∈ bs) (hne : b ≠ c) :
    s.Apart b.addr c.addr := by
  rw [Heap.Apart, h.plus_size hb, h.plus_size hc]
  obtain ⟨l, r, rfl⟩ := List.append_of_mem hb
  rcases List.mem_append.mp hc with hc | hc
  · exact .inr (h.layout.before hc)
  · exact .inl (h.layout.after (List.mem_of_ne_of_mem hne.symm hc))

theorem Inv.headers_perm (h : (lives bs).Perm s.live) : s.headers.Perm (busy bs) := by
  rw [← headers_lives]
  exact (h.map _).symm

theorem Inv.freeList (hbase : base < lo) (h : Inv base lo s bs) (hp : (lives bs).Perm s.live) :
    s.FreeList base lo (frees bs) := by
  have hlay := h.layout
  have hhead := Inv.headers_perm hp
  refine ⟨h.ring, hlay.ring_sorted hbase, h.freep, fun p hpm ↦ ?_, ?_, fun p hpm q hq ↦ ?_, ?_⟩
  · obtain ⟨b, hb, -, rfl⟩ := mem_frees.mp hpm
    obtain ⟨h1, -, h3⟩ := hlay.bounds hb
    rw [h.plus_size hb]
    exact ⟨h1, h3⟩
  · rw [frees, List.pairwise_map]
    refine (free_gaps hlay.tiled hlay.apart).imp_of_mem (fun {b c} hb _ hbc ↦ ?_)
    rwa [h.plus_size (List.mem_of_mem_filter hb)]
  · obtain ⟨b, hb, hfree, rfl⟩ := mem_frees.mp hpm
    obtain ⟨c, hc, hlive, rfl⟩ := mem_busy.mp (hhead.subset hq)
    refine h.apart hb hc (fun he ↦ hlive ?_)
    rw [← he, hfree]
  · rw [(hhead.map s.size).sum_eq, ← sum_sizes s.size (fun b hb ↦ h.size b hb)]
    exact hlay.tiled.sum

theorem Inv.sound (hbase : base < lo) (h : Inv base lo s bs) (hp : (lives bs).Perm s.live) :
    s.Sound base lo := by
  have hlay := h.layout
  have hhead := Inv.headers_perm hp
  refine ⟨fun p hpm ↦ ?_, ?_, fun x hx ↦ ?_, .inr ⟨_, h.freeList hbase hp⟩⟩
  · obtain ⟨b, hb, -, rfl⟩ := mem_busy.mp (hhead.subset hpm)
    obtain ⟨h1, -, h3⟩ := hlay.bounds hb
    rw [h.plus_size hb]
    exact ⟨h1, h3⟩
  · rw [hhead.pairwise_iff Heap.Apart.symm, busy, List.pairwise_map]
    refine (hlay.tiled.pairwise.filter _).imp_of_mem (fun {b c} hb _ hbc ↦ .inl ?_)
    rwa [h.plus_size (List.mem_of_mem_filter hb)]
  · obtain ⟨b, hb, hn, hx⟩ := mem_lives.mp (hp.symm.subset hx)
    have := hlay.room b hb x.2 hn
    rw [← hx, Nat.add_sub_cancel, h.plus_size hb]
    omega

end Reading

def Reached (base lo : ℕ) (s : Heap) : Prop :=
  s.freep = 0 ∧ s.live = [] ∧ s.brk = lo ∨ ∃ bs, Inv base lo s bs ∧ (lives bs).Perm s.live

section Steps

variable {base lo nbytes ap i : ℕ} {ok : Bool} {value : Header} {s : Heap} {bs : List Block}

theorem Reached.sound (hbase : base < lo) (h : Reached base lo s) : s.Sound base lo := by
  rcases h with h | ⟨bs, h, hp⟩
  · have hnil : s.headers = [] := by rw [Heap.headers, h.2.1, List.map_nil]
    exact ⟨by simp [hnil], by simp [hnil], by simp [h.2.1], .inl h⟩
  · exact h.sound hbase hp

theorem Reached.setup (hpos : 0 < base) (hbase : base < lo) (h : Reached base lo s) :
    ∃ bs, Inv base lo (s.setup base) bs ∧ (lives bs).Perm s.live ∧
      (s.setup base).live = s.live := by
  rcases h with ⟨hf, hlive, hbrk⟩ | ⟨bs, h, hp⟩
  · rw [Heap.setup, if_pos hf]
    refine ⟨[], ⟨⟨hbrk.symm, .nil, by simp⟩, by simp, ?_, ?_, ?_⟩, by rw [hlive]; rfl, rfl⟩
    · rw [Heap.setSize_size, if_pos rfl]
    · rw [frees_nil, Lib.Ring.Path, Heap.setSize_ptr, Heap.setFreep_ptr, Heap.setPtr_ptr, if_pos rfl]
    · exact List.mem_cons_self
  · rw [Heap.setup, if_neg (h.freep_pos hpos hbase)]
    exact ⟨bs, h, hp, rfl⟩

theorem nunits_small (h : HEADER * ((nbytes + HEADER - 1) / HEADER + 1) < 2 ^ 31) :
    0 < Heap.nunits nbytes ∧ HEADER * Heap.nunits nbytes < 2 ^ 31 ∧
      nbytes + HEADER ≤ HEADER * Heap.nunits nbytes := by
  have hmod : Heap.nunits nbytes = (nbytes + HEADER - 1) / HEADER + 1 := by
    rw [Heap.nunits, Nat.mod_eq_of_lt]
    simp only [HEADER] at h ⊢
    omega
  rw [hmod]
  refine ⟨Nat.succ_pos _, h, ?_⟩
  simp only [HEADER]
  omega

theorem setup_brk : (s.setup base).brk = s.brk := by
  rw [Heap.setup]
  split <;> rfl

theorem Reached.malloc {κ ε : Type} {K : Kernel κ ε} {P : Process κ → Prop} {s : Process κ}
    (hK : K.Grants P) (hP : P s) (hpos : 0 < base) (hbase : base < lo) (h : Reached base lo s.heap)
    (hn : HEADER * ((nbytes + HEADER - 1) / HEADER + 1) < 2 ^ 31) :
    ∃ s' ap, s.malloc K base nbytes = .ok (s', ap) ∧ P s' ∧ s'.heap.live = s.heap.live ∧
      Reached base lo (s'.heap.record ap nbytes) := by
  obtain ⟨h0, hunits, hroom⟩ := nunits_small hn
  obtain ⟨bs, hinv, hp, hlive⟩ := h.setup hpos hbase
  have hP₁ : P { s with heap := s.heap.setup base } := hK.heap hP setup_brk
  obtain ⟨s', bs', ap, hrun, hP', hinv', hlive', hp'⟩ :=
    Inv.mallocLoop hK hP₁ hbase hinv hpos h0 hunits hroom (Nat.le_refl _)
  have hkept : s'.heap.live = s.heap.live := hlive'.trans hlive
  refine ⟨s', ap, hrun, hP', hkept, .inr ⟨bs', ?_⟩⟩
  rw [Heap.record]
  split at hp'
  · rw [if_pos ‹_›]
    exact ⟨hinv', hkept ▸ hp'.trans hp⟩
  · rw [if_neg ‹_›]
    refine ⟨⟨hinv'.layout, hinv'.size, hinv'.base_size, hinv'.ring, hinv'.freep⟩, ?_⟩
    exact hp'.trans (hkept ▸ hp.cons _)

theorem answer_grants (ok : Bool) : (answer ok).Grants (fun _ ↦ True) where
  sbrk _ _ _ := by
    cases ok with
    | true => exact ⟨_, rfl, trivial, .inr ⟨rfl, rfl⟩⟩
    | false => exact ⟨_, rfl, trivial, .inl ⟨rfl, rfl⟩⟩
  heap _ _ := trivial

theorem Reached.live (h : Reached base lo s) (ha : ap ∈ s.live.map Prod.fst) :
    ∃ l b r n, Inv base lo s (l ++ b :: r) ∧ (lives (l ++ b :: r)).Perm s.live ∧
      b.use = some n ∧ ap = b.addr + HEADER := by
  rcases h with ⟨-, hlive, -⟩ | ⟨bs, h, hp⟩
  · rw [hlive] at ha
    cases ha
  · obtain ⟨x, hx, rfl⟩ := List.mem_map.mp ha
    obtain ⟨b, hb, hn, he⟩ := mem_lives.mp (hp.symm.subset hx)
    obtain ⟨l, r, rfl⟩ := List.append_of_mem hb
    exact ⟨l, b, r, x.2, h, hp, hn, he.symm⟩

theorem lives_nodup {lo hi : ℕ} (h : Layout lo hi bs) :
    (lives bs).Pairwise (fun x y ↦ x.1 ≠ y.1) := by
  have hpw : bs.Pairwise (fun b c ↦ b.addr ≠ c.addr) := by
    refine h.tiled.pairwise.imp_of_mem (fun {b c} hb _ hbc ↦ ?_)
    have := h.bytes_pos hb
    omega
  refine hpw.filterMap _ (fun b c hbc x hx y hy he ↦ hbc ?_)
  obtain ⟨n, -, rfl⟩ := Option.map_eq_some_iff.mp hx
  obtain ⟨m, -, rfl⟩ := Option.map_eq_some_iff.mp hy
  exact Nat.add_right_cancel he

theorem Reached.free (hbase : base < lo) (h : Reached base lo s) (ha : (Op.free ap).Allowed s) :
    ∃ s', (Op.free ap).step base s = .ok s' ∧ Reached base lo s' := by
  obtain ⟨l, b, r, n, hinv, hp, hn, rfl⟩ := h.live ha
  obtain ⟨s', bs, hrun, hinv', hlives, -, -, hlive⟩ := hinv.free hbase (by simp [hn])
  rw [Op.step, hrun, ok_bind]
  refine ⟨_, rfl, .inr ⟨bs, ⟨hinv'.layout, hinv'.size, hinv'.base_size, hinv'.ring,
    hinv'.freep⟩, ?_⟩⟩
  have hnd := lives_nodup hinv.layout
  have herase := hp.eraseP (f := fun x ↦ x.1 = b.addr + HEADER)
    (hnd.imp (fun {x y} hxy hx hy ↦ hxy (by simp_all)))
  rw [lives_append, lives_cons_live hn] at hnd herase
  have hl (x : ℕ × ℕ) (hx : x ∈ lives l) : ¬ (decide (x.1 = b.addr + HEADER)) = true := by
    have := (List.pairwise_append.mp hnd).2.2 x hx _ List.mem_cons_self
    simpa using this
  rw [List.eraseP_append_right _ hl, List.eraseP_cons_of_pos (by simp)] at herase
  rw [hlives, hlive]
  exact herase

theorem Reached.store (hbase : base < lo) (h : Reached base lo s)
    (ha : (Op.store ap i value).Allowed s) :
    ∃ s', (Op.store ap i value).step base s = .ok s' ∧ Reached base lo s' := by
  obtain ⟨l, b, r, n, hinv, hp, hn, rfl⟩ := h.live ha.1
  have hi : i + 1 < b.size := by
    have := ha.2
    rwa [Nat.add_sub_cancel, hinv.size b (by simp)] at this
  have hlay := hinv.layout
  have hin : b.addr < Heap.plus (b.addr + HEADER) i ∧
      Heap.plus (b.addr + HEADER) i < b.addr + b.bytes := by
    simp only [Heap.plus, Block.bytes, HEADER]
    omega
  have hbaseb := hlay.base_lt hbase
  have hkept {p : ℕ} (hpm : p = base ∨ ∃ c ∈ l ++ b :: r, c.addr = p) :
      p ≠ Heap.plus (b.addr + HEADER) i := by
    rcases hpm with rfl | ⟨c, hc, rfl⟩
    · omega
    · rcases List.mem_append.mp hc with hc | hc
      · have := hlay.before hc
        omega
      · rcases List.mem_cons.mp hc with rfl | hc
        · omega
        · have := hlay.after hc
          omega
  have hmem {p : ℕ} (hpm : p = base ∨ ∃ c ∈ l ++ b :: r, c.addr = p) :
      Function.update s.mem (Heap.plus (b.addr + HEADER) i) value p = s.mem p :=
    Function.update_of_ne (hkept hpm) _ _
  refine ⟨_, rfl, .inr ⟨_, ⟨hlay, fun c hc ↦ ?_, ?_, hinv.ring.congr (fun x hx ↦ ?_),
    hinv.freep⟩, hp⟩⟩
  · rw [← hinv.size c hc]
    exact congrArg Header.size (hmem (.inr ⟨c, hc, rfl⟩))
  · rw [← hinv.base_size]
    exact congrArg Header.size (hmem (.inl rfl))
  · refine congrArg Header.ptr (hmem ?_)
    rcases List.mem_cons.mp hx with hx | hx
    · exact .inl hx
    · obtain ⟨c, hc, -, he⟩ := mem_frees.mp hx
      exact .inr ⟨c, hc, he⟩

theorem Reached.step (hpos : 0 < base) (hbase : base < lo) (h : Reached base lo s) {op : Op}
    (ha : op.Allowed s) : ∃ s', op.step base s = .ok s' ∧ Reached base lo s' := by
  cases op with
  | malloc nbytes ok =>
    obtain ⟨s', ap, hrun, -, -, hreach⟩ := Reached.malloc (s := ⟨s, ()⟩) (answer_grants ok) trivial
      hpos hbase h ha
    rw [Op.step, hrun]
    exact ⟨_, rfl, hreach⟩
  | free ap => exact h.free hbase ha
  | store ap i value => exact h.store hbase ha

theorem Reached.exec {ops : List Op} (hpos : 0 < base) (hbase : base < lo) (h : Reached base lo s)
    (hm : Meets (Op.step base) Op.Allowed ops s) :
    ∃ s', exec (Op.step base) ops s = .ok s' ∧ Reached base lo s' := by
  induction ops generalizing s with
  | nil => exact ⟨s, rfl, h⟩
  | cons op ops ih =>
    obtain ⟨s₁, hs, h₁⟩ := h.step hpos hbase hm.1
    rw [exec_cons, hs, ok_bind]
    exact ih h₁ (hm.2 s₁ hs)

end Steps

/-- No call of `malloc` or `free` loops for ever, and after each of them live blocks and free
list are as they should be. -/
theorem heap_sound {base lo : ℕ} {ops : List Op} {s : Heap} (hpos : 0 < base)
    (hbase : base + HEADER ≤ lo) (hs : s.freep = 0 ∧ s.live = [] ∧ s.brk = lo)
    (hm : Meets (Op.step base) Op.Allowed ops s) :
    ∃ s', exec (Op.step base) ops s = .ok s' ∧ s'.Sound base lo := by
  have hlt : base < lo := by
    have := Layout.header_pos
    omega
  obtain ⟨s', hrun, h⟩ := Reached.exec hpos hlt (.inl hs) hm
  exact ⟨s', hrun, h.sound hlt⟩

def heapRun : List Op :=
  [.malloc 10 true, .malloc 100 true, .store 36736 1 ⟨7, 7⟩, .free 36848, .malloc 8 false,
    .malloc 100000 false]

theorem heap_sound_run :
    ∃ s, exec (Op.step 64) heapRun ⟨fun _ ↦ ⟨3, 5⟩, 0, 4096, []⟩ = .ok s ∧ s.Sound 64 4096 :=
  heap_sound (by decide) (by decide) ⟨rfl, rfl, rfl⟩ (by decide +kernel)

end Xv6Bfs.Umalloc

import Xv6Bfs.Fs.Bmap

namespace Xv6Bfs.Fs

open Lib.Bytes Lib.Execution Lib.Ownership Disk

def byte (data : Image) (d : Dinode) (o : ℕ) : UInt8 :=
  peek (data (addr data d (o / BSIZE))) (o % BSIZE)

def bytes (data : Image) (d : Dinode) (off n : ℕ) : List UInt8 :=
  (List.range n).map fun j ↦ byte data d (off + j)

def contents (data : Image) (d : Dinode) : List UInt8 := bytes data d 0 d.size

section

variable {data : Image} {d : Dinode} {off m n : ℕ}

@[simp] theorem length_bytes : (bytes data d off n).length = n := by simp [bytes]

@[simp] theorem length_contents : (contents data d).length = d.size := length_bytes

theorem bytes_add : bytes data d off (m + n) = bytes data d off m ++ bytes data d (off + m) n := by
  simp [bytes, List.range_add, Function.comp_def, Nat.add_assoc]

theorem bytes_congr {data' : Image} {d' : Dinode}
    (h : ∀ o, off ≤ o → o < off + n → byte data' d' o = byte data d o) :
    bytes data' d' off n = bytes data d off n := by
  refine List.map_congr_left (fun j hj ↦ ?_)
  have := List.mem_range.mp hj
  exact h (off + j) (by omega) (by omega)

theorem drop_contents (h : off ≤ d.size) :
    (contents data d).drop off = bytes data d off (d.size - off) := by
  have hsplit : bytes data d 0 d.size = bytes data d 0 off ++ bytes data d (0 + off) (d.size - off) := by
    rw [← bytes_add]
    congr 1
    omega
  rw [contents, hsplit, Nat.zero_add]
  exact List.drop_left' length_bytes

theorem take_drop_bytes (h : off + n ≤ m) :
    ((bytes data d 0 m).drop off).take n = bytes data d off n := by
  have hsplit : bytes data d 0 m =
      bytes data d 0 off ++ (bytes data d (0 + off) n ++ bytes data d (0 + off + n) (m - off - n)) := by
    rw [← bytes_add, ← bytes_add]
    congr 1
    omega
  rw [hsplit, List.drop_left' length_bytes, List.take_left' length_bytes, Nat.zero_add]

theorem take_drop_contents (h : off + n ≤ d.size) :
    ((contents data d).drop off).take n = bytes data d off n := take_drop_bytes h

end

def blocksOf (size : ℕ) : ℕ := (size + BSIZE - 1) / BSIZE

theorem BSIZE_pos : 0 < BSIZE := by decide

theorem lt_blocksOf {o size : ℕ} (h : o < size) : o / BSIZE < blocksOf size := by
  unfold blocksOf BSIZE
  omega

theorem blocksOf_mono {m n : ℕ} (h : m ≤ n) : blocksOf m ≤ blocksOf n :=
  Nat.div_le_div_right (by omega)

theorem le_blocksOf (n : ℕ) : n ≤ blocksOf n * BSIZE := by
  unfold blocksOf BSIZE
  omega

theorem blocksOf_le {m n : ℕ} (h : m ≤ n * BSIZE) : blocksOf m ≤ n := by
  unfold blocksOf
  unfold BSIZE at *
  omega

theorem byte_of_own {sb : Superblock} {data : Image} {ino : ℕ → Dinode} {i o c : ℕ}
    (h : own sb data ino (i, o / BSIZE) = some c) :
    byte data (ino i) o = peek (data c) (o % BSIZE) := by
  obtain ⟨-, -, -, ha, -⟩ := own_eq_some.mp h
  rw [byte, ← ha]

theorem NoHoles.exists_block {own : ℕ × ℕ → Option ℕ} {i o size : ℕ}
    (h : NoHoles own i (blocksOf size)) (ho : o < size) : ∃ c, own (i, o / BSIZE) = some c := by
  have hlt := lt_blocksOf ho
  exact Option.ne_none_iff_exists'.mp ((h.block _ (hlt.trans_le h.le)).mpr hlt)

namespace State

variable {sb : Superblock} {s s₁ s' : State} {k : Fin NINODE} {b c i n p off : ℕ}

theorem byte_eq {o : ℕ}
    (hb : s.places sb k ((s.icache k).inum, o / BSIZE) = some b) :
    byte s.cache (s.icache k).toDinode o = peek (s.cache b) (o % BSIZE) := by
  have := byte_of_own hb
  rwa [mem, Function.update_self] at this

theorem slice_eq {m : ℕ}
    (hb : s.places sb k ((s.icache k).inum, off / BSIZE) = some b) (hm : m ≤ BSIZE - off % BSIZE) :
    slice (s.cache b) (off % BSIZE) m = bytes s.cache (s.icache k).toDinode off m := by
  refine List.map_congr_left (fun j hj ↦ ?_)
  have hj := List.mem_range.mp hj
  have hmod := Nat.mod_lt off BSIZE_pos
  have hdiv : (off + j) / BSIZE = off / BSIZE := by
    unfold BSIZE at *
    omega
  have hoff : (off + j) % BSIZE = off % BSIZE + j := by
    unfold BSIZE at *
    omega
  rw [byte_eq (by rwa [hdiv]), hoff]

theorem readLoop_eq (h : Ready sb k s) (hn : NoHoles (s.places sb k) (s.icache k).inum n)
    {fuel rest : ℕ} (hfuel : rest ≤ fuel) (hle : off + rest ≤ n * BSIZE) :
    s.readLoop sb k fuel off rest = .ok (bytes s.cache (s.icache k).toDinode off rest, s) := by
  induction fuel generalizing off rest with
  | zero =>
    obtain rfl : rest = 0 := by omega
    rfl
  | succ fuel ih =>
    rw [readLoop]
    split
    · rename_i h0
      rw [h0]
      rfl
    · have hmod := Nat.mod_lt off BSIZE_pos
      have hbn : off / BSIZE < n := by
        rw [Nat.div_lt_iff_lt_mul BSIZE_pos]
        omega
      have hlt : off / BSIZE < MAXFILE := hbn.trans_le hn.le
      obtain ⟨b, hb⟩ := Option.ne_none_iff_exists'.mp ((hn.block _ hlt).mpr hbn)
      rw [h.bmap_eq hlt hb]
      simp only [ok_bind]
      rw [ih (by omega) (by omega), slice_eq hb (by omega), ok_bind, ← bytes_add]
      congr 3
      omega

theorem Ready.overwrite (h : Ready sb k s) (hp : p < MAXFILE) (data : Block)
    (hb : s.places sb k (i, p) = some b) :
    (s.logWrite b data).places sb k = s.places sb k ∧ Ready sb k (s.logWrite b data) ∧
      Extends sb k s (s.logWrite b data) ∧
      (s.logWrite b data).freeBlocks sb = s.freeBlocks sb := by
  have harea := h.owned.mem _ _ hb
  have hdinode : ∀ j, j < sb.ninodes → (s.logWrite b data).dinode sb j = s.dinode sb j :=
    fun j hj ↦ dinode_logWrite_data harea.1 hj
  have hbit : ∀ c, c < sb.size → (s.logWrite b data).bit sb c = s.bit sb c :=
    fun c hc ↦ bit_logWrite_data harea.1 hc
  have hmem : ∀ j, j < sb.ninodes → (s.logWrite b data).mem sb k j = s.mem sb k j := by
    intro j hj
    simp only [mem, logWrite_icache, Function.update_apply]
    split
    · rfl
    · exact hdinode j hj
  have hplaces : (s.logWrite b data).places sb k = s.places sb k := by
    unfold places
    rw [own_ino hmem]
    refine own_data (fun j c hx ↦ ?_)
    rw [logWrite_cache, if_neg]
    rintro rfl
    have := congrArg Prod.snd (h.owned.inj _ _ _ hx hb)
    simp only at this
    omega
  refine ⟨hplaces, ⟨h.inum, h.type, ?_, fun c hc ↦ ?_⟩,
    ⟨fun _ _ ↦ rfl, ⟨_, rfl⟩, hdinode, fun x c hx ↦ by rwa [hplaces], fun x _ ↦ by rw [hplaces]⟩, ?_⟩
  · exact Partition.congr h.owned (fun c hc ↦ by rw [hbit c hc.2]) (fun x ↦ congrFun hplaces x)
  · have := sb.bmap_lt
    rw [hbit c (by unfold Superblock.datastart at hc; omega)]
    exact h.bits c hc
  · unfold freeBlocks
    congr 1
    refine Finset.filter_congr (fun c hc ↦ ?_)
    rw [hbit c (Finset.mem_Ico.mp hc).2]

structure Wrote (sb : Superblock) (k : Fin NINODE) (src : List UInt8) (off n : ℕ) (s s' : State) :
    Prop extends Extends sb k s s' where
  ready : Ready sb k s'
  noHoles : NoHoles (s'.places sb k) (s.icache k).inum (max n (blocksOf (off + src.length)))
  data : ∀ x c, s.places sb k x = some c → x.1 ≠ (s.icache k).inum → x.2 ≠ MAXFILE →
    s'.cache c = s.cache c
  old : ∀ o, o < n * BSIZE → o < off ∨ off + src.length ≤ o →
    byte s'.cache (s'.icache k).toDinode o = byte s.cache (s.icache k).toDinode o
  new : bytes s'.cache (s'.icache k).toDinode off src.length = src
  free : s'.freeBlocks sb + blocksFor (max n (blocksOf (off + src.length))) =
    s.freeBlocks sb + blocksFor n

section

variable {src src₁ src₂ : List UInt8}

theorem Wrote.nil (h : Ready sb k s) (hn : NoHoles (s.places sb k) (s.icache k).inum n)
    (hle : off ≤ n * BSIZE) : Wrote sb k [] off n s s := by
  have hmax : max n (blocksOf (off + 0)) = n := max_eq_left (blocksOf_le hle)
  exact ⟨Grows.refl.toExtends, h, by simpa only [List.length_nil, hmax], fun _ _ _ _ _ ↦ rfl,
    fun _ _ _ ↦ rfl, rfl, by simp only [List.length_nil, hmax]⟩

theorem Mapped.wrote (src : List UInt8) (h : Mapped sb k n (off / BSIZE) s b s₁)
    (hn : NoHoles (s.places sb k) (s.icache k).inum n) (hlt : off / BSIZE < MAXFILE)
    (hpos : 0 < src.length) (hlen : src.length ≤ BSIZE - off % BSIZE) :
    Wrote sb k src off n s (s₁.logWrite b (patch (s₁.cache b) (off % BSIZE) src)) := by
  have hmod := Nat.mod_lt off BSIZE_pos
  have hinum := h.grows.inum
  obtain ⟨hplaces, hready, hext, hfree⟩ := h.ready.overwrite hlt
    (patch (s₁.cache b) (off % BSIZE) src) h.block
  have hblocks : blocksOf (off + src.length) = off / BSIZE + 1 := by
    unfold blocksOf
    unfold BSIZE at *
    omega
  refine ⟨h.grows.toExtends.trans hext, hready, ?_, fun x c hx hi hp ↦ ?_, fun o ho hout ↦ ?_, ?_, ?_⟩
  · rw [hblocks, hplaces]
    exact h.noHoles
  · -- a block of another inode
    rw [logWrite_cache, if_neg]
    · exact h.grows.data x c hx hp
    · rintro rfl
      exact hi (congrArg Prod.fst (h.ready.owned.inj _ _ _ (h.grows.kept x c hx) h.block))
  · have ho' : o / BSIZE < n := by rwa [Nat.div_lt_iff_lt_mul BSIZE_pos]
    obtain ⟨c, hc⟩ := Option.ne_none_iff_exists'.mp ((hn.block _ (ho'.trans_le hn.le)).mpr ho')
    have hkept := h.grows.kept _ c hc
    have hsame : s₁.cache c = s.cache c := h.grows.data _ c hc (ho'.trans_le hn.le).ne
    rw [byte_eq hc, byte_eq (b := c) (by rw [hplaces, logWrite_icache, hinum]; exact hkept),
      logWrite_cache]
    split
    · -- another part of the same block
      rename_i hcb
      have hdiv := congrArg Prod.snd (h.ready.owned.inj _ _ _ hkept (hcb ▸ h.block))
      rw [peek_patch_of_disjoint, ← hcb, hsame]
      simp only at hdiv
      unfold BSIZE at *
      omega
    · rw [hsame]
  · have hslice := slice_patch_self (b := s₁.cache b) (show off % BSIZE + src.length ≤ BSIZE by omega)
    rw [← slice_eq (b := b) (by rw [hplaces, logWrite_icache, hinum]; exact h.block) hlen,
      logWrite_cache, if_pos rfl, hslice]
  · rw [hblocks, hfree]
    exact h.free

theorem Wrote.trans (h₁ : Wrote sb k src₁ off n s s₁)
    (h₂ : Wrote sb k src₂ (off + src₁.length) (max n (blocksOf (off + src₁.length))) s₁ s') :
    Wrote sb k (src₁ ++ src₂) off n s s' := by
  have hinum := h₁.inum
  have hle := blocksOf_mono (m := off + src₁.length) (n := off + src₁.length + src₂.length) (by omega)
  have hmax : max (max n (blocksOf (off + src₁.length))) (blocksOf (off + src₁.length + src₂.length)) =
      max n (blocksOf (off + (src₁ ++ src₂).length)) := by
    rw [List.length_append, ← Nat.add_assoc]
    omega
  have hroom := le_blocksOf (off + src₁.length)
  have hn₁ : max n (blocksOf (off + src₁.length)) * BSIZE ≥ n * BSIZE :=
    Nat.mul_le_mul_right _ (le_max_left _ _)
  have hn₂ : max n (blocksOf (off + src₁.length)) * BSIZE ≥ blocksOf (off + src₁.length) * BSIZE :=
    Nat.mul_le_mul_right _ (le_max_right _ _)
  refine ⟨h₁.toExtends.trans h₂.toExtends, h₂.ready, ?_, fun x c hx hi hp ↦ ?_, fun o ho hout ↦ ?_,
    ?_, ?_⟩
  · have := h₂.noHoles
    rwa [hmax, hinum] at this
  · rw [h₂.data x c (h₁.kept x c hx) (by rwa [hinum]) hp, h₁.data x c hx hi hp]
  · rw [List.length_append] at hout
    rw [h₂.old o (by omega) (by omega), h₁.old o ho (by omega)]
  · have hfirst : bytes s'.cache (s'.icache k).toDinode off src₁.length =
        bytes s₁.cache (s₁.icache k).toDinode off src₁.length := by
      exact bytes_congr fun o _ _ ↦ h₂.old o (by omega) (.inl (by omega))
    rw [List.length_append, bytes_add, hfirst, h₁.new, h₂.new]
  · have := h₁.free
    have := h₂.free
    rw [hmax] at this
    omega

theorem blocksFor_mono {m n : ℕ} (h : m ≤ n) : blocksFor m ≤ blocksFor n := by
  unfold blocksFor
  split <;> split <;> omega

theorem writeLoop_ensures {fuel : ℕ} (h : Ready sb k s)
    (hn : NoHoles (s.places sb k) (s.icache k).inum n) (hfuel : src.length ≤ fuel)
    (hoff : off ≤ n * BSIZE) (hmax : off + src.length ≤ MAXFILE * BSIZE) :
    Ensures (Wrote sb k src off n s)
      (fun e ↦ e = .ballocOutOfBlocks ∧ s.freeBlocks sb + blocksFor n <
        blocksFor (max n (blocksOf (off + src.length)))) (s.writeLoop sb k fuel src off) := by
  induction fuel generalizing src off s n with
  | zero =>
    obtain rfl : src = [] := List.eq_nil_of_length_eq_zero (by omega)
    exact .nil h hn hoff
  | succ fuel ih =>
    rw [writeLoop]
    split
    · rename_i h0
      obtain rfl : src = [] := List.eq_nil_of_length_eq_zero h0
      exact .nil h hn hoff
    · have hmod := Nat.mod_lt off BSIZE_pos
      have hbn : off / BSIZE ≤ n := by
        unfold BSIZE at *
        omega
      have hlt : off / BSIZE < MAXFILE := by
        unfold BSIZE at *
        omega
      set m := min src.length (BSIZE - off % BSIZE) with hm
      have htake : (src.take m).length = m := by
        rw [List.length_take]
        omega
      have hblocks : blocksOf (off + m) = off / BSIZE + 1 := by
        unfold blocksOf
        unfold BSIZE at *
        omega
      have hfinal := blocksOf_mono (m := off + m) (n := off + src.length) (by omega)
      refine Ensures.bind ((bmap_ensures h hn hbn hlt).weaken fun e he ↦ ⟨he.1, he.2.trans_le ?_⟩)
        (fun ⟨b, s₁⟩ h₁ ↦ ?_)
      · exact blocksFor_mono (by omega)
      have hround := h₁.wrote (src.take m) hn hlt (by omega) (by omega)
      have hdrop : off + m + (src.drop m).length = off + src.length := by
        rw [List.length_drop]
        omega
      have hn₁ := hround.noHoles
      have hfree := hround.free
      rw [htake] at hn₁ hfree
      have hrest : Ensures (Wrote sb k (src.drop m) (off + m) _ _) _ _ := ih hround.ready
        (hround.inum ▸ hn₁) (by rw [List.length_drop]; omega)
        (by have := le_blocksOf (off + m)
            exact this.trans (Nat.mul_le_mul_right _ (le_max_right _ _))) (by omega)
      refine (hrest.mono fun s' hs' ↦ ?_).weaken fun e he ↦ ⟨he.1, ?_⟩
      · have htrans := hround.trans (by rw [htake]; exact hs')
        rwa [List.take_append_drop] at htrans
      · have he := he.2
        rw [hfree, hdrop] at he
        exact he.trans_le (blocksFor_mono (by omega))

end

theorem Ready.readi_eq {devsw : Devsw} {m : ℕ} (h : Ready sb k s)
    (hn : NoHoles (s.places sb k) (s.icache k).inum m) (ht : (s.icache k).type ≠ T_DEV)
    (hoff : off < 2 ^ 32) (hlen : n < 2 ^ 32) (hle : min (off + n) (s.icache k).size ≤ m * BSIZE) :
    s.readi sb devsw k off n = .ok (
      if off ≤ (s.icache k).size ∧ off + n < 2 ^ 32 then
        some (((contents s.cache (s.icache k).toDinode).drop off).take n)
      else none, s) := by
  unfold readi
  simp only [if_neg ht]
  split
  · rw [if_neg (by omega)]
  · have hok : off ≤ (s.icache k).size ∧ off + n < 2 ^ 32 := by omega
    rw [if_pos hok, Nat.mod_eq_of_lt hok.2]
    split
    · rw [readLoop_eq h hn le_rfl (by omega)]
      simp only [ok_bind]
      rw [List.take_of_length_le (by simp; omega), ← take_drop_contents (by omega),
        List.take_of_length_le (by simp)]
    · rw [readLoop_eq h hn le_rfl (by omega), take_drop_contents (by omega)]
      rfl

end State

/-- The inodes own their blocks without holes, and the inode cache is a copy of some of them. -/
structure WellFormed (sb : Superblock) (s : State) : Prop where
  owned : Owned sb (s.bit sb) s.cache (s.dinode sb)
  bits : ∀ b, b < sb.datastart → s.bit sb b = true
  noHoles : ∀ i, i < sb.ninodes → (s.dinode sb i).type ≠ 0 →
    NoHoles (own sb s.cache (s.dinode sb)) i (blocksOf (s.dinode sb i).size)
  inum : ∀ k, 0 < (s.icache k).ref → (s.icache k).inum < sb.ninodes
  cached : ∀ k, 0 < (s.icache k).ref → (s.icache k).valid = true →
    (s.icache k).toDinode = s.dinode sb (s.icache k).inum ∧ (s.icache k).type ≠ 0
  distinct : ∀ k k', 0 < (s.icache k).ref → 0 < (s.icache k').ref →
    (s.icache k).inum = (s.icache k').inum → k = k'

def overwrite (l : List UInt8) (off : ℕ) (src : List UInt8) : List UInt8 :=
  l.take off ++ src ++ l.drop (off + src.length)

namespace WellFormed

open State

variable {sb : Superblock} {s s' : State} {k : Fin NINODE} {b c i n off : ℕ} {src : List UInt8}

section

variable (h : WellFormed sb s) (hr : 0 < (s.icache k).ref) (hv : (s.icache k).valid = true)
include h hr hv

theorem mem_eq : s.mem sb k = s.dinode sb := by
  rw [mem, (h.cached k hr hv).1, Function.update_eq_self]

theorem ready :
    Ready sb k s :=
  ⟨h.inum k hr, (h.cached k hr hv).2, by rw [h.mem_eq hr hv]; exact h.owned, h.bits⟩

theorem noHoles_places :
    NoHoles (s.places sb k) (s.icache k).inum (blocksOf (s.icache k).size) := by
  obtain ⟨he, ht⟩ := h.cached k hr hv
  have := h.noHoles _ (h.inum k hr) (by rw [← he]; exact ht)
  rwa [← he, ← h.mem_eq hr hv] at this

theorem size_le : (s.icache k).size ≤ MAXFILE * BSIZE :=
  (le_blocksOf _).trans (Nat.mul_le_mul_right _ (h.noHoles_places hr hv).le)

theorem contents_eq :
    contents s.cache (s.dinode sb (s.icache k).inum) = contents s.cache (s.icache k).toDinode := by
  rw [(h.cached k hr hv).1]

theorem readi_eq {devsw : Devsw} (ht : (s.icache k).type ≠ T_DEV) (hoff : off < 2 ^ 32)
    (hn : n < 2 ^ 32) :
    s.readi sb devsw k off n = .ok (
      if off ≤ (s.icache k).size ∧ off + n < 2 ^ 32 then
        some (((contents s.cache (s.icache k).toDinode).drop off).take n)
      else none, s) := by
  have hsize := h.size_le hr hv
  have hmax : MAXFILE * BSIZE = 71680 := by decide
  have hblocks := le_blocksOf (s.icache k).size
  exact (h.ready hr hv).readi_eq (h.noHoles_places hr hv) ht hoff hn (by omega)

end

theorem addrs_eq {s s' : State} {n : ℕ} (h : Ready sb k s) (h' : Ready sb k s') (hext : Extends sb k s s')
    (hn : NoHoles (s.places sb k) (s.icache k).inum n)
    (hn' : NoHoles (s'.places sb k) (s.icache k).inum n) : s'.icache k = s.icache k := by
  obtain ⟨addrs, he⟩ := hext.self
  have hinum := hext.inum
  have hplace : ∀ p, p ≤ MAXFILE →
      s'.places sb k ((s'.icache k).inum, p) = s.places sb k ((s.icache k).inum, p) := by
    intro p hp
    rw [hinum]
    cases hx : s.places sb k ((s.icache k).inum, p) with
    | some c => exact hext.kept _ c hx
    | none =>
      by_contra hne
      rcases Nat.lt_or_eq_of_le hp with hlt | rfl
      · exact (hn.block p hlt).mpr ((hn'.block p hlt).mp hne) hx
      · exact hn.indirect.mpr (hn'.indirect.mp hne) hx
  have haddrs : (s'.icache k).addrs = (s.icache k).addrs := by
    funext i
    have := hplace (placeOf i) (placeOf_le i)
    rw [h'.places_eq (placeOf_le i), h.places_eq (placeOf_le i), addr_placeOf, addr_placeOf] at this
    grind
  rw [he] at haddrs ⊢
  simp only at haddrs
  rw [haddrs]

end WellFormed

end Xv6Bfs.Fs

import Xv6Bfs.Fs.Contents

namespace Xv6Bfs.Fs

open Lib.Bytes Lib.Execution Lib.Ownership Disk State

variable {sb : Superblock} {s s₁ s' : State} {k : Fin NINODE} {b c i n off : ℕ} {src : List UInt8}

theorem WellFormed.change (h : WellFormed sb s) (hi : (s.icache k).inum = i)
    (hr : 0 < (s.icache k).ref)
    (howned : Owned sb (s'.bit sb) s'.cache (s'.dinode sb))
    (hbits : ∀ b, b < sb.datastart → s'.bit sb b = true)
    (hown : ∀ j p, j ≠ i → own sb s'.cache (s'.dinode sb) (j, p) = own sb s.cache (s.dinode sb) (j, p))
    (hdinode : ∀ j, j < sb.ninodes → j ≠ i → s'.dinode sb j = s.dinode sb j)
    (hn : (s'.dinode sb i).type ≠ 0 →
      NoHoles (own sb s'.cache (s'.dinode sb)) i (blocksOf (s'.dinode sb i).size))
    (hothers : ∀ k', k' ≠ k → s'.icache k' = s.icache k') (hinum : (s'.icache k).inum = i)
    (hself : 0 < (s'.icache k).ref → (s'.icache k).valid = true →
      (s'.icache k).toDinode = s'.dinode sb i ∧ (s'.icache k).type ≠ 0) :
    WellFormed sb s' := by
  have hlt : i < sb.ninodes := hi ▸ h.inum k hr
  have hne : ∀ k', k' ≠ k → 0 < (s.icache k').ref → (s.icache k').inum ≠ i :=
    fun k' hk hr' he ↦ hk (h.distinct k' k hr' hr (he.trans hi.symm))
  refine ⟨howned, hbits, fun j hj ht ↦ ?_, fun k' hr' ↦ ?_, fun k' hr' hv' ↦ ?_,
    fun k₁ k₂ hr₁ hr₂ he ↦ ?_⟩
  · rcases eq_or_ne j i with rfl | hji
    · exact hn ht
    · rw [hdinode j hj hji] at ht ⊢
      obtain ⟨hblock, hind, hle⟩ := h.noHoles j hj ht
      exact ⟨fun p hp ↦ by rw [hown j p hji, hblock p hp], by rw [hown j _ hji, hind], hle⟩
  · rcases eq_or_ne k' k with rfl | hk
    · rwa [hinum]
    · rw [hothers k' hk] at hr' ⊢
      exact h.inum k' hr'
  · rcases eq_or_ne k' k with rfl | hk
    · rw [hinum]
      exact hself hr' hv'
    · rw [hothers k' hk] at hr' hv' ⊢
      have := h.cached k' hr' hv'
      rwa [hdinode _ (h.inum k' hr') (hne k' hk hr')]
  · have hslot : ∀ k', k' ≠ k → 0 < (s'.icache k').ref → (s'.icache k').inum ≠ i := by
      intro k' hk hr'
      rw [hothers k' hk] at hr' ⊢
      exact hne k' hk hr'
    by_cases h₁ : k₁ = k <;> by_cases h₂ : k₂ = k
    · rw [h₁, h₂]
    · rw [h₁, hinum] at he
      exact absurd he.symm (hslot k₂ h₂ hr₂)
    · rw [h₂, hinum] at he
      exact absurd he (hslot k₁ h₁ hr₁)
    · rw [hothers k₁ h₁] at hr₁ he
      rw [hothers k₂ h₂] at hr₂ he
      exact h.distinct k₁ k₂ hr₁ hr₂ he

structure Written (sb : Superblock) (k : Fin NINODE) (src : List UInt8) (off : ℕ) (s s' : State) : Prop where
  wellFormed : WellFormed sb s'
  contents : contents s'.cache (s'.icache k).toDinode =
    overwrite (contents s.cache (s.icache k).toDinode) off src
  dinode : ∀ j, j < sb.ninodes → j ≠ (s.icache k).inum → s'.dinode sb j = s.dinode sb j
  foreign : ∀ j, j < sb.ninodes → j ≠ (s.icache k).inum → (s.dinode sb j).type ≠ 0 →
    Fs.contents s'.cache (s'.dinode sb j) = Fs.contents s.cache (s.dinode sb j)
  others : ∀ k', k' ≠ k → s'.icache k' = s.icache k'
  self : ∃ size addrs, s'.icache k = { s.icache k with size := size, addrs := addrs }

theorem State.Wrote.contents_eq (h : Wrote sb k src off (blocksOf (s.icache k).size) s s')
    (hoff : off ≤ (s.icache k).size) {d : Dinode} {data : Image}
    (hd : d.size = max (s.icache k).size (off + src.length))
    (hbyte : ∀ o, o < d.size → byte data d o = byte s'.cache (s'.icache k).toDinode o) :
    contents data d = overwrite (contents s.cache (s.icache k).toDinode) off src := by
  have hroom := le_blocksOf (s.icache k).size
  obtain ⟨r, hr⟩ : ∃ r, d.size = off + (src.length + r) := ⟨d.size - off - src.length, by omega⟩
  have hhead : bytes s'.cache (s'.icache k).toDinode 0 off =
      (contents s.cache (s.icache k).toDinode).take off := by
    rw [← List.drop_zero (l := contents s.cache (s.icache k).toDinode),
      take_drop_contents (by simpa using hoff)]
    exact bytes_congr fun o _ _ ↦ h.old o (by omega) (.inl (by omega))
  have htail : bytes s'.cache (s'.icache k).toDinode (off + src.length) r =
      (contents s.cache (s.icache k).toDinode).drop (off + src.length) := by
    by_cases hle : off + src.length ≤ (s.icache k).size
    · obtain rfl : r = (s.icache k).size - (off + src.length) := by omega
      rw [drop_contents hle]
      exact bytes_congr fun o _ _ ↦ h.old o (by omega) (.inr (by omega))
    · obtain rfl : r = 0 := by omega
      rw [List.drop_of_length_le (by simpa using Nat.le_of_not_le hle)]
      rfl
  have hall : contents data d = bytes s'.cache (s'.icache k).toDinode 0 d.size :=
    bytes_congr fun o _ ho ↦ hbyte o (by omega)
  rw [hall, hr, bytes_add, bytes_add, Nat.zero_add, hhead, htail, h.new, overwrite,
    List.append_assoc]

theorem State.Wrote.written (h : WellFormed sb s) (hr : 0 < (s.icache k).ref)
    (hv : (s.icache k).valid = true) (hoff : off ≤ (s.icache k).size)
    (w : Wrote sb k src off (blocksOf (s.icache k).size) s s₁)
    (hcache : ∀ c, sb.datastart ≤ c → s'.cache c = s₁.cache c)
    (hbit : ∀ c, s'.bit sb c = s₁.bit sb c)
    (hdinode : ∀ j, j < sb.ninodes → j ≠ (s.icache k).inum → s'.dinode sb j = s₁.dinode sb j)
    (hothers : ∀ k', k' ≠ k → s'.icache k' = s₁.icache k')
    (hself : s'.icache k = { s₁.icache k with size := max (s.icache k).size (off + src.length) })
    (hsame : s'.dinode sb (s.icache k).inum = (s'.icache k).toDinode) :
    Written sb k src off s s' := by
  obtain ⟨addrs, he⟩ := w.self
  have hinum : (s'.icache k).inum = (s.icache k).inum := by rw [hself, he]
  have hi := h.inum k hr
  have htype : (s'.icache k).type ≠ 0 := by rw [hself]; exact w.ready.type
  -- the size of an inode has no influence on the places
  have hmem : ∀ x, own sb s₁.cache (s'.dinode sb) x = s₁.places sb k x := by
    intro x
    rcases eq_or_ne x.1 (s.icache k).inum with hx | hx
    · refine own_congr ?_ (fun _ _ _ ↦ ?_)
      · rw [hx, hsame, hself]
        simp [mem, w.inum]
      · rw [hx, hsame, hself]
        simp only [mem, w.inum, Function.update_self]
        rfl
    · by_cases hlt : x.1 < sb.ninodes
      · refine own_congr ?_ (fun _ _ _ ↦ ?_) <;> rw [hdinode x.1 hlt hx] <;> simp [mem, w.inum, hx]
      · simp [own, places, hlt]
  have hown : own sb s'.cache (s'.dinode sb) = s₁.places sb k := by
    rw [← funext hmem]
    refine own_data (fun j c hx ↦ hcache c ?_)
    rw [hmem] at hx
    exact (w.ready.owned.mem _ _ hx).1
  have hplaces : s.places sb k = own sb s.cache (s.dinode sb) := by rw [places, h.mem_eq hr hv]
  have hsize : blocksOf (s'.icache k).size =
      max (blocksOf (s.icache k).size) (blocksOf (off + src.length)) := by
    rw [hself]
    rcases Nat.le_total (s.icache k).size (off + src.length) with hle | hle
    · simp only [max_eq_right hle, max_eq_right (blocksOf_mono hle)]
    · simp only [max_eq_left hle, max_eq_left (blocksOf_mono hle)]
  have hdinode' : ∀ j, j < sb.ninodes → j ≠ (s.icache k).inum → s'.dinode sb j = s.dinode sb j :=
    fun j hj hne ↦ (hdinode j hj hne).trans (w.dinode j hj)
  refine ⟨h.change rfl hr ?_ (fun b hb ↦ ?_) (fun j p hne ↦ ?_) hdinode' (fun _ ↦ ?_)
    (fun k' hk ↦ (hothers k' hk).trans (w.others k' hk)) hinum (fun _ _ ↦ ⟨hsame.symm, htype⟩), ?_,
    hdinode', fun j hj hne ht ↦ ?_, fun k' hk ↦ (hothers k' hk).trans (w.others k' hk), ?_⟩
  · exact Partition.congr w.ready.owned (fun c _ ↦ by rw [hbit]) (fun x ↦ congrFun hown x)
  · rw [hbit]
    exact w.ready.bits b hb
  · rw [hown, w.foreign _ hne, hplaces]
  · rw [hown, hsame, hsize]
    exact w.noHoles
  · refine w.contents_eq hoff (by rw [hself]) (fun o ho ↦ ?_)
    obtain ⟨c, hc⟩ := NoHoles.exists_block (hsize ▸ w.noHoles) ho
    have hc' := hc
    rw [← hown] at hc'
    have hbyte := byte_of_own hc'
    rw [hsame, hcache c (w.ready.owned.mem _ _ hc).1] at hbyte
    rw [hbyte, byte_eq (by rw [w.inum]; exact hc)]
  · rw [hdinode' j hj hne]
    refine bytes_congr fun o _ ho ↦ ?_
    obtain ⟨c, hc⟩ := (h.noHoles j hj ht).exists_block (by omega : o < _)
    have hc' : own sb s'.cache (s'.dinode sb) (j, o / BSIZE) = some c := by
      rw [hown, w.foreign _ hne, hplaces]
      exact hc
    have hp := (lt_blocksOf (by omega : o < (s.dinode sb j).size)).trans_le (h.noHoles j hj ht).le
    have hbyte := byte_of_own hc'
    rw [hdinode' j hj hne] at hbyte
    rw [hbyte, byte_of_own hc, hcache c (h.owned.mem _ _ hc).1,
      w.data (j, o / BSIZE) c (by rw [hplaces]; exact hc) hne hp.ne]
  · rw [hself, he]
    exact ⟨_, _, rfl⟩

theorem State.Ready.addrs_lt (h : Ready sb k s) (j : Fin (NDIRECT + 1)) :
    (s.icache k).addrs j < 2 ^ 32 := by
  have hplace := h.places_eq (placeOf_le j)
  rw [addr_placeOf] at hplace
  have hsize := sb.size_lt
  by_cases h0 : (s.icache k).addrs j = 0
  · omega
  · rw [if_neg h0] at hplace
    have := (h.owned.mem _ _ hplace).2
    omega

section

variable {devsw : Devsw}

theorem WellFormed.writei_fails (h : WellFormed sb s) (hr : 0 < (s.icache k).ref)
    (hv : (s.icache k).valid = true) (ht : (s.icache k).type ≠ T_DEV) (hlen : src.length < 2 ^ 32)
    (hno : ¬ (off ≤ (s.icache k).size ∧ off + src.length < 2 ^ 32 ∧
      off + src.length ≤ MAXFILE * BSIZE)) :
    s.writei sb devsw k src off = .ok (none, s) := by
  have hsize := h.size_le hr hv
  have hmax : MAXFILE * BSIZE = 71680 := by decide
  unfold writei
  simp only [if_neg ht]
  split
  · rfl
  · rw [if_pos]
    rw [Nat.mod_eq_of_lt (by omega)]
    omega

theorem WellFormed.writei_ensures (h : WellFormed sb s) (hr : 0 < (s.icache k).ref)
    (hv : (s.icache k).valid = true) (ht : (s.icache k).type ≠ T_DEV)
    (hoff : off ≤ (s.icache k).size) (hmax : off + src.length ≤ MAXFILE * BSIZE) :
    Ensures (fun r ↦ r.1 = some src.length ∧ Written sb k src off s r.2)
      (fun e ↦ e = .ballocOutOfBlocks ∧
        s.freeBlocks sb + blocksFor (blocksOf (s.icache k).size) <
          blocksFor (max (blocksOf (s.icache k).size) (blocksOf (off + src.length))))
      (s.writei sb devsw k src off) := by
  have hready := h.ready hr hv
  have hholes := h.noHoles_places hr hv
  have hcached := (h.cached k hr hv).1
  have hlim : MAXFILE * BSIZE = 71680 := by decide
  have hmod : (off + src.length) % 2 ^ 32 = off + src.length := Nat.mod_eq_of_lt (by omega)
  unfold writei
  simp only [if_neg ht, hmod]
  rw [if_neg (by omega), if_neg (by omega)]
  refine Ensures.bind (writeLoop_ensures hready hholes le_rfl (hoff.trans (le_blocksOf _)) hmax)
    (fun s₁ w ↦ ?_)
  obtain ⟨addrs, he⟩ := w.self
  have hsize : (s₁.icache k).size = (s.icache k).size := by rw [he]
  split
  · rename_i hgrow
    have hfits : ({ s₁.icache k with size := off + src.length } : Inode).toDinode.Fits := by
      have : (s.dinode sb (s.icache k).inum).Fits := dinode_fits
      rw [← hcached] at this
      refine ⟨?_, ?_, ?_, ?_, by simp only; omega, w.ready.addrs_lt⟩ <;> simp only [he]
      · exact this.type
      · exact this.major
      · exact this.minor
      · exact this.nlink
    have hinum : ({ s₁.icache k with size := off + src.length } : Inode).inum = (s.icache k).inum :=
      w.inum
    have hlt := h.inum k hr
    rw [iupdate_setInode, hinum]
    refine ⟨rfl, w.written h hr hv hoff (fun c hc ↦ cache_putDinode hlt hc)
      (fun c ↦ bit_putDinode hlt) (fun j _ hne ↦ dinode_putDinode_ne hne.symm)
      (fun k' hk ↦ setInode_icache_ne hk) ?_ ?_⟩
    · simp only [putDinode_icache, setInode_icache_self, max_eq_right (hsize ▸ hgrow.2.le), ← w.inum]
    · rw [dinode_putDinode_self hfits, putDinode_icache, setInode_icache_self]
  · rename_i hgrow
    have hle : off + src.length ≤ (s.icache k).size := by omega
    have hn := w.noHoles
    rw [max_eq_left (blocksOf_mono hle)] at hn
    have hsame := WellFormed.addrs_eq hready w.ready w.toExtends hholes hn
    refine ⟨rfl, w.written h hr hv hoff (fun _ _ ↦ rfl) (fun _ ↦ rfl) (fun _ _ _ ↦ rfl)
      (fun _ _ ↦ rfl) ?_ ?_⟩
    · rw [max_eq_left hle, ← hsize]
    · rw [w.dinode _ (h.inum k hr), hsame, hcached]

end

/-- A call of `readi` or `writei`. -/
inductive Call
  | readi (k : Fin NINODE) (off n : ℕ)
  | writei (k : Fin NINODE) (src : List UInt8) (off : ℕ)

inductive Ret
  | readi (r : Option (List UInt8))
  | writei (r : Option ℕ)
  deriving DecidableEq

namespace Call

def slot : Call → Fin NINODE
  | readi k _ _ => k
  | writei k _ _ => k

def Uint : Call → Prop
  | readi _ off n => off < 2 ^ 32 ∧ n < 2 ^ 32
  | writei _ src off => off < 2 ^ 32 ∧ src.length < 2 ^ 32

/-- The call is made with a reference to a file or a directory that has been read from the disk. -/
structure Usable (c : Call) (s : State) : Prop where
  ref : 0 < (s.icache c.slot).ref
  valid : (s.icache c.slot).valid = true
  type : (s.icache c.slot).type ≠ T_DEV
  uint : c.Uint

def Enough (sb : Superblock) (c : Call) (s : State) : Prop :=
  match c with
  | readi _ _ _ => True
  | writei k src off =>
    off ≤ (s.icache k).size → off + src.length ≤ MAXFILE * BSIZE →
      blocksFor (max (blocksOf (s.icache k).size) (blocksOf (off + src.length))) ≤
        s.freeBlocks sb + blocksFor (blocksOf (s.icache k).size)

def run (sb : Superblock) (devsw : Devsw) (c : Call) (s : State) : Except Panic (Ret × State) :=
  match c with
  | readi k off n => do
    let (r, s) ← s.readi sb devsw k off n
    .ok (.readi r, s)
  | writei k src off => do
    let (r, s) ← s.writei sb devsw k src off
    .ok (.writei r, s)

def step (sb : Superblock) (devsw : Devsw) (c : Call) (t : State × List Ret) :
    Except Panic (State × List Ret) := do
  let (r, s) ← c.run sb devsw t.1
  .ok (s, t.2 ++ [r])

def spec (inum : Fin NINODE → ℕ) (c : Call) (f : ℕ → List UInt8) : Ret × (ℕ → List UInt8) :=
  match c with
  | readi k off n =>
    let l := f (inum k)
    (.readi (if off ≤ l.length ∧ off + n < 2 ^ 32 then some ((l.drop off).take n) else none), f)
  | writei k src off =>
    let l := f (inum k)
    if off ≤ l.length ∧ off + src.length < 2 ^ 32 ∧ off + src.length ≤ MAXFILE * BSIZE then
      (.writei (some src.length), Function.update f (inum k) (overwrite l off src))
    else (.writei none, f)

def specStep (inum : Fin NINODE → ℕ) (t : (ℕ → List UInt8) × List Ret) (c : Call) :
    (ℕ → List UInt8) × List Ret :=
  let (r, f) := c.spec inum t.1
  (f, t.2 ++ [r])

end Call

def State.files (sb : Superblock) (s : State) (i : ℕ) : List UInt8 := contents s.cache (s.dinode sb i)

def Abstracts (sb : Superblock) (s : State) (f : ℕ → List UInt8) : Prop :=
  ∀ i, i < sb.ninodes → (s.dinode sb i).type ≠ 0 → s.files sb i = f i

structure SameInodes (sb : Superblock) (s s' : State) : Prop where
  slot : ∀ k, (s'.icache k).inum = (s.icache k).inum ∧ (s'.icache k).ref = (s.icache k).ref ∧
    (s'.icache k).valid = (s.icache k).valid ∧ (s'.icache k).type = (s.icache k).type
  type : ∀ i, i < sb.ninodes → (s'.dinode sb i).type = (s.dinode sb i).type

theorem SameInodes.refl : SameInodes sb s s := ⟨fun _ ↦ ⟨rfl, rfl, rfl, rfl⟩, fun _ _ ↦ rfl⟩

theorem Call.Usable.congr {c : Call} (h : c.Usable s) (hs : SameInodes sb s s') : c.Usable s' := by
  obtain ⟨-, hr, hv, ht⟩ := hs.slot c.slot
  exact ⟨hr ▸ h.ref, hv ▸ h.valid, ht ▸ h.type, h.uint⟩

theorem Written.sameInodes (h : WellFormed sb s) (hr : 0 < (s.icache k).ref)
    (hv : (s.icache k).valid = true) (w : Written sb k src off s s') : SameInodes sb s s' := by
  obtain ⟨size, addrs, he⟩ := w.self
  refine ⟨fun k' ↦ ?_, fun i hi ↦ ?_⟩
  · rcases eq_or_ne k' k with rfl | hk
    · simp [he]
    · simp [w.others k' hk]
  · rcases eq_or_ne i (s.icache k).inum with rfl | hne
    · have hnew := (w.wellFormed.cached k (by rw [he]; exact hr) (by rw [he]; exact hv)).1
      rw [← (h.cached k hr hv).1]
      rw [he] at hnew
      simp only at hnew
      rw [← hnew]
    · rw [w.dinode i hi hne]

theorem Call.run_refines (devsw : Devsw) {c : Call} {f : ℕ → List UInt8} (h : WellFormed sb s)
    (hu : c.Usable s) (he : c.Enough sb s) (hf : Abstracts sb s f) :
    ∃ s', c.run sb devsw s = .ok ((c.spec (fun k ↦ (s.icache k).inum) f).1, s') ∧
      WellFormed sb s' ∧ SameInodes sb s s' ∧
      Abstracts sb s' (c.spec (fun k ↦ (s.icache k).inum) f).2 ∧
      ((∀ n, (c.spec (fun k ↦ (s.icache k).inum) f).1 ≠ .writei (some n)) → s' = s) := by
  obtain ⟨hr, hv, ht, huint⟩ := hu
  have hcached := h.cached c.slot hr hv
  have hcontents : f (s.icache c.slot).inum = contents s.cache (s.icache c.slot).toDinode := by
    rw [← hf _ (h.inum _ hr) (by rw [← hcached.1]; exact hcached.2), files, hcached.1]
  cases c with
  | readi k off n =>
    refine ⟨s, ?_, h, .refl, hf, fun _ ↦ rfl⟩
    simp only [slot] at *
    simp only [run, spec, h.readi_eq hr hv ht huint.1 huint.2, ok_bind, hcontents, length_contents]
  | writei k src off =>
    simp only [slot] at *
    simp only [run, spec, hcontents, length_contents]
    split
    · rename_i hok
      have henough := he hok.1 hok.2.2
      have hw : Ensures (fun r ↦ r.1 = some src.length ∧ Written sb k src off s r.2) (fun _ ↦ False)
          (s.writei sb devsw k src off) :=
        (h.writei_ensures hr hv ht hok.1 hok.2.2).weaken fun e he ↦ by omega
      obtain ⟨⟨r, s'⟩, heq, rfl, w⟩ := hw.exists_ok
      have hsame := w.sameInodes h hr hv
      obtain ⟨hinum, href, hvalid, -⟩ := hsame.slot k
      have hnew := w.wellFormed.cached k (href ▸ hr) (hvalid ▸ hv)
      refine ⟨s', by simp [heq], w.wellFormed, hsame, fun i hi hti ↦ ?_, fun hno ↦ (hno _ rfl).elim⟩
      rcases eq_or_ne i (s.icache k).inum with rfl | hne
      · rw [← hinum, files, ← hnew.1, w.contents, hinum]
        simp
      · simp only [Function.update_of_ne hne]
        rw [hsame.type i hi] at hti
        rw [files, w.foreign i hi hne hti, ← hf i hi hti, files]
    · rename_i hno
      exact ⟨s, by simp [h.writei_fails hr hv ht huint.2 hno], h, .refl, hf, fun _ ↦ rfl⟩

theorem Call.exec_refines {devsw : Devsw} {l : List Call} {f : ℕ → List UInt8} {rets : List Ret}
    {inum : Fin NINODE → ℕ} (h : WellFormed sb s) (hinum : ∀ k, (s.icache k).inum = inum k)
    (hu : ∀ c ∈ l, c.Usable s)
    (he : Meets (Call.step sb devsw) (fun c t ↦ c.Enough sb t.1) l (s, rets))
    (hf : Abstracts sb s f) :
    ∃ s', exec (Call.step sb devsw) l (s, rets) = .ok (s', (l.foldl (Call.specStep inum) (f, rets)).2) ∧
      WellFormed sb s' ∧ SameInodes sb s s' ∧
      Abstracts sb s' (l.foldl (Call.specStep inum) (f, rets)).1 := by
  induction l generalizing s f rets with
  | nil => exact ⟨s, rfl, h, .refl, hf⟩
  | cons c l ih =>
    obtain rfl : (fun k ↦ (s.icache k).inum) = inum := funext hinum
    obtain ⟨s₁, hrun, hwf, hsame, hf₁, -⟩ := Call.run_refines devsw h (hu c (.head _)) he.1 hf
    have hstep : Call.step sb devsw c (s, rets) =
        .ok (s₁, rets ++ [(c.spec (fun k ↦ (s.icache k).inum) f).1]) := by simp [Call.step, hrun]
    obtain ⟨s', hexec, hwf', hsame', hf'⟩ := ih hwf (fun k ↦ (hsame.slot k).1)
      (fun c' hc ↦ (hu c' (.tail _ hc)).congr hsame) (he.2 _ hstep) hf₁
    refine ⟨s', by rw [exec_cons, hstep]; exact hexec, hwf', ⟨fun k ↦ ?_, fun i hi ↦ ?_⟩, hf'⟩
    · have := hsame.slot k
      have := hsame'.slot k
      grind
    · rw [hsame'.type i hi, hsame.type i hi]

theorem Call.enough_of_quiet {c : Call} (h : WellFormed sb s) (hu : c.Usable s)
    (hq : ∀ n, (c.spec (fun k ↦ (s.icache k).inum) (s.files sb)).1 ≠ .writei (some n)) :
    c.Enough sb s := by
  cases c with
  | readi k off n => trivial
  | writei k src off =>
    intro hoff hmax
    have hlim : MAXFILE * BSIZE = 71680 := by decide
    refine absurd ?_ (hq src.length)
    have hlen : (s.files sb (s.icache k).inum).length = (s.icache k).size := by
      rw [files, length_contents, (h.cached k hu.ref hu.valid).1]
    have hok : off + src.length < 2 ^ 32 := by omega
    simp only [spec, hlen]
    rw [if_pos ⟨hoff, hok, hmax⟩]

/-- Files and directories are arrays of bytes: a sequence of calls of `readi` and `writei` returns
what it returns for arrays and leaves the contents that it leaves there. -/
theorem files_are_byte_arrays {sb : Superblock} {devsw : Devsw} {s : State} (h : WellFormed sb s)
    {l : List Call} (hu : ∀ c ∈ l, c.Usable s)
    (he : Meets (Call.step sb devsw) (fun c t ↦ c.Enough sb t.1) l (s, [])) :
    (∃ s', exec (Call.step sb devsw) l (s, []) =
        .ok (s', (l.foldl (Call.specStep fun k ↦ (s.icache k).inum) (s.files sb, [])).2) ∧
      WellFormed sb s' ∧ SameInodes sb s s' ∧
      ∀ i, i < sb.ninodes → (s.dinode sb i).type ≠ 0 → s'.files sb i =
        (l.foldl (Call.specStep fun k ↦ (s.icache k).inum) (s.files sb, [])).1 i) ∧
    ∀ c : Call, c.Usable s →
      (∀ n, (c.spec (fun k ↦ (s.icache k).inum) (s.files sb)).1 ≠ .writei (some n)) →
      c.run sb devsw s = .ok ((c.spec (fun k ↦ (s.icache k).inum) (s.files sb)).1, s) := by
  have hf : Abstracts sb s (s.files sb) := fun _ _ _ ↦ rfl
  constructor
  · obtain ⟨s', hexec, hwf, hsame, hf'⟩ := Call.exec_refines h (fun _ ↦ rfl) hu he hf
    exact ⟨s', hexec, hwf, hsame, fun i hi ht ↦ hf' i hi (by rwa [hsame.type i hi])⟩
  · intro c hc hquiet
    obtain ⟨s', hrun, -, -, -, hsame⟩ :=
      Call.run_refines devsw h hc (Call.enough_of_quiet h hc hquiet) hf
    rwa [hsame hquiet] at hrun

theorem addr_eq_zero {data : Image} {d : Dinode} (h : ∀ j, d.addrs j = 0) (p : ℕ) :
    addr data d p = 0 := by
  unfold addr
  split
  · exact h _
  · rw [h]
    simp

theorem NoHoles.empty {own : ℕ × ℕ → Option ℕ} (h : ∀ p, own (i, p) = none) :
    NoHoles own i (blocksOf 0) :=
  ⟨fun p _ ↦ by simp [h, blocksOf, BSIZE], by simp [h, blocksOf, BSIZE], by simp [blocksOf, BSIZE]⟩

theorem WellFormed.empty (hbits : ∀ b, b < sb.size → s.bit sb b = decide (b < sb.datastart))
    (hino : ∀ i, i < sb.ninodes → (s.dinode sb i).type ≠ 0 →
      (∀ j, (s.dinode sb i).addrs j = 0) ∧ (s.dinode sb i).size = 0)
    (hinum : ∀ k, 0 < (s.icache k).ref → (s.icache k).inum < sb.ninodes)
    (hcached : ∀ k, 0 < (s.icache k).ref → (s.icache k).valid = true →
      (s.icache k).toDinode = s.dinode sb (s.icache k).inum ∧ (s.icache k).type ≠ 0)
    (hdistinct : ∀ k k', 0 < (s.icache k).ref → 0 < (s.icache k').ref →
      (s.icache k).inum = (s.icache k').inum → k = k') : WellFormed sb s := by
  have hnone : ∀ x, own sb s.cache (s.dinode sb) x = none := by
    intro x
    unfold own
    rw [if_neg]
    rintro ⟨hi, ht, -, ha⟩
    exact ha (addr_eq_zero (hino _ hi ht).1 _)
  refine ⟨⟨fun x a hx ↦ ?_, fun x y a hx ↦ ?_, fun b hb ↦ ?_⟩, fun b hb ↦ ?_, fun i hi ht ↦ ?_, hinum,
    hcached, hdistinct⟩
  · simp [hnone] at hx
  · simp [hnone] at hx
  · simp [hbits b hb.2, hnone, hb.1]
  · have := sb.bmap_lt
    rw [hbits b (by unfold Superblock.datastart at hb; omega)]
    simpa using hb
  · rw [(hino i hi ht).2]
    exact .empty fun p ↦ hnone (i, p)

def diskOf (ninodes : ℕ) (h : ninodes < IPB) : Superblock where
  size := 8
  nblocks := 4
  ninodes := ninodes
  nlog := 0
  logstart := 2
  inodestart := 2
  bmapstart := 3
  log_le := by decide
  inodes_lt := by rw [Nat.div_eq_of_lt h]; decide
  bmap_lt := by decide
  size_lt := by decide

def smallDisk : Superblock := diskOf 2 (by decide)

def smallInode (type : ℕ) : State where
  cache := fun b ↦
    if b = 2 then putDinode (fun _ ↦ 0) DINODE ⟨type, 0, 0, 1, 0, fun _ ↦ 0⟩
    else if b = 3 then fun i ↦ if i.val = 0 then 15 else 0
    else fun _ ↦ 0
  icache := fun k ↦
    if k.val = 0 then ⟨⟨type, 0, 0, 1, 0, fun _ ↦ 0⟩, 1, 1, true, true⟩
    else ⟨⟨0, 0, 0, 0, 0, fun _ ↦ 0⟩, 0, 0, false, false⟩
  logged := []

def smallFile : State := smallInode T_FILE

theorem smallInode_dinode {type : ℕ} (h : type < 2 ^ 16) :
    (smallInode type).dinode smallDisk 1 = ⟨type, 0, 0, 1, 0, fun _ ↦ 0⟩ :=
  getDinode_putDinode_self (b := fun _ ↦ 0) (o := DINODE) (by decide)
    ⟨h, Nat.two_pow_pos _, Nat.two_pow_pos _, by norm_num, Nat.two_pow_pos _, fun _ ↦ Nat.two_pow_pos _⟩

theorem smallInode_wellFormed {type n : ℕ} (h : type = T_FILE ∨ type = T_DIR) (hn : n < IPB)
    (h1 : 1 < n) : WellFormed (diskOf n hn) (smallInode type) := by
  have hinode : (smallInode type).dinode (diskOf n hn) 1 = ⟨type, 0, 0, 1, 0, fun _ ↦ 0⟩ :=
    smallInode_dinode (by rcases h with rfl | rfl <;> decide)
  have hfree : ∀ i : Fin IPB, i.val ≠ 1 → ((smallInode type).dinode smallDisk i).type = 0 := by
    rcases h with rfl | rfl <;> decide +kernel
  have hbits : ∀ b : Fin 8,
      (smallInode type).bit smallDisk b = decide (b.val < smallDisk.datastart) := by
    rcases h with rfl | rfl <;> decide +kernel
  have hslot : ∀ k, 0 < ((smallInode type).icache k).ref → k.val = 0 := by
    intro k hr
    by_contra hk
    simp [smallInode, hk] at hr
  have h0 : ∀ k : Fin NINODE, k.val = 0 → (smallInode type).icache k =
      ⟨⟨type, 0, 0, 1, 0, fun _ ↦ 0⟩, 1, 1, true, true⟩ := by
    intro k hk
    simp [smallInode, hk]
  refine .empty (fun b hb ↦ hbits ⟨b, hb⟩) (fun i hi ht ↦ ?_) (fun k hr ↦ ?_) (fun k hr _ ↦ ?_)
    (fun k k' hr hr' _ ↦ Fin.ext ((hslot k hr).trans (hslot k' hr').symm))
  · by_cases hi1 : i = 1
    · rw [hi1, hinode]
      simp
    · exact absurd (hfree ⟨i, hi.trans hn⟩ hi1) ht
  · rw [h0 k (hslot k hr)]
    exact h1
  · rw [h0 k (hslot k hr), hinode]
    exact ⟨rfl, by rcases h with rfl | rfl <;> decide⟩

theorem smallFile_wellFormed : WellFormed smallDisk smallFile :=
  smallInode_wellFormed (.inl rfl) _ (by decide)

theorem files_are_byte_arrays_small : ∃ s',
    exec (Call.step smallDisk noDevice)
      [.writei ⟨0, by decide⟩ [1, 2, 3] 0, .readi ⟨0, by decide⟩ 1 5] (smallFile, []) =
    .ok (s', [.writei (some 3), .readi (some [2, 3])]) := by
  have husable : ∀ c ∈ ([.writei ⟨0, by decide⟩ [1, 2, 3] 0, .readi ⟨0, by decide⟩ 1 5] : List Call),
      c.Usable smallFile := by
    simp only [List.mem_cons, List.not_mem_nil, or_false, forall_eq_or_imp, forall_eq]
    refine ⟨⟨?_, ?_, ?_, ?_⟩, ⟨?_, ?_, ?_, ?_⟩⟩ <;> first | decide | simp [Call.Uint]
  have hfree : smallFile.freeBlocks smallDisk = 4 := by decide +kernel
  have henough : Meets (Call.step smallDisk noDevice) (fun c t ↦ c.Enough smallDisk t.1)
      [.writei ⟨0, by decide⟩ [1, 2, 3] 0, .readi ⟨0, by decide⟩ 1 5] (smallFile, []) :=
    ⟨fun _ _ ↦ by rw [hfree]; decide, fun _ _ ↦ ⟨trivial, fun _ _ ↦ trivial⟩⟩
  obtain ⟨⟨s', he, -⟩, -⟩ := files_are_byte_arrays smallFile_wellFormed husable henough
  exact ⟨s', he⟩

end Xv6Bfs.Fs

import Mathlib.Algebra.Order.BigOperators.Group.Finset
import Mathlib.Data.Finset.Option
import Xv6Bfs.Fs.Files

namespace Xv6Bfs.Fs

open Lib.Bytes Lib.Execution Disk

namespace State

variable {sb : Superblock} {s s₁ s' s'' : State} {k : Fin NINODE} {A A' : Finset ℕ}
  {b m m' n bn off : ℕ}

def LogsIn (A : Finset ℕ) (m : ℕ) (s s' : State) : Prop :=
  ∃ new : List ℕ, s'.logged = new ++ s.logged ∧
    ∃ others : Finset ℕ, others.card ≤ m ∧ new.toFinset ⊆ A ∪ others

namespace LogsIn

theorem refl : LogsIn A m s s := ⟨[], rfl, ∅, Nat.zero_le m, by simp⟩

theorem trans (h : LogsIn A m s s') (h' : LogsIn A m' s' s'') : LogsIn A (m + m') s s'' := by
  obtain ⟨new, hnew, others, hcard, hsub⟩ := h
  obtain ⟨new', hnew', others', hcard', hsub'⟩ := h'
  refine ⟨new' ++ new, by rw [hnew', hnew, List.append_assoc], others ∪ others', ?_, ?_⟩
  · exact (Finset.card_union_le _ _).trans (Nat.add_le_add hcard hcard')
  · rw [List.toFinset_append]
    intro x hx
    simp only [Finset.mem_union]
    rcases Finset.mem_union.mp hx with hx | hx
    · have := Finset.mem_union.mp (hsub' hx)
      tauto
    · have := Finset.mem_union.mp (hsub hx)
      tauto

theorem mono (h : LogsIn A m s s') (hA : A ⊆ A') (hm : m ≤ m') : LogsIn A' m' s s' := by
  obtain ⟨new, hnew, others, hcard, hsub⟩ := h
  exact ⟨new, hnew, others, hcard.trans hm, hsub.trans (Finset.union_subset_union_left hA)⟩

theorem cons (h : LogsIn A m s s') (hb : b ∈ A) (hl : s''.logged = b :: s'.logged) :
    LogsIn A m s s'' := by
  obtain ⟨new, hnew, others, hcard, hsub⟩ := h
  refine ⟨b :: new, by rw [hl, hnew, List.cons_append], others, hcard, ?_⟩
  rw [List.toFinset_cons]
  exact Finset.insert_subset (Finset.mem_union_left _ hb) hsub

theorem card_le (h : LogsIn A m s s') :
    ∃ new, s'.logged = new ++ s.logged ∧ new.toFinset.card ≤ A.card + m := by
  obtain ⟨new, hnew, others, hcard, hsub⟩ := h
  refine ⟨new, hnew, ?_⟩
  calc new.toFinset.card ≤ (A ∪ others).card := Finset.card_le_card hsub
    _ ≤ A.card + others.card := Finset.card_union_le _ _
    _ ≤ A.card + m := Nat.add_le_add_left hcard _

end LogsIn

theorem balloc_logs (s : State) :
    Ensures (fun r ↦ LogsIn {r.1} 1 s r.2 ∧ r.2.icache = s.icache) (fun _ ↦ True) (s.balloc sb) := by
  unfold balloc
  split
  · rename_i b bi _
    refine ⟨⟨[b + bi, sb.bblock b], rfl, {sb.bblock b}, le_rfl, ?_⟩, rfl⟩
    simp
  · trivial

theorem ballocAddr_logs (s : State) (k : Fin NINODE) (i : Fin (NDIRECT + 1)) :
    Ensures (fun r ↦ LogsIn {r.1} 1 s r.2 ∧ (r.2.icache k).addrs i = r.1) (fun _ ↦ True)
      (s.ballocAddr sb k i) := by
  refine (balloc_logs s).bind fun r hr ↦ ⟨hr.1, ?_⟩
  simp [setAddr]

theorem ballocEntry_logs (s : State) (ind bn : ℕ) :
    Ensures (fun r ↦ LogsIn {r.1, ind} 1 s r.2 ∧ r.2.icache = s.icache) (fun _ ↦ True)
      (s.ballocEntry sb ind bn) := by
  refine (balloc_logs s).bind fun r hr ↦ ⟨?_, hr.2⟩
  exact (hr.1.mono (by simp) le_rfl).cons (b := ind) (by simp) rfl

theorem bmap_logs_direct (s : State) (k : Fin NINODE) (hbn : bn < NDIRECT) :
    Ensures (fun r ↦ LogsIn {r.1} 1 s r.2) (fun _ ↦ True) (s.bmap sb k bn) := by
  rw [bmap, dif_pos hbn]
  dsimp only
  split
  · exact (ballocAddr_logs s k _).mono fun r hr ↦ hr.1
  · exact .refl

-- the entries of an indirect block are never computed
attribute [local irreducible] word

theorem bmap_logs_indirect (s : State) (k : Fin NINODE) (hbn : NDIRECT ≤ bn) :
    Ensures (fun r ↦ LogsIn {r.1, (r.2.icache k).addrs (Fin.last NDIRECT)}
        (if (s.icache k).addrs (Fin.last NDIRECT) = 0 then 2 else 1) s r.2) (fun _ ↦ True)
      (s.bmap sb k bn) := by
  have hentry (ind : ℕ) (s₁ : State) (hind : (s₁.icache k).addrs (Fin.last NDIRECT) = ind) :
      Ensures (fun r ↦ LogsIn {r.1, (r.2.icache k).addrs (Fin.last NDIRECT)} 1 s₁ r.2 ∧
          (r.2.icache k).addrs (Fin.last NDIRECT) = ind) (fun _ ↦ True)
        (if word (s₁.cache ind) (bn - NDIRECT) = 0 then s₁.ballocEntry sb ind (bn - NDIRECT)
          else .ok (word (s₁.cache ind) (bn - NDIRECT), s₁)) := by
    split
    · refine (ballocEntry_logs s₁ ind _).mono fun r hr ↦ ?_
      rw [hr.2, hind]
      exact ⟨hr.1, rfl⟩
    · exact ⟨.refl, hind⟩
  rw [bmap, dif_neg (Nat.not_lt.mpr hbn)]
  dsimp only
  by_cases hlast : (s.icache k).addrs (Fin.last NDIRECT) = 0
  · rw [if_pos hlast, if_pos hlast]
    split
    · apply (ballocAddr_logs s k _).bind
      rintro ⟨ind, s₁⟩ ⟨hlogs, hind⟩
      refine (hentry ind s₁ hind).mono fun r hr ↦ ?_
      exact (hlogs.mono (by simp [hr.2]) le_rfl).trans hr.1
    · trivial
  · rw [if_neg hlast, if_neg hlast]
    split
    · exact (hentry _ s rfl).mono fun r hr ↦ hr.1
    · trivial

variable (sb) in
def blocksAt (s : State) (k : Fin NINODE) (ps : Finset ℕ) : Finset ℕ :=
  ps.biUnion fun p ↦ (s.places sb k ((s.icache k).inum, p)).toFinset

theorem mem_blocksAt {ps : Finset ℕ} {p : ℕ} (hp : p ∈ ps)
    (h : s.places sb k ((s.icache k).inum, p) = some b) : b ∈ s.blocksAt sb k ps :=
  Finset.mem_biUnion.mpr ⟨p, hp, by simp [h]⟩

theorem card_blocksAt_le (ps : Finset ℕ) : (s.blocksAt sb k ps).card ≤ ps.card := by
  refine Finset.card_biUnion_le.trans ?_
  calc ∑ p ∈ ps, (s.places sb k ((s.icache k).inum, p)).toFinset.card
      ≤ ∑ _p ∈ ps, 1 := Finset.sum_le_sum fun p _ ↦ by
        cases s.places sb k ((s.icache k).inum, p) with
        | none => exact Nat.zero_le 1
        | some c => exact le_rfl
    _ = ps.card := by simp

theorem Extends.blocksAt_subset {ps ps' : Finset ℕ} (h : Extends sb k s s') (hps : ps ⊆ ps') :
    s.blocksAt sb k ps ⊆ s'.blocksAt sb k ps' := by
  intro c hc
  obtain ⟨p, hp, hc⟩ := Finset.mem_biUnion.mp hc
  rw [Option.mem_toFinset, Option.mem_def] at hc
  exact mem_blocksAt (hps hp) (by rw [h.inum]; exact h.kept _ c hc)

theorem bmap_logs (h : Ready sb k s) (hn : NoHoles (s.places sb k) (s.icache k).inum n)
    (hle : bn ≤ n) (hlt : bn < MAXFILE) :
    Ensures (fun r ↦ LogsIn (r.2.blocksAt sb k {bn, MAXFILE})
        (blocksFor (max n (bn + 1)) - blocksFor n) s r.2) (fun _ ↦ True) (s.bmap sb k bn) := by
  rcases Nat.lt_or_eq_of_le hle with hbn | rfl
  · obtain ⟨b, hb⟩ := Option.ne_none_iff_exists'.mp ((hn.block bn hlt).mpr hbn)
    rw [h.bmap_eq hlt hb]
    exact .refl
  have hmapped := bmap_ensures h hn le_rfl hlt
  rw [max_eq_right (Nat.le_succ bn)]
  by_cases hdirect : bn < NDIRECT
  · have hfor : blocksFor (bn + 1) - blocksFor bn = 1 := by
      rw [blocksFor, blocksFor, if_neg (by omega), if_neg (by omega)]
      omega
    rw [hfor]
    refine ((hmapped.and (bmap_logs_direct s k hdirect)).mono fun r hr ↦ ?_).anyError
    refine hr.2.mono (Finset.singleton_subset_iff.mpr ?_) le_rfl
    exact mem_blocksAt (Finset.mem_insert_self _ _) (by rw [hr.1.grows.inum]; exact hr.1.block)
  · refine ((hmapped.and (bmap_logs_indirect s k (Nat.not_lt.mp hdirect))).mono fun r hr ↦ ?_).weaken
      fun _ _ ↦ trivial
    obtain ⟨hm, hlogs⟩ := hr
    have hinum := hm.grows.inum
    obtain ⟨ind, hind⟩ := Option.ne_none_iff_exists'.mp (hm.noHoles.indirect.mpr (by omega))
    rw [← hinum] at hind
    obtain ⟨hlast, -, -⟩ := hm.ready.places_indirect 0 hind (by decide)
    rw [hlast] at hlogs
    refine hlogs.mono (Finset.insert_subset ?_ (Finset.singleton_subset_iff.mpr ?_)) ?_
    · exact mem_blocksAt (Finset.mem_insert_self _ _) (by rw [hinum]; exact hm.block)
    · exact mem_blocksAt (Finset.mem_insert_of_mem (Finset.mem_singleton_self _)) hind
    · split
      · rename_i h0
        obtain rfl : bn = NDIRECT := by
          by_contra hne
          have hsome := hn.indirect.mpr (by omega)
          rw [h.places_eq le_rfl, addr_last, if_pos h0] at hsome
          exact hsome rfl
        decide
      · rw [blocksFor, if_pos (by omega), blocksFor]
        split <;> omega

def touched (off len : ℕ) : Finset ℕ := insert MAXFILE (Finset.Ico (off / BSIZE) (blocksOf (off + len)))

theorem writeLoop_logs {fuel : ℕ} {src : List UInt8} (h : Ready sb k s)
    (hn : NoHoles (s.places sb k) (s.icache k).inum n) (hfuel : src.length ≤ fuel)
    (hoff : off ≤ n * BSIZE) (hmax : off + src.length ≤ MAXFILE * BSIZE) :
    Ensures (fun s' ↦ LogsIn (s'.blocksAt sb k (touched off src.length))
        (blocksFor (max n (blocksOf (off + src.length))) - blocksFor n) s s') (fun _ ↦ True)
      (s.writeLoop sb k fuel src off) := by
  induction fuel generalizing src off s n with
  | zero => exact .refl
  | succ fuel ih =>
    rw [writeLoop]
    split
    · exact .refl
    rename_i h0
    have hmod := Nat.mod_lt off BSIZE_pos
    have hbn : off / BSIZE ≤ n := by
      unfold BSIZE at *
      omega
    have hlt : off / BSIZE < MAXFILE := by
      unfold BSIZE at *
      omega
    set m := min src.length (BSIZE - off % BSIZE) with hm
    have htake : (src.take m).length = m := by
      rw [List.length_take]
      omega
    have hdrop : (src.drop m).length = src.length - m := List.length_drop
    have hblocks : blocksOf (off + m) = off / BSIZE + 1 := by
      unfold blocksOf
      unfold BSIZE at *
      omega
    have hfinal := blocksOf_mono (m := off + m) (n := off + src.length) (by omega)
    apply ((bmap_ensures h hn hbn hlt).and (bmap_logs h hn hbn hlt)).anyError.bind
    rintro ⟨b, s₁⟩ ⟨h₁, hlogs⟩
    have hround := h₁.wrote (src.take m) hn hlt (by omega) (by omega)
    have hn₁ := hround.noHoles
    rw [htake, hblocks, ← hround.inum] at hn₁
    have hroom : off + m ≤ max n (off / BSIZE + 1) * BSIZE := by
      refine (le_blocksOf (off + m)).trans (Nat.mul_le_mul_right _ ?_)
      rw [hblocks]
      exact le_max_right _ _
    have hlen : (src.drop m).length ≤ fuel := by omega
    have hend : off + m + (src.drop m).length ≤ MAXFILE * BSIZE := by omega
    have hrest := (writeLoop_ensures hround.ready hn₁ hlen hroom hend).and
      (ih hround.ready hn₁ hlen hroom hend)
    refine (hrest.mono fun s' hs' ↦ ?_).anyError
    obtain ⟨hw, hlogs'⟩ := hs'
    have hsum : off + m + (src.drop m).length = off + src.length := by omega
    rw [hsum] at hlogs'
    have htouched : touched (off + m) (src.drop m).length ⊆ touched off src.length := by
      rw [touched, touched, hsum]
      exact Finset.insert_subset_insert _ (Finset.Ico_subset_Ico_left (Nat.div_le_div_right (by omega)))
    have hfirst : ({off / BSIZE, MAXFILE} : Finset ℕ) ⊆ touched off src.length := by
      refine Finset.insert_subset (Finset.mem_insert_of_mem (Finset.mem_Ico.mpr ⟨le_rfl, by omega⟩))
        (Finset.singleton_subset_iff.mpr (Finset.mem_insert_self _ _))
    have hext := (h₁.ready.overwrite hlt (patch (s₁.cache b) (off % BSIZE) (src.take m))
      h₁.block).2.2.1.trans hw.toExtends
    have hA := hext.blocksAt_subset hfirst
    have hB : s'.blocksAt sb k (touched (off + m) (src.drop m).length) ⊆
        s'.blocksAt sb k (touched off src.length) := Finset.biUnion_subset_biUnion_of_subset_left _ htouched
    have hb : b ∈ s'.blocksAt sb k (touched off src.length) :=
      hA (mem_blocksAt (Finset.mem_insert_self _ _) (by rw [h₁.grows.inum]; exact h₁.block))
    refine (((hlogs.mono hA le_rfl).cons hb rfl).trans (hlogs'.mono hB le_rfl)).mono subset_rfl ?_
    -- the blocks of this round and those of the rest
    have hle := blocksFor_mono (m := n) (n := max n (off / BSIZE + 1)) (le_max_left _ _)
    have hle' := blocksFor_mono (m := max n (off / BSIZE + 1))
      (n := max (max n (off / BSIZE + 1)) (blocksOf (off + src.length))) (le_max_left _ _)
    have hmax' : max (max n (off / BSIZE + 1)) (blocksOf (off + src.length)) =
        max n (blocksOf (off + src.length)) := by omega
    rw [hmax'] at hle' ⊢
    omega

structure Logged (sb : Superblock) (k : Fin NINODE) (len off : ℕ) (s s' : State) : Prop where
  free : s'.freeBlocks sb + blocksFor (max (blocksOf (s.icache k).size) (blocksOf (off + len))) =
    s.freeBlocks sb + blocksFor (blocksOf (s.icache k).size)
  logs : ∃ A : Finset ℕ, A.card ≤ (touched off len).card + 1 ∧
    LogsIn A (blocksFor (max (blocksOf (s.icache k).size) (blocksOf (off + len))) -
      blocksFor (blocksOf (s.icache k).size)) s s'

theorem freeBlocks_congr (h : ∀ c, s'.bit sb c = s.bit sb c) : s'.freeBlocks sb = s.freeBlocks sb := by
  unfold freeBlocks
  simp only [h]

theorem blocksFor_sub_le (n n' : ℕ) : blocksFor (max n n') - blocksFor n ≤ n' - n + 1 := by
  unfold blocksFor
  split <;> split <;> omega

theorem Logged.card_le {len n : ℕ} (h : Logged sb k len off s s') (hlen : len ≤ n * BSIZE)
    (hoff : off ≤ (s.icache k).size) :
    ∃ new, s'.logged = new ++ s.logged ∧ new.toFinset.card ≤ 2 * n + 4 := by
  obtain ⟨A, hA, hlogs⟩ := h.logs
  obtain ⟨new, hnew, hcard⟩ := hlogs.card_le
  refine ⟨new, hnew, hcard.trans ?_⟩
  have htouched : (touched off len).card ≤ blocksOf (off + len) - off / BSIZE + 1 := by
    refine (Finset.card_insert_le _ _).trans ?_
    rw [Nat.card_Ico]
  have halloc := blocksFor_sub_le (blocksOf (s.icache k).size) (blocksOf (off + len))
  have hbefore := blocksOf_mono hoff
  have harith : blocksOf (off + len) - off / BSIZE ≤ n + 1 ∧
      blocksOf (off + len) ≤ blocksOf off + n := by
    unfold blocksOf
    unfold BSIZE at *
    omega
  omega

end State

theorem WellFormed.writei_logged {sb : Superblock} {devsw : Devsw} {s : State} {k : Fin NINODE}
    {src : List UInt8} {off : ℕ} (h : WellFormed sb s) (hr : 0 < (s.icache k).ref)
    (hv : (s.icache k).valid = true) (ht : (s.icache k).type ≠ T_DEV)
    (hoff : off ≤ (s.icache k).size) (hmax : off + src.length ≤ MAXFILE * BSIZE) :
    Ensures (fun r ↦ State.Logged sb k src.length off s r.2) (fun _ ↦ True)
      (s.writei sb devsw k src off) := by
  have hready := h.ready hr hv
  have hholes := h.noHoles_places hr hv
  have hlim : MAXFILE * BSIZE = 71680 := by decide
  have hmod : (off + src.length) % 2 ^ 32 = off + src.length := Nat.mod_eq_of_lt (by omega)
  have hroom := hoff.trans (le_blocksOf _)
  unfold State.writei
  simp only [if_neg ht, hmod]
  rw [if_neg (by omega), if_neg (by omega)]
  apply ((State.writeLoop_ensures hready hholes le_rfl hroom hmax).and
    (State.writeLoop_logs hready hholes le_rfl hroom hmax)).anyError.bind
  rintro s₁ ⟨hw, hlogs⟩
  have hcard : (s₁.blocksAt sb k (State.touched off src.length)).card ≤
      (State.touched off src.length).card := State.card_blocksAt_le _
  have hinum : (s₁.icache k).inum < sb.ninodes := by
    rw [hw.inum]
    exact h.inum k hr
  split
  · rw [State.iupdate_setInode]
    refine ⟨?_, insert (sb.iblock (s₁.icache k).inum) (s₁.blocksAt sb k (State.touched off src.length)),
      (Finset.card_insert_le _ _).trans (Nat.add_le_add_right hcard 1), ?_⟩
    · rw [State.freeBlocks_congr fun c ↦ State.bit_putDinode hinum]
      exact hw.free
    · exact (hlogs.mono (Finset.subset_insert _ _) le_rfl).cons (Finset.mem_insert_self _ _) rfl
  · exact ⟨hw.free, _, hcard.trans (Nat.le_succ _), hlogs⟩

end Xv6Bfs.Fs

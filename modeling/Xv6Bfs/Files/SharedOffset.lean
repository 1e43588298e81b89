import Mathlib.Algebra.Order.BigOperators.Group.Finset
import Xv6Bfs.Files.Filewrite
import Xv6Bfs.Fs.BlockOwnership

namespace Xv6Bfs.Files

open Lib.Execution Lib.Interleaving Fs Disk Function

def chunks (src : List UInt8) : List (List UInt8) :=
  if _h : src = [] then [] else src.take maxWrite :: chunks (src.drop maxWrite)
termination_by src.length
decreasing_by
  have hpos : 0 < maxWrite := by decide
  have := List.length_pos_iff.mpr _h
  rw [List.length_drop]
  omega

theorem chunks_nil : chunks [] = [] := by rw [chunks, dif_pos rfl]

theorem flatten_chunks (src : List UInt8) : (chunks src).flatten = src := by
  induction src using chunks.induct with
  | case1 => rw [chunks_nil, List.flatten_nil]
  | case2 src h ih => rw [chunks, dif_neg h, List.flatten_cons, ih, List.take_append_drop]

theorem chunks_drop {src : List UInt8} {i n1 : ℕ} (hi : i < src.length)
    (hn : n1 = min (src.length - i) maxWrite) :
    chunks (src.drop i) = (src.drop i).take n1 :: chunks (src.drop (i + n1)) := by
  have hne : src.drop i ≠ [] := by
    rw [Ne, List.drop_eq_nil_iff]
    omega
  rw [chunks, dif_neg hne, List.drop_drop]
  by_cases hle : src.length - i ≤ maxWrite
  · have hlen : (src.drop i).length = src.length - i := List.length_drop
    rw [List.drop_of_length_le (show src.length ≤ i + maxWrite by omega),
      List.drop_of_length_le (show src.length ≤ i + n1 by omega),
      List.take_of_length_le (show (src.drop i).length ≤ maxWrite by omega),
      List.take_of_length_le (show (src.drop i).length ≤ n1 by omega)]
  · rw [show n1 = maxWrite by omega]

theorem sum_chunks (todo : List (List UInt8)) :
    ((todo.flatMap chunks).map List.length).sum = (todo.map List.length).sum := by
  induction todo with
  | nil => rfl
  | cons src todo ih =>
    rw [List.flatMap_cons, List.map_append, List.sum_append, ih, ← List.length_flatten,
      flatten_chunks, List.map_cons, List.sum_cons]

theorem overwrite_overwrite {l c d : List UInt8} {off : ℕ} (h : off ≤ l.length) :
    overwrite (overwrite l off c) (off + c.length) d = overwrite l off (c ++ d) := by
  have hlen : (l.take off ++ c).length = off + c.length := by
    rw [List.length_append, List.length_take, Nat.min_eq_left h]
  simp only [overwrite]
  rw [← hlen, List.take_left' rfl, List.drop_append, List.drop_of_length_le (Nat.le_add_right _ _),
    List.nil_append, Nat.add_sub_cancel_left, List.drop_drop, hlen, List.append_assoc _ c d,
    List.length_append, Nat.add_assoc]

namespace Pc

def inside : Pc → Bool
  | .locked _ _ | .writing _ _ _ | .written _ _ _ | .added _ _ _ => true
  | _ => false

def pending : Pc → ℕ
  | .written _ _ (some r) => r
  | _ => 0

theorem pending_of_outside {pc : Pc} (h : pc.inside = false) : pc.pending = 0 := by
  cases pc with
  | locked | writing | written | added => cases h
  | _ => rfl

end Pc

namespace Writer

def rest (w : Writer) : List (List UInt8) :=
  match w.pc with
  | .idle => w.todo.flatMap chunks
  | .loop i | .begun i _ | .locked i _ | .writing i _ _ => chunks (w.src.drop i) ++ w.todo.flatMap chunks
  | .written i n1 _ | .added i n1 _ | .unlocked i n1 _ =>
    chunks (w.src.drop (i + n1)) ++ w.todo.flatMap chunks

def results (w : Writer) : List (Option ℕ) :=
  match w.pc with
  | .idle => w.todo.map (fun src ↦ some src.length)
  | _ => some w.src.length :: w.todo.map (fun src ↦ some src.length)

def Local (off : ℕ) (w : Writer) : Prop :=
  match w.pc with
  | .idle => True
  | .loop i => i ≤ w.src.length
  | .begun i n1 | .locked i n1 => i < w.src.length ∧ n1 = min (w.src.length - i) maxWrite
  | .writing i n1 o => i < w.src.length ∧ n1 = min (w.src.length - i) maxWrite ∧ o = off
  | .written i n1 r | .added i n1 r | .unlocked i n1 r => r = some n1 ∧ i + n1 ≤ w.src.length

theorem Local.outside {off off' : ℕ} {w : Writer} (h : w.Local off) (hw : w.pc.inside = false) :
    w.Local off' := by
  cases hp : w.pc <;> simp only [Local, hp] at h ⊢
  case writing => simp [hp, Pc.inside] at hw
  all_goals exact h

end Writer

namespace Shared

variable {P : Type} [DecidableEq P] {sb : Superblock} {devsw : Devsw} {k : Fin NINODE}
  {ino : ℕ} {s₀ s : Shared P} {p q : P}
  {w : Writer} {rounds : List (P × List UInt8)}

def file (sb : Superblock) (ino : ℕ) (s : Shared P) : List UInt8 := s.fs.files sb ino

def bytes (rounds : List (P × List UInt8)) : List UInt8 := (rounds.map Prod.snd).flatten

structure Regular (sb : Superblock) (k : Fin NINODE) (ino : ℕ) (s : Shared P) : Prop where
  consistent : Consistent sb s.fs
  ref : 0 < (s.fs.icache k).ref
  inum : (s.fs.icache k).inum = ino
  type : (s.fs.dinode sb ino).type = T_FILE

structure Inv (sb : Superblock) (k : Fin NINODE) (ino : ℕ) (s₀ s : Shared P)
    (rounds : List (P × List UInt8)) : Prop extends Regular sb k ino s where
  writable : s.writable = true
  file : s.file sb ino = overwrite (s₀.file sb ino) s₀.off (bytes rounds)
  local_off : ∀ p, (s.writer p).Local s.off
  excludes : ∀ p q, (s.writer p).pc.inside = true → (s.writer q).pc.inside = true → p = q
  locked : (s.fs.icache k).locked = true ↔ ∃ p, (s.writer p).pc.inside = true
  off_inside : ∀ p, (s.writer p).pc.inside = true →
    s.off + (s.writer p).pc.pending = s₀.off + (bytes rounds).length
  off_outside : (s.fs.icache k).locked = false → s.off = s₀.off + (bytes rounds).length
  order : ∀ p, proj p rounds ++ (s.writer p).rest = (s₀.writer p).todo.flatMap chunks
  results : ∀ p, (s.writer p).returned ++ (s.writer p).results =
    (s₀.writer p).todo.map (fun src ↦ some src.length)

section

variable (h : Inv sb k ino s₀ s rounds)
include h

theorem Inv.setWriter (hin : w.pc.inside = (s.writer p).pc.inside)
    (hpend : w.pc.pending = (s.writer p).pc.pending) (hrest : w.rest = (s.writer p).rest)
    (hres : w.returned ++ w.results = (s.writer p).returned ++ (s.writer p).results)
    (hloc : w.Local s.off) : Inv sb k ino s₀ (s.setWriter p w) rounds := by
  have hcase (q : P) : ((s.setWriter p w).writer q).pc.inside = (s.writer q).pc.inside ∧
      ((s.setWriter p w).writer q).pc.pending = (s.writer q).pc.pending ∧
      ((s.setWriter p w).writer q).rest = (s.writer q).rest ∧
      ((s.setWriter p w).writer q).returned ++ ((s.setWriter p w).writer q).results =
        (s.writer q).returned ++ (s.writer q).results ∧
      ((s.setWriter p w).writer q).Local s.off := by
    by_cases hq : q = p
    · subst hq
      rw [setWriter_self]
      exact ⟨hin, hpend, hrest, hres, hloc⟩
    · rw [setWriter_ne hq]
      exact ⟨rfl, rfl, rfl, rfl, h.local_off q⟩
  refine ⟨⟨h.consistent, h.ref, h.inum, h.type⟩, h.writable, h.file, fun q ↦ (hcase q).2.2.2.2,
    fun q r hq hr ↦ ?_, ?_, fun q hq ↦ ?_, h.off_outside, fun q ↦ ?_, fun q ↦ ?_⟩
  · rw [(hcase q).1] at hq
    rw [(hcase r).1] at hr
    exact h.excludes q r hq hr
  · simp only [(hcase _).1]
    exact h.locked
  · rw [(hcase q).1] at hq
    rw [(hcase q).2.1]
    exact h.off_inside q hq
  · rw [(hcase q).2.2.1]
    exact h.order q
  · rw [(hcase q).2.2.2.1]
    exact h.results q

theorem Inv.change {s' : Shared P} {rounds' : List (P × List UInt8)}
    (hreg : Regular sb k ino s') (hwritable : s'.writable = s.writable) (hwriter : s'.writer = s.writer)
    (hfile : s'.file sb ino = overwrite (s₀.file sb ino) s₀.off (bytes rounds'))
    (hout : ∀ q, q ≠ p → (s.writer q).pc.inside = false)
    (hlocked : (s'.fs.icache k).locked = w.pc.inside) (hloc : w.Local s'.off)
    (hoff : s'.off + w.pc.pending = s₀.off + (bytes rounds').length)
    (hproj : ∀ q, q ≠ p → proj q rounds' = proj q rounds)
    (horder : proj p rounds' ++ w.rest = proj p rounds ++ (s.writer p).rest)
    (hres : w.returned ++ w.results = (s.writer p).returned ++ (s.writer p).results) :
    Inv sb k ino s₀ (s'.setWriter p w) rounds' := by
  have hself : (s'.setWriter p w).writer p = w := setWriter_self
  have hne (q : P) (hq : q ≠ p) : (s'.setWriter p w).writer q = s.writer q :=
    (setWriter_ne hq).trans (congrFun hwriter q)
  have honly (q : P) (hq : ((s'.setWriter p w).writer q).pc.inside = true) : q = p := by
    by_contra hqp
    rw [hne q hqp, hout q hqp] at hq
    cases hq
  obtain ⟨hcons, href, hinum, htype⟩ := hreg
  refine ⟨⟨hcons, href, hinum, htype⟩, hwritable.trans h.writable, hfile, fun q ↦ ?_, fun q r hq hr ↦ ?_, ?_,
    fun q hq ↦ ?_, fun hl ↦ ?_, fun q ↦ ?_, fun q ↦ ?_⟩
  · by_cases hq : q = p
    · rw [hq, hself]
      exact hloc
    · rw [hne q hq]
      exact (h.local_off q).outside (hout q hq)
  · rw [honly q hq, honly r hr]
  · rw [setWriter_fs, hlocked]
    refine ⟨fun hp ↦ ⟨p, by rwa [hself]⟩, fun ⟨q, hq⟩ ↦ ?_⟩
    rwa [honly q hq, hself] at hq
  · rw [honly q hq, hself]
    exact hoff
  · rw [setWriter_fs, hlocked] at hl
    rwa [Pc.pending_of_outside hl] at hoff
  · by_cases hq : q = p
    · rw [hq, hself, horder]
      exact h.order p
    · rw [hne q hq, hproj q hq]
      exact h.order q
  · by_cases hq : q = p
    · rw [hq, hself, hres]
      exact h.results p
    · rw [hne q hq]
      exact h.results q

theorem Inv.alone (hp : (s.writer p).pc.inside = true) (q : P)
    (hq : q ≠ p) : (s.writer q).pc.inside = false := by
  by_contra hin
  exact hq (h.excludes q p (by simpa using hin) hp)

theorem Inv.ilock {i n1 : ℕ} (hp : (s.writer p).pc = .begun i n1)
    (hl : (s.fs.icache k).locked = false) :
    ∃ fs, s.fs.ilock sb k = .ok fs ∧ Inv sb k ino s₀
      ({ s with fs := fs }.setWriter p { s.writer p with pc := .locked i n1 }) rounds := by
  have htype : (s.fs.dinode sb (s.fs.icache k).inum).type ≠ 0 := by
    rw [h.inum, h.type]
    decide
  obtain ⟨ip, hrun, hinum, href, hlocked⟩ : ∃ ip, s.fs.ilock sb k = .ok (s.fs.setInode k ip) ∧
      ip.inum = (s.fs.icache k).inum ∧ ip.ref = (s.fs.icache k).ref ∧ ip.locked = true := by
    rw [State.ilock, if_neg (Nat.not_lt_of_le h.ref), if_neg (by simp [hl])]
    by_cases hv : (s.fs.icache k).valid = true
    · rw [if_pos hv]
      exact ⟨_, rfl, rfl, rfl, rfl⟩
    · rw [if_neg hv, if_neg htype]
      exact ⟨_, rfl, rfl, rfl, rfl⟩
  have hself : (s.fs.setInode k ip).icache k = ip := update_self _ _ _
  have hcons : Consistent sb (s.fs.setInode k ip) := h.consistent.ilock.of_ok hrun
  have hloc := h.local_off p
  refine ⟨_, hrun, h.change ⟨hcons, ?_, ?_, h.type⟩ rfl rfl h.file (fun q _ ↦ ?_) ?_ ?_ (h.off_outside hl)
    (fun q _ ↦ rfl) ?_ ?_⟩
  · rw [hself, href]
    exact h.ref
  · rw [hself, hinum]
    exact h.inum
  · by_contra hin
    rw [h.locked.mpr ⟨q, by simpa using hin⟩] at hl
    cases hl
  · rw [hself, hlocked]
    rfl
  · simpa only [Writer.Local, hp] using hloc
  · simp only [Writer.rest, hp]
  · simp only [Writer.results, hp]

theorem Inv.iunlock {i n1 : ℕ} {r : Option ℕ} (hp : (s.writer p).pc = .added i n1 r) :
    ∃ fs, s.fs.iunlock k = .ok fs ∧ Inv sb k ino s₀
      ({ s with fs := fs }.setWriter p { s.writer p with pc := .unlocked i n1 r }) rounds := by
  have hin : (s.writer p).pc.inside = true := by rw [hp, Pc.inside]
  have hl : (s.fs.icache k).locked = true := h.locked.mpr ⟨p, hin⟩
  have hrun : s.fs.iunlock k = .ok (s.fs.setInode k { s.fs.icache k with locked := false }) := by
    have hno : ¬ ((s.fs.icache k).locked = false ∨ (s.fs.icache k).ref < 1) := by
      have := h.ref
      simp [hl]
      omega
    rw [State.iunlock, if_neg hno]
  have hself : (s.fs.setInode k { s.fs.icache k with locked := false }).icache k =
      { s.fs.icache k with locked := false } := update_self _ _ _
  have hloc := h.local_off p
  have hoff : s.off = s₀.off + (bytes rounds).length := by
    simpa [hp, Pc.pending] using h.off_inside p hin
  refine ⟨_, hrun, h.change ⟨h.consistent.iunlock.of_ok hrun, ?_, ?_, h.type⟩ rfl rfl h.file (h.alone hin)
    ?_ ?_ hoff (fun q _ ↦ rfl) ?_ ?_⟩
  · rw [hself]
    exact h.ref
  · rw [hself]
    exact h.inum
  · rw [hself]
    rfl
  · simpa only [Writer.Local, hp] using hloc
  · simp only [Writer.rest, hp]
  · simp only [Writer.results, hp]

end

section Total

variable [Fintype P]

def total (s : Shared P) : ℕ := ∑ p, ((s.writer p).todo.map List.length).sum

theorem length_bytes : (bytes rounds).length = ∑ p, ((proj p rounds).map List.length).sum := by
  rw [sum_proj, bytes, List.length_flatten, List.map_map]
  rfl

omit [Fintype P] in
theorem Inv.sums (h : Inv sb k ino s₀ s rounds) (p : P) :
    ((proj p rounds).map List.length).sum + ((s.writer p).rest.map List.length).sum =
      ((s₀.writer p).todo.map List.length).sum := by
  rw [← sum_chunks (s₀.writer p).todo, ← h.order p, List.map_append, List.sum_append]

theorem Inv.room (h : Inv sb k ino s₀ s rounds) (p : P) :
    (bytes rounds).length + ((s.writer p).rest.map List.length).sum ≤ s₀.total := by
  have hrest : ((s.writer p).rest.map List.length).sum ≤
      ∑ q, ((s.writer q).rest.map List.length).sum :=
    Finset.single_le_sum (f := fun q ↦ ((s.writer q).rest.map List.length).sum)
      (fun q _ ↦ Nat.zero_le _) (Finset.mem_univ p)
  calc (bytes rounds).length + ((s.writer p).rest.map List.length).sum
      ≤ ∑ q, ((proj q rounds).map List.length).sum + ∑ q, ((s.writer q).rest.map List.length).sum := by
        rw [length_bytes]
        exact Nat.add_le_add_left hrest _
    _ = s₀.total := by
        rw [← Finset.sum_add_distrib]
        exact Finset.sum_congr rfl (fun q _ ↦ h.sums q)

end Total

theorem Inv.advance {i n1 : ℕ} {r : Option ℕ} (h : Inv sb k ino s₀ s rounds)
    (hp : (s.writer p).pc = .written i n1 r) (hmax : s₀.off + (bytes rounds).length < 2 ^ 32) :
    Inv sb k ino s₀ ((s.advance r).setWriter p { s.writer p with pc := .added i n1 r }) rounds := by
  have hin : (s.writer p).pc.inside = true := by rw [hp, Pc.inside]
  have hl : (s.fs.icache k).locked = true := h.locked.mpr ⟨p, hin⟩
  have hloc := h.local_off p
  simp only [Writer.Local, hp] at hloc
  obtain ⟨rfl, hle⟩ := hloc
  have hoff : s.off + n1 = s₀.off + (bytes rounds).length := by
    simpa [hp, Pc.pending] using h.off_inside p hin
  have hnew : s.advance (some n1) = { s with off := s.off + n1 } := by
    rw [Shared.advance]
    split
    · rw [Nat.mod_eq_of_lt (by omega)]
    · rw [show n1 = 0 by omega, Nat.add_zero]
  rw [hnew]
  refine h.change ⟨h.consistent, h.ref, h.inum, h.type⟩ rfl rfl h.file (h.alone hin) hl ⟨rfl, hle⟩ hoff
    (fun q _ ↦ rfl) ?_ ?_
  · simp only [Writer.rest, hp]
  · simp only [Writer.results, hp]

theorem Inv.writei {i n1 off : ℕ} (h : Inv sb k ino s₀ s rounds) (h0 : s₀.off ≤ (s₀.file sb ino).length)
    (hp : (s.writer p).pc = .writing i n1 off)
    (hmax : s₀.off + (bytes rounds).length + n1 ≤ MAXFILE * BSIZE) :
    Ensures (fun x : Option ℕ × State ↦ Inv sb k ino s₀
        ({ s with fs := x.2 }.setWriter p { s.writer p with pc := .written i n1 x.1 })
        (rounds ++ [(p, ((s.writer p).src.drop i).take n1)]))
      (fun e ↦ e = .ballocOutOfBlocks)
      (s.fs.writei sb devsw k (((s.writer p).src.drop i).take n1) off) := by
  have hin : (s.writer p).pc.inside = true := by rw [hp, Pc.inside]
  have hl : (s.fs.icache k).locked = true := h.locked.mpr ⟨p, hin⟩
  obtain ⟨hr, hv⟩ := h.consistent.locked k hl
  have hcached := (h.consistent.cached k hr hv).1
  have hloc := h.local_off p
  simp only [Writer.Local, hp] at hloc
  obtain ⟨hi, hn1, rfl⟩ := hloc
  have hlen : (((s.writer p).src.drop i).take n1).length = n1 := by
    rw [List.length_take, List.length_drop]
    omega
  have hoff : s.off = s₀.off + (bytes rounds).length := by
    simpa [hp, Pc.pending] using h.off_inside p hin
  have hfile : contents s.fs.cache (s.fs.icache k).toDinode = s.file sb ino := by
    rw [Shared.file, State.files, hcached, h.inum]
  have hsize : s.off ≤ (s.fs.icache k).size := by
    have hsz := congrArg List.length (hfile.trans h.file)
    rw [length_contents, overwrite, List.length_append, List.length_append, List.length_take,
      Nat.min_eq_left h0] at hsz
    omega
  have htype : (s.fs.icache k).type ≠ T_DEV := by
    rw [hcached, h.inum, h.type]
    decide
  have hcons : Ensures (fun x ↦ Consistent sb x.2) (fun e ↦ e = .ballocOutOfBlocks)
      (s.fs.writei sb devsw k (((s.writer p).src.drop i).take n1) s.off) := by
    apply h.consistent.writei hl
    have hlim : MAXFILE * BSIZE < 2 ^ 32 := by decide
    omega
  refine ((hcons.and (h.consistent.toWellFormed.writei_ensures hr hv htype hsize
    (by rw [hlen, hoff]; exact hmax))).weaken (fun e he ↦ he.1)).mono ?_
  rintro x ⟨hcons, hret, w⟩
  have hsame := w.sameInodes h.consistent.toWellFormed hr hv
  obtain ⟨hinum, href, hvalid, -⟩ := hsame.slot k
  obtain ⟨size, addrs, hself⟩ := w.self
  have hlt := h.consistent.inum k hr
  have hino : (x.2.icache k).inum = ino := hinum.trans h.inum
  have hnew := (hcons.cached k (href ▸ hr) (hvalid ▸ hv)).1
  rw [hino] at hnew
  have hbytes : bytes (rounds ++ [(p, ((s.writer p).src.drop i).take n1)]) =
      bytes rounds ++ ((s.writer p).src.drop i).take n1 := by simp [bytes]
  rw [hret, hlen]
  refine h.change ⟨hcons, ?_, hino, ?_⟩ rfl rfl ?_ (h.alone hin) ?_ ?_ ?_
    (fun q hq ↦ proj_concat_ne (Ne.symm hq)) ?_ ?_
  · rw [href]
    exact hr
  · rw [hsame.type ino (h.inum ▸ hlt)]
    exact h.type
  · rw [Shared.file, State.files, ← hnew, w.contents, hfile, h.file, hoff,
      overwrite_overwrite h0, hbytes]
  · rw [hself]
    exact hl
  · refine ⟨rfl, ?_⟩
    dsimp only
    omega
  · rw [hbytes, List.length_append, hlen, ← Nat.add_assoc, ← hoff]
    rfl
  · simp only [Writer.rest, hp]
    rw [proj_concat_self, chunks_drop hi hn1]
    simp
  · simp only [Writer.results, hp]

theorem liftFs_ensures {R : Type} {x : Except Panic R} {post : R → Prop} {err : Panic → Prop}
    {err' : WriteError → Prop} (h : Ensures post err x) (he : ∀ e, err e → err' (.fs e)) :
    Ensures post err' (liftFs x) := by
  cases x with
  | ok r => exact h
  | error e => exact he e h

theorem Inv.leave {i : ℕ} (h : Inv sb k ino s₀ s rounds) (hp : (s.writer p).pc = .loop i)
    (hi : i = (s.writer p).src.length) : Inv sb k ino s₀ (s.leave p i) rounds := by
  rw [Shared.leave, if_pos hi]
  apply h.setWriter
  · rw [hp]
    rfl
  · rw [hp]
    rfl
  · simp only [Writer.rest, hp]
    rw [List.drop_of_length_le (Nat.le_of_eq hi.symm), chunks_nil, List.nil_append]
  · simp only [Writer.results, hp]
    rw [List.append_assoc, List.singleton_append]
  · trivial

section Runs

variable [Fintype P]

theorem Inv.step (h : Inv sb k ino s₀ s rounds) (h0 : s₀.off ≤ (s₀.file sb ino).length)
    (hmax : s₀.off + s₀.total ≤ MAXFILE * BSIZE) (p : P) :
    Ensures (fun s' ↦ ∃ rounds', Inv sb k ino s₀ s' rounds') (fun e ↦ e = .fs .ballocOutOfBlocks)
      (s.step sb devsw k p) := by
  have hlim : MAXFILE * BSIZE < 2 ^ 32 := by decide
  have hroom := h.room p
  have hloc := h.local_off p
  unfold Shared.step
  dsimp only
  cases hp : (s.writer p).pc with
  | idle =>
    cases ht : (s.writer p).todo with
    | nil => exact ⟨rounds, h⟩
    | cons src todo =>
      simp only [h.writable]
      refine ⟨rounds, h.setWriter ?_ ?_ ?_ ?_ ?_⟩
      · rw [hp]
        rfl
      · rw [hp]
        rfl
      · simp only [Writer.rest, hp, ht, List.drop_zero, List.flatMap_cons]
      · simp only [Writer.results, hp, ht, List.map_cons]
      · exact Nat.zero_le _
  | loop i =>
    simp only [Writer.Local, hp] at hloc
    by_cases hi : i < (s.writer p).src.length
    · simp only [if_pos hi]
      refine ⟨rounds, h.setWriter ?_ ?_ ?_ ?_ ?_⟩
      · rw [hp]
        rfl
      · rw [hp]
        rfl
      · simp only [Writer.rest, hp]
      · simp only [Writer.results, hp]
      · refine ⟨hi, ?_⟩
        dsimp only
        split <;> omega
    · simp only [if_neg hi]
      exact ⟨rounds, h.leave hp (by omega)⟩
  | begun i n1 =>
    by_cases hl : (s.fs.icache k).locked = true
    · simp only [if_pos hl]
      exact ⟨rounds, h⟩
    · obtain ⟨fs, hrun, hinv⟩ := h.ilock hp (by simpa using hl)
      simp only [if_neg hl, hrun]
      exact ⟨rounds, hinv⟩
  | locked i n1 =>
    simp only [Writer.Local, hp] at hloc
    refine ⟨rounds, h.setWriter ?_ ?_ ?_ ?_ ?_⟩
    · rw [hp]
      rfl
    · rw [hp]
      rfl
    · simp only [Writer.rest, hp]
    · simp only [Writer.results, hp]
    · exact ⟨hloc.1, hloc.2, rfl⟩
  | writing i n1 off =>
    simp only [Writer.Local, hp] at hloc
    have hn1 : n1 ≤ ((s.writer p).rest.map List.length).sum := by
      simp only [Writer.rest, hp]
      rw [chunks_drop hloc.1 hloc.2.1]
      simp only [List.cons_append, List.map_cons, List.sum_cons, List.length_take, List.length_drop]
      omega
    refine (liftFs_ensures (h.writei h0 hp (by omega)) (fun e he ↦ by rw [he])).bind (fun x hx ↦ ?_)
    exact ⟨_, hx⟩
  | written i n1 r =>
    refine ⟨rounds, h.advance hp ?_⟩
    omega
  | added i n1 r =>
    obtain ⟨fs, hrun, hinv⟩ := h.iunlock hp
    simp only [hrun]
    exact ⟨rounds, hinv⟩
  | unlocked i n1 r =>
    simp only [Writer.Local, hp] at hloc
    obtain ⟨rfl, hle⟩ := hloc
    simp only [ne_eq, not_true_eq_false, if_false]
    refine ⟨rounds, h.setWriter ?_ ?_ ?_ ?_ ?_⟩
    · rw [hp]
      rfl
    · rw [hp]
      rfl
    · simp only [Writer.rest, hp]
    · simp only [Writer.results, hp]
    · exact hle

structure Ready (sb : Superblock) (k : Fin NINODE) (ino : ℕ) (s : Shared P) : Prop
    extends Regular sb k ino s where
  unlocked : (s.fs.icache k).locked = false
  writable : s.writable = true
  off_le : s.off ≤ (s.file sb ino).length
  idle : ∀ p, (s.writer p).pc = .idle ∧ (s.writer p).returned = []

omit [Fintype P] in
theorem Ready.inv (h : s.Ready sb k ino) : Inv sb k ino s s [] := by
  have hout (p : P) : (s.writer p).pc.inside = false := by
    rw [(h.idle p).1]
    rfl
  have hfile : s.file sb ino = overwrite (s.file sb ino) s.off (bytes ([] : List (P × List UInt8))) := by
    simp [overwrite, bytes]
  refine ⟨h.toRegular, h.writable, hfile, fun p ↦ ?_, fun p q hp _ ↦ ?_, ?_, fun p hp ↦ ?_,
    fun _ ↦ rfl, fun p ↦ ?_, fun p ↦ ?_⟩
  · simp only [Writer.Local, (h.idle p).1]
  · rw [hout p] at hp
    cases hp
  · simp [h.unlocked, hout]
  · rw [hout p] at hp
    cases hp
  · simp only [Writer.rest, (h.idle p).1, proj_nil, List.nil_append]
  · simp only [Writer.results, (h.idle p).1, (h.idle p).2, List.nil_append]

theorem Ready.exec (h : s.Ready sb k ino) (hmax : s.off + s.total ≤ MAXFILE * BSIZE) (sched : List P) :
    Ensures (fun s' ↦ ∃ rounds, Inv sb k ino s s' rounds) (fun e ↦ e = .fs .ballocOutOfBlocks)
      (exec (Shared.step sb devsw k) sched s) :=
  Ensures.exec_prefix (fun _ s' ↦ ∃ rounds, Inv sb k ino s s' rounds)
    (fun _ p _ _ _ ⟨_, hinv⟩ ↦ hinv.step h.off_le hmax p) ⟨[], h.inv⟩

def Finished (s : Shared P) : Prop := ∀ p, (s.writer p).pc = .idle ∧ (s.writer p).todo = []

instance decidableFinished (s : Shared P) : Decidable s.Finished :=
  inferInstanceAs (Decidable (∀ _, _ ∧ _))

theorem Inv.finished (h : Inv sb k ino s₀ s rounds) (hfin : s.Finished) :
    (∀ p, proj p rounds = (s₀.writer p).todo.flatMap chunks) ∧
      (∀ p, (s.writer p).returned = (s₀.writer p).todo.map (fun src ↦ some src.length)) ∧
      (bytes rounds).length = s₀.total ∧ s.off = s₀.off + s₀.total := by
  have hrest (p : P) : (s.writer p).rest = [] := by
    simp only [Writer.rest, (hfin p).1, (hfin p).2, List.flatMap_nil]
  have hlen : (bytes rounds).length = s₀.total := by
    rw [length_bytes]
    refine Finset.sum_congr rfl (fun p _ ↦ ?_)
    have := h.sums p
    rwa [hrest p, List.map_nil, List.sum_nil, Nat.add_zero] at this
  refine ⟨fun p ↦ ?_, fun p ↦ ?_, hlen, ?_⟩
  · rw [← h.order p, hrest p, List.append_nil]
  · rw [← h.results p]
    simp only [Writer.results, (hfin p).1, (hfin p).2, List.map_nil, List.append_nil]
  · rw [← hlen]
    apply h.off_outside
    by_contra hl
    obtain ⟨p, hp⟩ := h.locked.mp (by simpa using hl)
    rw [(hfin p).1] at hp
    cases hp

/-- When all calls are over, the file has from the old offset on the pieces of all of them, each
once and unbroken, those of a process in its order, and behind them what was there before. -/
theorem shared_writes_in_order {P : Type} [DecidableEq P] [Fintype P] {sb : Superblock}
    {devsw : Devsw} {k : Fin NINODE} {ino : ℕ} {s : Shared P} (h : s.Ready sb k ino)
    (hmax : s.off + s.total ≤ MAXFILE * BSIZE) (sched : List P) :
    Ensures (fun s' ↦ s'.Finished → ∃ rounds : List (P × List UInt8),
        (∀ p, proj p rounds = (s.writer p).todo.flatMap chunks) ∧
        (s'.file sb ino).take s.off = (s.file sb ino).take s.off ∧
        (s'.file sb ino).drop s.off = bytes rounds ++ (s.file sb ino).drop (s.off + s.total) ∧
        s'.off = s.off + s.total ∧
        ∀ p, (s'.writer p).returned = (s.writer p).todo.map (fun src ↦ some src.length))
      (fun e ↦ e = .fs .ballocOutOfBlocks) (Lib.Execution.exec (Shared.step sb devsw k) sched s) := by
  refine (h.exec hmax sched).mono (fun s' ⟨rounds, hinv⟩ hfin ↦ ?_)
  obtain ⟨horder, hret, hlen, hoff⟩ := hinv.finished hfin
  have htake : ((s.file sb ino).take s.off).length = s.off :=
    List.length_take_of_le h.off_le
  refine ⟨rounds, horder, ?_, ?_, hoff, hret⟩
  · rw [hinv.file, overwrite, List.append_assoc, List.take_left' htake]
  · rw [hinv.file, overwrite, List.append_assoc, List.drop_left' htake, hlen]

end Runs

def smallBytes : Except Panic State := do
  let (_, s) ← smallFile.writei smallDisk noDevice ⟨0, NINODE_pos⟩ [9, 9, 9] 0
  s.iunlock ⟨0, NINODE_pos⟩

theorem smallBytes_ensures :
    Ensures (Consistent smallDisk) (fun e ↦ e = .ballocOutOfBlocks ∨ e = .iunlock) smallBytes := by
  refine (((smallInode_consistent (.inl rfl)).writei rfl (by decide)).weaken (fun e he ↦ .inl he)).bind
    (fun x hx ↦ hx.iunlock.weaken (fun e he ↦ .inr he))

def twoWriters (fs : State) : Shared (Fin 2) :=
  ⟨fs, 0, true, fun p ↦ ⟨.idle, [], [[p.val.toUInt8]], []⟩⟩

theorem twoWriters_total (fs : State) : (twoWriters fs).total = 2 := rfl

theorem twoWriters_small (fs : State) :
    (twoWriters fs).off + (twoWriters fs).total ≤ MAXFILE * BSIZE := by
  rw [twoWriters_total]
  exact show 0 + 2 ≤ MAXFILE * BSIZE by decide

def twoWritersRun : List (Fin 2) :=
  let p : Fin 2 := ⟨0, Nat.zero_lt_two⟩
  let q : Fin 2 := ⟨1, Nat.one_lt_two⟩
  [p, p, p, q, q, q, p, p, p, p, p, p, q, q, q, q, q, q, q, q, q]

theorem twoWriters_run : ∃ fs, (twoWriters fs).Ready smallDisk ⟨0, NINODE_pos⟩ 1 ∧
    ∃ s, exec (Shared.step smallDisk noDevice ⟨0, NINODE_pos⟩) twoWritersRun (twoWriters fs) = .ok s ∧
      s.Finished ∧ s.file smallDisk 1 = [0, 1, 9] := by
  have hrun : Ensures (fun fs ↦ (0 < (fs.icache ⟨0, NINODE_pos⟩).ref ∧
        (fs.icache ⟨0, NINODE_pos⟩).inum = 1 ∧ (fs.dinode smallDisk 1).type = T_FILE ∧
        (fs.icache ⟨0, NINODE_pos⟩).locked = false) ∧
      Ensures (fun s ↦ s.Finished ∧ s.file smallDisk 1 = [0, 1, 9]) (fun _ ↦ False)
        (exec (Shared.step smallDisk noDevice ⟨0, NINODE_pos⟩) twoWritersRun (twoWriters fs)))
      (fun _ ↦ False) smallBytes := by
    decide +kernel
  obtain ⟨fs, hfs, ⟨href, hinum, htype, hunlocked⟩, hexec⟩ := hrun.exists_ok
  obtain ⟨s, hs, hfin, hfile⟩ := hexec.exists_ok
  refine ⟨fs, ⟨⟨smallBytes_ensures.of_ok hfs, href, hinum, htype⟩, hunlocked, rfl, Nat.zero_le _,
    fun _ ↦ ⟨rfl, rfl⟩⟩, s, hs, hfin, hfile⟩

theorem shared_writes_in_order_two : ∃ fs s, ∃ rounds : List (Fin 2 × List UInt8),
    (twoWriters fs).Ready smallDisk ⟨0, NINODE_pos⟩ 1 ∧
    exec (Shared.step smallDisk noDevice ⟨0, NINODE_pos⟩) twoWritersRun (twoWriters fs) = .ok s ∧
    (s.file smallDisk 1).drop 0 = bytes rounds ++ ((twoWriters fs).file smallDisk 1).drop 2 ∧
    s.off = 2 := by
  obtain ⟨fs, hready, s, hrun, hfin, -⟩ := twoWriters_run
  obtain ⟨rounds, -, -, hfile, hoff, -⟩ :=
    (shared_writes_in_order hready (twoWriters_small fs) twoWritersRun).of_ok hrun hfin
  exact ⟨fs, s, rounds, hready, hrun, hfile, hoff⟩

/-- A file that is longer than what is written keeps its end. -/
theorem shared_writes_keep_end : ∃ fs s, (twoWriters fs).Ready smallDisk ⟨0, NINODE_pos⟩ 1 ∧
    (twoWriters fs).off + (twoWriters fs).total ≤ MAXFILE * BSIZE ∧
    exec (Shared.step smallDisk noDevice ⟨0, NINODE_pos⟩) twoWritersRun (twoWriters fs) = .ok s ∧
    s.Finished ∧ ¬ ∃ rounds : List (Fin 2 × List UInt8),
      (∀ p, proj p rounds = ((twoWriters fs).writer p).todo.flatMap chunks) ∧
      (s.file smallDisk 1).drop (twoWriters fs).off = bytes rounds := by
  obtain ⟨fs, hready, s, hrun, hfin, hfile⟩ := twoWriters_run
  refine ⟨fs, s, hready, twoWriters_small fs, hrun, hfin, ?_⟩
  rintro ⟨rounds, horder, hbytes⟩
  have hlen : (bytes rounds).length = (twoWriters fs).total := by
    rw [length_bytes]
    refine Finset.sum_congr rfl (fun p _ ↦ ?_)
    rw [horder p, sum_chunks]
  rw [← hbytes, hfile, twoWriters_total] at hlen
  exact absurd hlen (show (3 : ℕ) ≠ 2 by decide)

end Shared

end Xv6Bfs.Files

import Xv6Bfs.Fs.Dirents
import Xv6Bfs.Fs.Frames

namespace Xv6Bfs.Fs

open Lib.Bytes Lib.Execution Lib.SlotMap Disk State Function

/-- What a process does with a directory while it holds its lock: the calls of `dirlookup` and
`dirlink`, and how `sys_unlink` finds an entry and writes zeros over it. Other calls of functions of
`fs.c` come in between. -/
inductive DirOp
  | lookup (k : Fin NINODE) (name : List UInt8)
  | link (k : Fin NINODE) (name : List UInt8) (inum : ℕ)
  | unlink (k : Fin NINODE) (name : List UInt8)
  | other (op : Op)

/-- The inode that is found, or the result of the call. -/
inductive DirRet
  | inum (i : Option ℕ)
  | code (r : ℤ)
  deriving DecidableEq, Repr

def State.bindings (sb : Superblock) (d : ℕ) (s : State) : List UInt8 → Option ℕ :=
  lookup binding (dirents (s.files sb d))

/-- The inode `d` is a directory with whole entries. No two of them have the same name. -/
structure IsDirectory (sb : Superblock) (d : ℕ) (s : State) : Prop where
  lt : d < sb.ninodes
  type : (s.dinode sb d).type = T_DIR
  size : DIRENT ∣ (s.files sb d).length
  distinct : Distinct binding (dirents (s.files sb d))
  named : ∀ de ∈ dirents (s.files sb d), deInum de < sb.ninodes

namespace DirOp

variable (sb : Superblock) (devsw : Devsw) (d : ℕ)

def Holds (k : Fin NINODE) (s : State) : Prop := (s.icache k).locked = true ∧ (s.icache k).inum = d

instance (k : Fin NINODE) (s : State) : Decidable (Holds d k s) := inferInstanceAs (Decidable (_ ∧ _))

def run (op : DirOp) (s : State) : Except Panic (Option DirRet × State) :=
  match op with
  | lookup k name =>
    if Holds d k s then do
      let (r, s) ← s.dirlookup sb devsw k name
      .ok (some (.inum (r.map fun x ↦ (s.icache x.1).inum)), s)
    else .error .disabled
  | link k name inum =>
    if Holds d k s then do
      let (r, s) ← s.dirlink sb devsw k name inum
      .ok (some (.code r), s)
    else .error .disabled
  | unlink k name =>
    if Holds d k s then do
      let (r, s) ← s.dirlookup sb devsw k name
      match r with
      | none => .ok (some (.code (-1)), s)
      | some (_, off) => do
        let (w, s) ← s.writei sb devsw k (List.replicate DIRENT 0) off
        if w ≠ some DIRENT then .error .unlinkWritei else .ok (some (.code 0), s)
    else .error .disabled
  | other op => do
    let s ← op.step sb devsw s
    .ok (none, s)

def step (op : DirOp) (t : State × List DirRet) : Except Panic (State × List DirRet) := do
  let (r, s) ← op.run sb devsw d t.1
  .ok (s, r.toList ++ t.2)

def spec (op : DirOp) (m : List UInt8 → Option ℕ) : Option DirRet × (List UInt8 → Option ℕ) :=
  match op with
  | lookup _ name => (some (.inum (m (key name))), m)
  | link _ name inum =>
    if (m (key name)).isSome then (some (.code (-1)), m)
    else (some (.code 0), update m (key name) (some inum))
  | unlink _ name =>
    if (m (key name)).isSome then (some (.code 0), update m (key name) none)
    else (some (.code (-1)), m)
  | other _ => (none, m)

def specStep (t : (List UInt8 → Option ℕ) × List DirRet) (op : DirOp) :
    (List UInt8 → Option ℕ) × List DirRet :=
  ((op.spec t.1).2, (op.spec t.1).1.toList ++ t.2)

/-- A new name needs an inode and room in the directory. A name that the directory has is not one for
the directory itself. The other calls leave the directory to those who hold its lock. -/
def Allowed (op : DirOp) (s : State) : Prop :=
  match op with
  | link _ name inum => 0 < inum ∧ inum < sb.ninodes ∧ inum < 2 ^ 16 ∧
      ((∃ de ∈ dirents (s.files sb d), binding de = none) ∨
        (s.files sb d).length + DIRENT ≤ MAXFILE * BSIZE) ∧
      s.bindings sb d (key name) ≠ some d
  | other op => op.Named sb s ∧ op.Spares d s
  | _ => True

/-- How an operation on the directory may fail: there is no room in the inode cache or on the disk, or
another process holds the lock of the inode that has the name already. -/
def Fails (op : DirOp) (s : State) (e : Panic) : Prop :=
  match op with
  | lookup k _ => ¬ Holds d k s ∨ (e = .igetNoInodes ∧ ∀ k, 0 < (s.icache k).ref)
  | unlink k _ => ¬ Holds d k s ∨ (e = .igetNoInodes ∧ ∀ k, 0 < (s.icache k).ref)
  | link k name _ => ¬ Holds d k s ∨ (e = .igetNoInodes ∧ ∀ k, 0 < (s.icache k).ref) ∨
      (e = .ballocOutOfBlocks ∧ s.freeBlocks sb < 2) ∨
      (e = .sleeps ∧ ∃ k', s.bindings sb d (key name) = some (s.icache k').inum ∧
        (s.icache k').inum ≠ d ∧ (s.icache k').locked = true)
  | other _ => True

def Changes (op : DirOp) (l l' : List (List UInt8)) : Prop :=
  match op with
  | link _ name inum => l' = l ∨ ∃ e, e ≤ l.length ∧ (∀ de, l[e]? = some de → binding de = none) ∧
      (e = l.length → ∀ de ∈ l, binding de ≠ none) ∧
      l' = l.take e ++ dirent inum name :: l.drop (e + 1)
  | unlink _ name => l' = l ∨ ∃ e de i, l[e]? = some de ∧ binding de = some (key name, i) ∧
      l' = l.take e ++ List.replicate DIRENT 0 :: l.drop (e + 1)
  | _ => l' = l

end DirOp

variable {sb : Superblock} {devsw : Devsw} {s s' : State} {k : Fin NINODE} {d e inum : ℕ}
  {name src : List UInt8}

namespace IsDirectory

theorem slot (h : Consistent sb s) (hd : IsDirectory sb d s) (hk : DirOp.Holds d k s) :
    s.files sb d = contents s.cache (s.icache k).toDinode ∧ (s.icache k).type = T_DIR ∧
      DIRENT ∣ (s.icache k).size ∧ (dirents (s.files sb d)).length = (s.icache k).size / DIRENT := by
  obtain ⟨hr, hv⟩ := h.locked k hk.1
  have hcached := (h.cached k hr hv).1
  have hfile : s.files sb d = contents s.cache (s.icache k).toDinode := by
    rw [State.files, ← hk.2, h.contents_eq hr hv]
  have htype : (s.icache k).type = T_DIR := by
    rw [hcached, hk.2, hd.type]
  have hsize := hd.size
  rw [hfile, length_contents] at hsize
  refine ⟨hfile, htype, hsize, ?_⟩
  rw [length_dirents, hfile, length_contents]

theorem of_keeps (hd : IsDirectory sb d s) (hk : Keeps sb d s s') :
    IsDirectory sb d s' ∧ s'.bindings sb d = s.bindings sb d := by
  refine ⟨⟨hd.lt, hk.type.trans hd.type, ?_, ?_, ?_⟩, ?_⟩
  · rw [hk.files]
    exact hd.size
  · rw [hk.files]
    exact hd.distinct
  · rw [hk.files]
    exact hd.named
  · rw [State.bindings, hk.files, State.bindings]

end IsDirectory

def Found (sb : Superblock) (d : ℕ) (name : List UInt8) (s : State)
    (r : Option (Fin NINODE × ℕ) × State) : Prop :=
  (r = (none, s) ∧ s.bindings sb d (key name) = none) ∨
    ∃ k' e de i, r.1 = some (k', DIRENT * e) ∧ (dirents (s.files sb d))[e]? = some de ∧
      binding de = some (key name, i) ∧ i < sb.ninodes ∧ Gets i s k' r.2

theorem IsDirectory.found (h : Consistent sb s) (hd : IsDirectory sb d s) (hk : DirOp.Holds d k s) :
    Ensures (Found sb d name s) (fun e ↦ e = .igetNoInodes ∧ ∀ k, 0 < (s.icache k).ref)
      (s.dirlookup sb devsw k name) := by
  obtain ⟨hfile, htype, hsize, hlen⟩ := hd.slot h hk
  have hentry : ∀ e, e < (s.icache k).size / DIRENT →
      (dirents (s.files sb d))[e]? = some (s.entry k e) := fun e he ↦ hfile ▸ entry_eq he
  rw [h.dirlookup_eq hk.1 htype hsize]
  split
  · rename_i hnone
    refine .inl ⟨rfl, lookup_eq_none.mpr fun de hde x hx hkey ↦ ?_⟩
    obtain ⟨e, he, hget⟩ := List.mem_iff_getElem.mp hde
    rw [hlen] at he
    have hde : s.entry k e = de := by
      have := hentry e he
      rw [List.getElem?_eq_getElem (by rwa [hlen]), hget] at this
      exact (Option.some.inj this).symm
    have hno := List.find?_eq_none.mp hnone e (List.mem_range.mpr he)
    unfold binding at hx
    split at hx
    · cases hx
    · cases hx
      simp_all
  · rename_i e hsome
    have hfound := List.find?_some hsome
    have he := List.mem_range.mp (List.mem_of_find?_eq_some hsome)
    simp only [ne_eq, decide_eq_true_eq] at hfound
    apply iget_ensures.bind
    intro r hg
    refine .inr ⟨r.1, e, s.entry k e, deInum (s.entry k e), rfl, hentry e he, ?_, ?_, hg⟩
    · rw [binding, if_neg hfound.1, hfound.2]
    · exact hd.named _ (List.mem_of_getElem? (hentry e he))

theorem IsDirectory.bindings_of_entry {de : List UInt8} {i : ℕ} (hd : IsDirectory sb d s)
    (he : (dirents (s.files sb d))[e]? = some de) (hb : binding de = some (key name, i)) :
    s.bindings sb d (key name) = some i :=
  hd.distinct.lookup_of_mem (List.mem_of_getElem? he) hb

theorem length_overwrite (l : List UInt8) {off : ℕ} (hoff : off ≤ l.length) :
    (overwrite l off src).length = max l.length (off + src.length) := by
  simp only [overwrite, List.length_append, List.length_take, List.length_drop]
  omega

structure WritesEntry (sb : Superblock) (d e : ℕ) (src : List UInt8) (s s' : State) : Prop where
  consistent : Consistent sb s'
  others : ∀ j < sb.ninodes, j ≠ d → s'.dinode sb j = s.dinode sb j ∧
    ((s.dinode sb j).type ≠ 0 → s'.files sb j = s.files sb j)
  self : ∃ size addrs, s'.dinode sb d = { s.dinode sb d with size := size, addrs := addrs }
  size : DIRENT ∣ (s'.files sb d).length
  dirents : dirents (s'.files sb d) =
    (dirents (s.files sb d)).take e ++ src :: (dirents (s.files sb d)).drop (e + 1)

theorem Written.entry (h : Consistent sb s) (hd : IsDirectory sb d s) (hk : DirOp.Holds d k s)
    (hsrc : src.length = DIRENT) (he : e ≤ (dirents (s.files sb d)).length)
    (w : Written sb k src (DIRENT * e) s s') : WritesEntry sb d e src s s' := by
  obtain ⟨hr, hv⟩ := h.locked k hk.1
  obtain ⟨hfile, -⟩ := hd.slot h hk
  obtain ⟨size, addrs, hself⟩ := w.self
  have hr' : 0 < (s'.icache k).ref := by
    rw [hself]
    exact hr
  have hv' : (s'.icache k).valid = true := by
    rw [hself]
    exact hv
  have hinum : (s'.icache k).inum = d := by
    rw [hself]
    exact hk.2
  have hfiles : s'.files sb d = overwrite (s.files sb d) (DIRENT * e) src := by
    rw [hfile, ← w.contents, State.files, ← hinum, w.wellFormed.contents_eq hr' hv']
  have hlen := hd.size
  rw [length_dirents] at he
  refine ⟨h.of_slot w.wellFormed w.others fun _ ↦ ⟨hr', hv'⟩, fun j hj hne ↦ ?_, ⟨size, addrs, ?_⟩, ?_, ?_⟩
  · rw [← hk.2] at hne
    exact ⟨w.dinode j hj hne, w.foreign j hj hne⟩
  · rw [← hinum, ← (w.wellFormed.cached k hr' hv').1, hself, ← (h.cached k hr hv).1]
  · obtain ⟨n, hn⟩ := hlen
    have hle : DIRENT * e ≤ (s.files sb d).length :=
      (Nat.mul_le_mul_left _ he).trans (Nat.mul_div_le _ _)
    rw [hfiles, length_overwrite _ hle, hsrc, hn, ← Nat.mul_succ, Nat.mul_max_mul_left]
    exact Dvd.intro _ rfl
  · rw [hfiles]
    exact dirents_overwrite hlen hsrc he

theorem WritesEntry.type (w : WritesEntry sb d e src s s') (hd : IsDirectory sb d s) :
    (s'.dinode sb d).type = T_DIR := by
  obtain ⟨_, _, hself⟩ := w.self
  rw [hself]
  exact hd.type

theorem dirents_at {l : List (List UInt8)} {de : List UInt8} (h : l[e]? = some de) :
    l = l.take e ++ de :: l.drop (e + 1) := by
  obtain ⟨he, hget⟩ := List.getElem?_eq_some_iff.mp h
  rw [← hget, List.getElem_cons_drop, List.take_append_drop]

theorem WritesEntry.named (w : WritesEntry sb d e src s s') (hd : IsDirectory sb d s)
    (hsrc : deInum src < sb.ninodes) : ∀ de ∈ Fs.dirents (s'.files sb d), deInum de < sb.ninodes := by
  intro de hde
  rw [w.dirents] at hde
  rcases List.mem_append.mp hde with hde | hde
  · exact hd.named de (List.mem_of_mem_take hde)
  rcases List.mem_cons.mp hde with rfl | hde
  · exact hsrc
  · exact hd.named de (List.mem_of_mem_drop hde)

theorem WritesEntry.link (w : WritesEntry sb d e (dirent inum name) s s') (hd : IsDirectory sb d s)
    (he : e ≤ (Fs.dirents (s.files sb d)).length)
    (hfree : ∀ de, (Fs.dirents (s.files sb d))[e]? = some de → binding de = none)
    (hname : s.bindings sb d (key name) = none) (h0 : 0 < inum) (hi : inum < sb.ninodes)
    (h16 : inum < 2 ^ 16) :
    IsDirectory sb d s' ∧ s'.bindings sb d = update (s.bindings sb d) (key name) (some inum) := by
  have hbinding : binding (dirent inum name) = some (key name, inum) := binding_dirent h0 h16
  have hnew : Distinct binding (Fs.dirents (s'.files sb d)) ∧ lookup binding (Fs.dirents (s'.files sb d)) =
      update (lookup binding (Fs.dirents (s.files sb d))) (key name) (some inum) := by
    rw [w.dirents]
    cases hde : (Fs.dirents (s.files sb d))[e]? with
    | some de =>
      have hsplit := dirents_at hde
      have hd' := hd.distinct
      rw [State.bindings, hsplit] at hname
      rw [hsplit] at hd'
      have := replace_hole hd' (hfree de hde) hbinding hname
      rwa [← hsplit] at this
    | none =>
      have hlen : (Fs.dirents (s.files sb d)).length ≤ e := List.getElem?_eq_none_iff.mp hde
      rw [List.take_of_length_le hlen, List.drop_eq_nil_of_le (by omega)]
      have hd' := hd.distinct
      rw [State.bindings] at hname
      rw [← List.append_nil (Fs.dirents (s.files sb d))] at hd' hname
      have hfill := hd'.fill hbinding hname
      refine ⟨hfill, ?_⟩
      have := hfill.lookup_insert hbinding
      rwa [List.append_nil] at this
  refine ⟨⟨hd.lt, w.type hd, w.size, hnew.1, w.named hd ?_⟩, hnew.2⟩
  rwa [deInum_dirent, Nat.mod_eq_of_lt h16]

theorem WritesEntry.unlink {de : List UInt8} {i : ℕ} (hd : IsDirectory sb d s)
    (w : WritesEntry sb d e (List.replicate DIRENT 0) s s')
    (hde : (Fs.dirents (s.files sb d))[e]? = some de) (hb : binding de = some (key name, i)) :
    IsDirectory sb d s' ∧ s'.bindings sb d = update (s.bindings sb d) (key name) none := by
  have hsplit := dirents_at hde
  have hd' := hd.distinct
  rw [hsplit] at hd'
  have hnew := clear_slot hd' hb binding_zeros
  rw [← hsplit, ← w.dirents] at hnew
  refine ⟨⟨hd.lt, w.type hd, w.size, hnew.1, w.named hd ?_⟩, hnew.2⟩
  exact (by decide : deInum (List.replicate DIRENT 0) = 0) ▸ (Nat.zero_le d).trans_lt hd.lt

theorem IsDirectory.writei (h : Consistent sb s) (hd : IsDirectory sb d s) (hk : DirOp.Holds d k s)
    (hsrc : src.length = DIRENT) (he : e ≤ (dirents (s.files sb d)).length)
    (hmax : e = (dirents (s.files sb d)).length → (s.files sb d).length + DIRENT ≤ MAXFILE * BSIZE) :
    Ensures (fun r ↦ r.1 = some DIRENT ∧ WritesEntry sb d e src s r.2)
      (fun err ↦ err = .ballocOutOfBlocks ∧ e = (dirents (s.files sb d)).length ∧ s.freeBlocks sb < 2)
      (s.writei sb devsw k src (DIRENT * e)) := by
  obtain ⟨hr, hv⟩ := h.locked k hk.1
  obtain ⟨hfile, htype, ⟨n, hn⟩, hlen⟩ := hd.slot h hk
  have hsize := h.size_le hr hv
  have hfiles : (s.files sb d).length = DIRENT * n := by rw [hfile, length_contents, hn]
  have hdirent : DIRENT = 16 := rfl
  have hlim : MAXFILE * BSIZE = 71680 := by decide
  rw [hn, Nat.mul_div_cancel_left _ (by decide)] at hlen
  rw [hlen] at he hmax ⊢
  have hle : DIRENT * e ≤ DIRENT * n := Nat.mul_le_mul_left _ he
  have hlt : e ≠ n → DIRENT * e + DIRENT ≤ DIRENT * n := fun hne ↦
    Nat.mul_le_mul_left DIRENT (Nat.lt_of_le_of_ne he hne)
  have hok : DIRENT * e + src.length ≤ MAXFILE * BSIZE := by
    by_cases hne : e = n
    · have := hmax hne
      omega
    · have := hlt hne
      omega
  refine ((h.toWellFormed.writei_ensures hr hv (by rw [htype]; decide) (by omega) hok).mono
    fun r ⟨hret, w⟩ ↦ ⟨hret.trans (congrArg some hsrc), w.entry h hd hk hsrc (by rw [hlen]; exact he)⟩).weaken
    fun err ⟨herr, hfull⟩ ↦ ⟨herr, ?_⟩
  have hend : e = n := by
    by_contra hne
    have := hlt hne
    rw [max_eq_left (blocksOf_mono (by omega))] at hfull
    omega
  refine ⟨hend, ?_⟩
  -- the entry needs one block, and perhaps the indirect block
  have hblocks : max (blocksOf (s.icache k).size) (blocksOf (DIRENT * e + src.length)) ≤
      blocksOf (s.icache k).size + 1 := by
    unfold blocksOf BSIZE
    omega
  have hmono := blocksFor_mono hblocks
  have htwo : blocksFor (blocksOf (s.icache k).size + 1) ≤ blocksFor (blocksOf (s.icache k).size) + 2 := by
    unfold blocksFor
    split <;> split <;> omega
  omega

theorem Gets.holds {i : ℕ} {k' : Fin NINODE} (h : Consistent sb s) (hk : DirOp.Holds d k s)
    (g : Gets i s k' s') : DirOp.Holds d k s' := by
  rcases eq_or_ne k k' with rfl | hne
  · rcases g.self with ⟨-, -, hself⟩ | ⟨-, hr, -⟩
    · rw [DirOp.Holds, hself]
      exact hk
    · have := (h.locked k hk.1).1
      omega
  · rw [DirOp.Holds, g.others k hne]
    exact hk

theorem Gets.iput {i : ℕ} (h : Consistent sb s) (hi : i < sb.ninodes) (g : Gets i s k s') :
    Ensures (fun s'' ↦ Consistent sb s'' ∧ s''.cache = s.cache)
      (fun err ↦ err = .sleeps ∧ (s.icache k).inum = i ∧ (s.icache k).locked = true) (s'.iput sb k) := by
  by_cases hl : (s'.icache k).locked = true
  · have hlock : (s.icache k).inum = i ∧ (s.icache k).locked = true := by
      rcases g.self with ⟨-, hi, hself⟩ | ⟨-, hr, hself⟩
      · rw [hself] at hl
        exact ⟨hi, hl⟩
      · rw [hself] at hl
        have := (h.locked k hl).1
        omega
    rw [State.iput, if_pos hl]
    exact ⟨rfl, hlock⟩
  · have hok := (h.gets hi g).iput g.ref_pos
    rw [State.iput, if_neg hl, if_neg g.not_last] at hok ⊢
    exact ⟨hok, g.cache⟩

namespace DirOp

structure Done (sb : Superblock) (d : ℕ) (op : DirOp) (s : State) (r : Option DirRet × State) : Prop where
  consistent : Consistent sb r.2
  directory : IsDirectory sb d r.2
  spec : (r.1, r.2.bindings sb d) = op.spec (s.bindings sb d)
  changes : op.Changes (dirents (s.files sb d)) (dirents (r.2.files sb d))

section

variable (h : Consistent sb s) (hd : IsDirectory sb d s) (hk : Holds d k s)
include h hd hk

theorem lookup_ensures :
    Ensures (Done sb d (lookup k name) s) (Fails sb d (lookup k name) s)
      (run sb devsw d (lookup k name) s) := by
  rw [run, if_pos hk]
  apply ((hd.found h hk).weaken fun e he ↦ .inr he).bind
  rintro ⟨r, s₁⟩ (⟨he, hnone⟩ | ⟨k', e, de, i, hr, hde, hb, hi, hg⟩)
  · cases he
    exact ⟨h, hd, by rw [spec, hnone]; rfl, rfl⟩
  · obtain rfl : r = some (k', DIRENT * e) := hr
    have hkeeps : Keeps sb d s s₁ := .of_cache hg.cache
    obtain ⟨hd₁, hsame⟩ := hd.of_keeps hkeeps
    refine ⟨h.gets hi hg, hd₁, ?_, by rw [hkeeps.files]; rfl⟩
    rw [spec, hd.bindings_of_entry hde hb, ← hsame, Option.map_some, hg.inum]

theorem unlink_ensures :
    Ensures (Done sb d (unlink k name) s) (Fails sb d (unlink k name) s)
      (run sb devsw d (unlink k name) s) := by
  rw [run, if_pos hk]
  apply ((hd.found h hk).weaken fun e he ↦ .inr he).bind
  rintro ⟨r, s₁⟩ (⟨he, hnone⟩ | ⟨k', e, de, i, hr, hde, hb, hi, hg⟩)
  · cases he
    exact ⟨h, hd, by rw [spec, hnone]; rfl, .inl rfl⟩
  · obtain rfl : r = some (k', DIRENT * e) := hr
    have hkeeps : Keeps sb d s s₁ := .of_cache hg.cache
    obtain ⟨hd₁, hsame⟩ := hd.of_keeps hkeeps
    have h₁ := h.gets hi hg
    have hlt : e < (dirents (s₁.files sb d)).length := by
      rw [hkeeps.files]
      exact (List.getElem?_eq_some_iff.mp hde).1
    rw [← hkeeps.files] at hde
    apply ((hd₁.writei h₁ (hg.holds h hk) (List.length_replicate ..) hlt.le
      fun hend ↦ absurd hend hlt.ne).weaken fun err herr ↦ absurd herr.2.1 hlt.ne).bind
    rintro ⟨w, s₂⟩ ⟨rfl, hw⟩
    obtain ⟨hd₂, hnew⟩ := hw.unlink hd₁ hde hb
    rw [hkeeps.files] at hde
    refine ⟨hw.consistent, hd₂, ?_, .inr ⟨e, de, i, hde, hb, by rw [hw.dirents, hkeeps.files]⟩⟩
    rw [spec, hd.bindings_of_entry hde hb, ← hsame]
    simp only [Option.isSome_some, if_true, hnew]

theorem hole_spec {o : Option ℕ}
    (ho : o = (List.range ((s.icache k).size / DIRENT)).find? fun e ↦ deInum (s.entry k e) = 0) :
    o.getD ((s.icache k).size / DIRENT) ≤ (dirents (s.files sb d)).length ∧
      (∀ de, (dirents (s.files sb d))[o.getD ((s.icache k).size / DIRENT)]? = some de →
        binding de = none) ∧
      (o.getD ((s.icache k).size / DIRENT) = (dirents (s.files sb d)).length →
        ∀ de ∈ dirents (s.files sb d), binding de ≠ none) := by
  obtain ⟨hfile, htype, hsize, hlen⟩ := hd.slot h hk
  have hentry : ∀ e, e < (s.icache k).size / DIRENT →
      (dirents (s.files sb d))[e]? = some (s.entry k e) := fun e he ↦ hfile ▸ entry_eq he
  rw [hlen]
  cases o with
  | none =>
    refine ⟨le_rfl, fun de hde ↦ ?_, fun _ de hde ↦ ?_⟩
    · have := (List.getElem?_eq_some_iff.mp hde).1
      simp only [Option.getD_none] at this
      omega
    · obtain ⟨e, he, hget⟩ := List.mem_iff_getElem.mp hde
      have he' : e < (s.icache k).size / DIRENT := by rwa [hlen] at he
      have hused := List.find?_eq_none.mp ho.symm e (List.mem_range.mpr he')
      have hsome := hentry e he'
      rw [List.getElem?_eq_getElem he, hget] at hsome
      rw [Option.some.inj hsome]
      simpa [binding] using hused
  | some e =>
    have he := List.mem_range.mp (List.mem_of_find?_eq_some ho.symm)
    have hfree : deInum (s.entry k e) = 0 := by simpa using List.find?_some ho.symm
    refine ⟨he.le, fun de hde ↦ ?_, fun hend ↦ ?_⟩
    · rw [Option.getD_some, hentry e he] at hde
      rw [← Option.some.inj hde, binding, if_pos hfree]
    · rw [Option.getD_some] at hend
      omega

theorem link_ensures (ha : Allowed sb d (link k name inum) s) :
    Ensures (Done sb d (link k name inum) s) (Fails sb d (link k name inum) s)
      (run sb devsw d (link k name inum) s) := by
  obtain ⟨h0, hi, h16, hroom, hself⟩ := ha
  have hlink : Ensures (fun r : ℤ × State ↦ Done sb d (link k name inum) s (some (.code r.1), r.2))
      (Fails sb d (link k name inum) s) (s.dirlink sb devsw k name inum) := by
    apply ((hd.found h hk).weaken fun e he ↦ .inr (.inl he)).bind
    rintro ⟨r, s₁⟩ (⟨he, hnone⟩ | ⟨k', e, de, i, hr, hde, hb, hi, hg⟩)
    · cases he
      obtain ⟨-, htype, hsize, -⟩ := hd.slot h hk
      obtain ⟨hle, hfree, hend⟩ := hole_spec h hd hk rfl
      dsimp only
      rw [offsets, rounds_eq hsize, h.dirlinkLoop_eq hk.1 htype _ fun e he ↦ List.mem_range.mp he,
        ok_bind, Option.getD_map]
      generalize Option.getD _ _ = e at hle hfree hend ⊢
      have hwrite := @IsDirectory.writei sb devsw s k d e _ h hd hk (length_dirent inum name) hle fun he ↦
        hroom.resolve_left fun hsome ↦ hsome.elim fun de hde ↦ hend he de hde.1 hde.2
      apply (hwrite.weaken fun err herr ↦ .inr (.inr (.inl ⟨herr.1, herr.2.2⟩))).bind
      rintro ⟨w, s₂⟩ ⟨rfl, hw⟩
      obtain ⟨hd₂, hnew⟩ := hw.link hd hle hfree hnone h0 hi h16
      refine ⟨hw.consistent, hd₂, ?_, .inr ⟨e, hle, hfree, hend, hw.dirents⟩⟩
      simp only [spec, hnone, Option.isSome_none, hnew]
      rfl
    · obtain rfl : r = some (k', DIRENT * e) := hr
      have hbound := hd.bindings_of_entry hde hb
      have hne : i ≠ d := by
        rintro rfl
        exact hself hbound
      refine ((hg.iput h hi).weaken ?_).bind ?_
      · intro err herr
        refine .inr (.inr (.inr ⟨herr.1, k', ?_, ?_, herr.2.2⟩))
        · rw [herr.2.1]
          exact hbound
        · rwa [herr.2.1]
      rintro s₂ ⟨h₂, hcache⟩
      have hkeeps : Keeps sb d s s₂ := .of_cache hcache
      obtain ⟨hd₂, hsame⟩ := hd.of_keeps hkeeps
      refine ⟨h₂, hd₂, ?_, .inl (by rw [hkeeps.files])⟩
      simp only [spec, hbound, Option.isSome_some, if_true, hsame]
  rw [run, if_pos hk]
  exact hlink.bind fun r hr ↦ hr

end

theorem run_ensures {op : DirOp} (h : Consistent sb s) (hd : IsDirectory sb d s)
    (ha : op.Allowed sb d s) :
    Ensures (Done sb d op s) (Fails sb d op s) (op.run sb devsw d s) := by
  cases op with
  | lookup k name =>
    by_cases hk : Holds d k s
    · exact lookup_ensures h hd hk
    · rw [run, if_neg hk]
      exact .inl hk
  | link k name inum =>
    by_cases hk : Holds d k s
    · exact link_ensures h hd hk ha
    · rw [run, if_neg hk]
      exact .inl hk
  | unlink k name =>
    by_cases hk : Holds d k s
    · exact unlink_ensures h hd hk
    · rw [run, if_neg hk]
      exact .inl hk
  | other op =>
    have hstep := (@Op.step_ensures sb devsw s op h ha.1).and
      (Op.step_keeps h ha.1 ha.2 hd.lt (by rw [hd.type]; decide))
    apply hstep.anyError.bind
    rintro s₁ ⟨h₁, hkeeps⟩
    obtain ⟨hd₁, hsame⟩ := hd.of_keeps hkeeps
    exact ⟨h₁, hd₁, by rw [spec, ← hsame], by rw [hkeeps.files]; rfl⟩

end DirOp

/-- A directory is a finite map from names to inodes, for all processes that use it under its lock, as
long as `dirlink` is not given a name for the directory itself. -/
theorem directory_is_finite_map (h : Consistent sb s) (hd : IsDirectory sb d s) {l : List DirOp}
    {t : State × List DirRet}
    (hl : Meets (DirOp.step sb devsw d) (fun op t ↦ op.Allowed sb d t.1) l (s, []))
    (he : exec (DirOp.step sb devsw d) l (s, []) = .ok t) :
    IsDirectory sb d t.1 ∧ (t.1.bindings sb d, t.2) = l.foldl DirOp.specStep (s.bindings sb d, []) ∧
      ∀ op : DirOp, op.Allowed sb d t.1 →
        Ensures (fun r ↦ (r.1, r.2.bindings sb d) = op.spec (t.1.bindings sb d) ∧
            op.Changes (dirents (t.1.files sb d)) (dirents (r.2.files sb d)))
          (op.Fails sb d t.1) (op.run sb devsw d t.1) := by
  suffices hinv : Consistent sb t.1 ∧ IsDirectory sb d t.1 ∧
      (t.1.bindings sb d, t.2) = l.foldl DirOp.specStep (s.bindings sb d, []) from
    ⟨hinv.2.1, hinv.2.2, fun op ha ↦ (DirOp.run_ensures hinv.1 hinv.2.1 ha).mono
      fun r hr ↦ ⟨hr.spec, hr.changes⟩⟩
  generalize ([] : List DirRet) = rets at hl he ⊢
  induction l generalizing s rets with
  | nil =>
    cases he
    exact ⟨h, hd, rfl⟩
  | cons op l ih =>
    obtain ⟨m, hm, he⟩ := bind_eq_ok.mp he
    obtain ⟨⟨r, s₁⟩, hrun, hret⟩ := bind_eq_ok.mp hm
    cases hret
    have hdone := (DirOp.run_ensures h hd hl.1).of_ok hrun
    have hspec := hdone.spec
    simp only at hspec
    rw [List.foldl_cons, DirOp.specStep, ← hspec]
    exact ih hdone.consistent hdone.directory _ (hl.2 _ hm) he

theorem smallInode_directory : IsDirectory smallDisk 1 (smallInode T_DIR) := by
  have hfiles : (smallInode T_DIR).files smallDisk 1 = [] := by
    rw [State.files, smallInode_dinode (by decide)]
    rfl
  refine ⟨by decide, by rw [smallInode_dinode (by decide)], ?_, ?_, ?_⟩
  · rw [hfiles]
    exact dvd_zero _
  · rw [hfiles]
    exact List.Pairwise.nil
  · rw [hfiles]
    simp [dirents]

def dirRun : List DirOp :=
  [.link ⟨0, NINODE_pos⟩ [97] 1, .lookup ⟨0, NINODE_pos⟩ [97], .unlink ⟨0, NINODE_pos⟩ [97],
    .lookup ⟨0, NINODE_pos⟩ [97]]

theorem directory_is_finite_map_small : ∃ t,
    exec (DirOp.step smallDisk noDevice 1) dirRun (smallInode T_DIR, []) = .ok t ∧
      t.2 = [.inum none, .code 0, .inum (some 1), .code 0] ∧ IsDirectory smallDisk 1 t.1 := by
  have hfirst : DirOp.Allowed smallDisk 1 (.link ⟨0, by decide⟩ [97] 1) (smallInode T_DIR) :=
    ⟨by decide, by decide, by decide, .inr (by decide +kernel), by decide +kernel⟩
  have hallowed : Meets (DirOp.step smallDisk noDevice 1)
      (fun op t ↦ op.Allowed smallDisk 1 t.1) dirRun (smallInode T_DIR, []) :=
    ⟨hfirst, fun _ _ ↦ ⟨trivial, fun _ _ ↦ ⟨trivial, fun _ _ ↦ ⟨trivial, fun _ _ ↦ trivial⟩⟩⟩⟩
  refine Ensures.exists_ok_and (·.2 = [.inum none, .code 0, .inum (some 1), .code 0])
    (by decide +kernel) ?_
  intro t he hrets
  obtain ⟨hdir, -⟩ :=
    directory_is_finite_map (smallInode_consistent (.inr rfl)) smallInode_directory hallowed he
  exact ⟨hrets, hdir⟩

/-- `link` with the new name `.`: the name is in the directory, but `dirlink` does not return. It waits
for the lock of the directory, which its caller holds. -/
theorem dirlink_dot_sleeps : Consistent smallDisk (smallInode T_DIR) ∧
    IsDirectory smallDisk 1 (smallInode T_DIR) ∧
    exec (DirOp.step smallDisk noDevice 1)
      [.link ⟨0, by decide⟩ [46] 1, .link ⟨0, by decide⟩ [46] 1] (smallInode T_DIR, []) =
      .error .sleeps := by
  have hrun : Ensures (fun _ ↦ False) (· = Panic.sleeps)
      (exec (DirOp.step smallDisk noDevice 1)
        [.link ⟨0, by decide⟩ [46] 1, .link ⟨0, by decide⟩ [46] 1] (smallInode T_DIR, [])) := by
    decide +kernel
  obtain ⟨e, he, rfl⟩ := hrun.exists_error
  exact ⟨smallInode_consistent (.inr rfl), smallInode_directory, he⟩

end Xv6Bfs.Fs

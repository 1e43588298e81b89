import Xv6Bfs.Files.SharedOffset
import Xv6Bfs.Fs.DirectoryMap
import Xv6Bfs.Fs.LogUse
import Xv6Bfs.Fs.Slots

namespace Xv6Bfs.Files

open Lib.Execution Fs Disk State Shared

/-- A `struct file` of type `FD_INODE`. -/
structure OpenFile where
  writable : Bool
  off : ℕ
  deriving DecidableEq, Repr

section

variable (sb : Superblock) (devsw : Devsw) (k : Fin NINODE)

/-- A round of the loop of `filewrite`, from `begin_op` to `end_op`: the result of `writei`, the
offset and the file system. -/
def writeRound (src : List UInt8) (off : ℕ) (s : State) : Except Panic (Option ℕ × ℕ × State) := do
  let s ← s.ilock sb k
  let (r, s) ← s.writei sb devsw k src off
  let off := match r with
    | some r => if 0 < r then (off + r) % 2 ^ 32 else off
    | none => off
  let s ← s.iunlock k
  .ok (r, off, s)

/-- The loop of `filewrite`, which returns `i`, the offset, the file system, and for each round the
file system before and after it. Every round but the last one writes at least one byte, so as many
rounds as bytes are enough. -/
def filewriteLoop (src : List UInt8) : ℕ → ℕ → ℕ → State →
    Except WriteError (ℕ × ℕ × State × List (State × State))
  | 0, i, off, s => .ok (i, off, s, [])
  | fuel + 1, i, off, s =>
    if i < src.length then do
      let n1 := src.length - i
      let n1 := if n1 > maxWrite then maxWrite else n1
      let (r, off, s') ← liftFs (writeRound sb devsw k ((src.drop i).take n1) off s)
      match r with
      | none => .ok (i, off, s', [(s, s')])
      | some r =>
        if r ≠ n1 then .error .shortFilewrite
        else do
          let (i, off, s'', rounds) ← filewriteLoop src fuel (i + r) off s'
          .ok (i, off, s'', (s, s') :: rounds)
    else .ok (i, off, s, [])

/-- `filewrite`. The result is `none` for -1. -/
def filewrite (f : OpenFile) (src : List UInt8) (s : State) :
    Except WriteError (Option ℕ × OpenFile × State × List (State × State)) :=
  if f.writable = false then .ok (none, f, s, [])
  else do
    let (i, off, s, rounds) ← filewriteLoop sb devsw k src src.length 0 f.off s
    .ok (if i = src.length then some src.length else none, { f with off := off }, s, rounds)

end

structure Unlocked (sb : Superblock) (k : Fin NINODE) (ino : ℕ) (s : State) : Prop where
  consistent : Consistent sb s
  ref : 0 < (s.icache k).ref
  inum : (s.icache k).inum = ino
  unlocked : (s.icache k).locked = false
  type : (s.dinode sb ino).type = T_FILE

def FitsLog (s s' : State) : Prop :=
  ∃ new, s'.logged = new ++ s.logged ∧ new.toFinset.card ≤ Log.MAXOPBLOCKS

def Spares (sb : Superblock) (ino : ℕ) (s s' : State) : Prop :=
  ∀ j, j < sb.ninodes → j ≠ ino → s'.dinode sb j = s.dinode sb j ∧
    ((s.dinode sb j).type ≠ 0 → s'.files sb j = s.files sb j)

section

variable {sb : Superblock} {devsw : Devsw} {k : Fin NINODE} {ino off : ℕ} {src : List UInt8}
  {s s' s'' : State}

theorem Spares.refl : Spares sb ino s s := fun _ _ _ ↦ ⟨rfl, fun _ ↦ rfl⟩

theorem Spares.trans (h : Spares sb ino s s') (h' : Spares sb ino s' s'') : Spares sb ino s s'' := by
  intro j hj hne
  obtain ⟨hd, hf⟩ := h j hj hne
  obtain ⟨hd', hf'⟩ := h' j hj hne
  exact ⟨hd'.trans hd, fun ht ↦ (hf' (by rwa [hd])).trans (hf ht)⟩

theorem dinode_of_cache (h : s'.cache = s.cache) : s'.dinode sb = s.dinode sb := by
  funext j
  rw [State.dinode, State.dinode, h]

theorem files_of_cache (h : s'.cache = s.cache) : s'.files sb = s.files sb := by
  funext j
  rw [State.files, State.files, h, dinode_of_cache h]

theorem freeBlocks_of_cache (h : s'.cache = s.cache) : s'.freeBlocks sb = s.freeBlocks sb :=
  freeBlocks_congr fun c ↦ by rw [State.bit, State.bit, h]

theorem Spares.of_cache (h : s'.cache = s.cache) : Spares sb ino s s' := by
  intro j _ _
  rw [dinode_of_cache h, files_of_cache h]
  exact ⟨rfl, fun _ ↦ rfl⟩

theorem iunlock_logged (h : s.iunlock k = .ok s') : s'.logged = s.logged := by
  unfold State.iunlock at h
  split at h
  · cases h
  · cases h
    rfl

theorem Unlocked.ilock (h : Unlocked sb k ino s) :
    ∃ s', s.ilock sb k = .ok s' ∧ Locks sb k true s s' ∧ s'.logged = s.logged := by
  have hno : ∀ e : Panic, ¬ (e = .sleeps ∧ (s.icache k).locked = true ∨
      e = .ilockNoType ∧ (s.dinode sb (s.icache k).inum).type = 0) := by
    rintro e (⟨-, hl⟩ | ⟨-, ht⟩)
    · rw [h.unlocked] at hl
      cases hl
    · rw [h.inum, h.type] at ht
      cases ht
  have hlogged : Ensures (fun s' ↦ s'.logged = s.logged) (fun _ ↦ True) (s.ilock sb k) := by
    unfold State.ilock
    dsimp only
    repeat' split
    all_goals trivial
  obtain ⟨s', hs', hlock, hlog⟩ :=
    (((ilock_ensures h.consistent h.ref).and hlogged).weaken fun e he ↦ hno e he.1).exists_ok
  exact ⟨s', hs', hlock, hlog⟩

structure Stored (sb : Superblock) (k : Fin NINODE) (ino : ℕ) (src : List UInt8) (off : ℕ)
    (s s' : State) : Prop where
  consistent : Consistent sb s'
  ref : 0 < (s'.icache k).ref
  inum : (s'.icache k).inum = ino
  type : (s'.dinode sb ino).type = T_FILE
  file : s'.files sb ino = overwrite (s.files sb ino) off src
  spares : Spares sb ino s s'
  free : s'.freeBlocks sb +
      blocksFor (max (blocksOf (s.files sb ino).length) (blocksOf (off + src.length))) =
    s.freeBlocks sb + blocksFor (blocksOf (s.files sb ino).length)

theorem blocksOf_max (m n : ℕ) : blocksOf (max m n) = max (blocksOf m) (blocksOf n) := by
  rcases Nat.le_total m n with h | h
  · rw [max_eq_right h, max_eq_right (blocksOf_mono h)]
  · rw [max_eq_left h, max_eq_left (blocksOf_mono h)]

theorem Stored.length (h : Stored sb k ino src off s s') (hoff : off ≤ (s.files sb ino).length) :
    (s'.files sb ino).length = max (s.files sb ino).length (off + src.length) := by
  rw [h.file, length_overwrite _ hoff]

theorem Stored.trans {src' : List UInt8} (h : Stored sb k ino src off s s')
    (h' : Stored sb k ino src' (off + src.length) s' s'') (hoff : off ≤ (s.files sb ino).length) :
    Stored sb k ino (src ++ src') off s s'' where
  consistent := h'.consistent
  ref := h'.ref
  inum := h'.inum
  type := h'.type
  file := by rw [h'.file, h.file, overwrite_overwrite hoff]
  spares := h.spares.trans h'.spares
  free := by
    have hmono := blocksOf_mono (m := off + src.length) (n := off + src.length + src'.length) (by omega)
    have hfree := h.free
    have hfree' := h'.free
    rw [h.length hoff, blocksOf_max, max_assoc, max_eq_right hmono] at hfree'
    rw [List.length_append, ← Nat.add_assoc]
    omega

theorem Stored.of_cache (h : Stored sb k ino src off s s') (hc : Consistent sb s'')
    (hcache : s''.cache = s'.cache) (href : 0 < (s''.icache k).ref)
    (hinum : (s''.icache k).inum = (s'.icache k).inum) : Stored sb k ino src off s s'' where
  consistent := hc
  ref := href
  inum := hinum.trans h.inum
  type := by rw [dinode_of_cache hcache, h.type]
  file := by rw [files_of_cache hcache, h.file]
  spares := h.spares.trans (.of_cache hcache)
  free := by rw [freeBlocks_of_cache hcache, h.free]

theorem Unlocked.writei (devsw : Devsw) (h : Unlocked sb k ino s) (hoff : off ≤ (s.files sb ino).length)
    (hmax : off + src.length ≤ MAXFILE * BSIZE)
    (hfree : blocksFor (max (blocksOf (s.files sb ino).length) (blocksOf (off + src.length))) ≤
      s.freeBlocks sb + blocksFor (blocksOf (s.files sb ino).length)) :
    ∃ s₁ s₂, s.ilock sb k = .ok s₁ ∧ s₁.writei sb devsw k src off = .ok (some src.length, s₂) ∧
      Stored sb k ino src off s s₂ ∧ (s₂.icache k).locked = true ∧ s₁.logged = s.logged ∧
      Logged sb k src.length off s₁ s₂ ∧ off ≤ (s₁.icache k).size := by
  obtain ⟨s₁, hs₁, hlock, hlog⟩ := h.ilock
  have hc := hlock.consistent
  obtain ⟨hr, hv⟩ := hc.locked k hlock.self
  have hinum : (s₁.icache k).inum = ino := (hlock.inum k).trans h.inum
  have hcached := (hc.cached k hr hv).1
  have hdinode : s₁.dinode sb = s.dinode sb := dinode_of_cache hlock.cache
  rw [hinum, hdinode] at hcached
  have hfile : contents s₁.cache (s₁.icache k).toDinode = s.files sb ino := by
    rw [hcached, hlock.cache]
    rfl
  have hsize : (s₁.icache k).size = (s.files sb ino).length := by rw [← hfile, length_contents]
  have htype : (s₁.icache k).type ≠ T_DEV := by
    rw [hcached, h.type]
    decide
  have hfreeBlocks : s₁.freeBlocks sb = s.freeBlocks sb := freeBlocks_of_cache hlock.cache
  have hlim : MAXFILE * BSIZE < 2 ^ 32 := by decide
  have hle : off ≤ (s₁.icache k).size := hsize ▸ hoff
  have hwrites : Ensures (fun r ↦ r.1 = some src.length ∧ Written sb k src off s₁ r.2 ∧
      Logged sb k src.length off s₁ r.2 ∧ Consistent sb r.2) (fun _ ↦ False)
      (s₁.writei sb devsw k src off) := by
    refine (((hc.toWellFormed.writei_ensures hr hv htype hle hmax).and
      ((hc.toWellFormed.writei_logged hr hv htype hle hmax).and
        (hc.writei hlock.self (by omega)))).mono fun r hres ↦
          ⟨hres.1.1, hres.1.2, hres.2.1, hres.2.2⟩).weaken fun e he ↦ ?_
    have hlt := he.1.2
    rw [hsize, hfreeBlocks] at hlt
    omega
  obtain ⟨⟨r, s₂⟩, hs₂, hret, hw, hlogged, hc₂⟩ := hwrites.exists_ok
  obtain rfl : r = some src.length := hret
  obtain ⟨size, addrs, hself⟩ := hw.self
  have hsame := hw.sameInodes hc.toWellFormed hr hv
  obtain ⟨hinum₂, href₂, hvalid₂, -⟩ := hsame.slot k
  have hcached₂ := (hc₂.cached k (href₂ ▸ hr) (hvalid₂ ▸ hv)).1
  rw [hinum₂, hinum] at hcached₂
  refine ⟨s₁, s₂, hs₁, hs₂, ⟨hc₂, href₂ ▸ hr, hinum₂.trans hinum, ?_, ?_, fun j hj hne ↦ ?_, ?_⟩, ?_,
    hlog, hlogged, hle⟩
  · rw [hsame.type ino (by rw [← h.inum]; exact h.consistent.inum k h.ref), hdinode, h.type]
  · rw [State.files, ← hcached₂, hw.contents, hfile]
  · rw [← hinum] at hne
    have hd := hw.dinode j hj hne
    have hf := hw.foreign j hj hne
    rw [hdinode, hlock.cache] at hf
    exact ⟨hd.trans (congrFun hdinode j), hf⟩
  · have hf := hlogged.free
    rwa [hsize, hfreeBlocks] at hf
  · rw [hself]
    exact hlock.self

theorem Unlocked.round (devsw : Devsw) (h : Unlocked sb k ino s) (hoff : off ≤ (s.files sb ino).length)
    (hlen : src.length ≤ maxWrite) (hmax : off + src.length ≤ MAXFILE * BSIZE)
    (hfree : blocksFor (max (blocksOf (s.files sb ino).length) (blocksOf (off + src.length))) ≤
      s.freeBlocks sb + blocksFor (blocksOf (s.files sb ino).length)) :
    ∃ s', writeRound sb devsw k src off s = .ok (some src.length, off + src.length, s') ∧
      Stored sb k ino src off s s' ∧ (s'.icache k).locked = false ∧ FitsLog s s' := by
  obtain ⟨s₁, s₂, hs₁, hs₂, hst, hl, hlog, hlogged, hle⟩ := h.writei devsw hoff hmax hfree
  obtain ⟨s₃, hs₃, hunlock, -⟩ := iunlock_ok hst.consistent hl
  have hlim : MAXFILE * BSIZE < 2 ^ 32 := by decide
  have hadd : (if 0 < src.length then (off + src.length) % 2 ^ 32 else off) = off + src.length := by
    split
    · exact Nat.mod_eq_of_lt (by omega)
    · omega
  refine ⟨s₃, ?_, hst.of_cache hunlock.consistent hunlock.cache ((hunlock.ref k).symm ▸ hst.ref)
    (hunlock.inum k), hunlock.self, ?_⟩
  · rw [writeRound, hs₁, ok_bind, hs₂, ok_bind]
    simp only [hadd, hs₃, ok_bind]
  · rw [FitsLog, iunlock_logged hs₃, ← hlog]
    exact hlogged.card_le hlen hle

theorem Unlocked.round_fails (devsw : Devsw) (h : Unlocked sb k ino s)
    (hlen : src.length ≤ maxWrite) (hmax : MAXFILE * BSIZE < off + src.length) :
    ∃ s', writeRound sb devsw k src off s = .ok (none, off, s') ∧ Unlocked sb k ino s' ∧
      s'.cache = s.cache ∧ FitsLog s s' := by
  obtain ⟨s₁, hs₁, hlock, hlog⟩ := h.ilock
  obtain ⟨hr, hv⟩ := hlock.consistent.locked k hlock.self
  have htype : (s₁.icache k).type ≠ T_DEV := by
    rw [(hlock.consistent.cached k hr hv).1, hlock.inum, h.inum, dinode_of_cache hlock.cache, h.type]
    decide
  have hsmall : maxWrite < 2 ^ 32 := by decide
  have hs₂ : s₁.writei sb devsw k src off = .ok (none, s₁) :=
    hlock.consistent.toWellFormed.writei_fails hr hv htype (by omega) (by omega)
  obtain ⟨s₃, hs₃, hunlock, -⟩ := iunlock_ok hlock.consistent hlock.self
  have hcache : s₃.cache = s.cache := hunlock.cache.trans hlock.cache
  refine ⟨s₃, ?_, ⟨hunlock.consistent, ?_, ?_, hunlock.self, ?_⟩, hcache, [], ?_, Nat.zero_le _⟩
  · rw [writeRound, hs₁, ok_bind, hs₂, ok_bind]
    simp only [hs₃, ok_bind]
  · rw [hunlock.ref]
    exact hr
  · rw [hunlock.inum, hlock.inum, h.inum]
  · rw [dinode_of_cache hcache, h.type]
  · rw [iunlock_logged hs₃, hlog]
    rfl

theorem Stored.unlocked (h : Stored sb k ino src off s s') (hl : (s'.icache k).locked = false) :
    Unlocked sb k ino s' := ⟨h.consistent, h.ref, h.inum, hl, h.type⟩

theorem Unlocked.stored (h : Unlocked sb k ino s) (hoff : off ≤ (s.files sb ino).length) :
    Stored sb k ino [] off s s where
  consistent := h.consistent
  ref := h.ref
  inum := h.inum
  type := h.type
  file := by simp [overwrite]
  spares := .refl
  free := by rw [List.length_nil, Nat.add_zero, max_eq_left (blocksOf_mono hoff)]

/-- The number of bytes that `filewrite` writes: all of them, or the whole chunks that fit. -/
def fitting (off n : ℕ) : ℕ :=
  if off + n ≤ MAXFILE * BSIZE then n else (MAXFILE * BSIZE - off) / maxWrite * maxWrite

theorem fitting_le (off n : ℕ) (hoff : off ≤ MAXFILE * BSIZE) : fitting off n ≤ n := by
  have hdiv := Nat.div_mul_le_self (MAXFILE * BSIZE - off) maxWrite
  unfold fitting
  split
  · exact le_rfl
  · omega

theorem le_fitting {i n n1 : ℕ} (hi : i < n) (hn : n1 = min (n - i) maxWrite) (hdvd : maxWrite ∣ i)
    (hfits : off + i + n1 ≤ MAXFILE * BSIZE) : i + n1 ≤ fitting off n := by
  unfold fitting
  split
  · omega
  · rw [show n1 = maxWrite by omega] at hfits ⊢
    obtain ⟨c, rfl⟩ := hdvd
    rw [Nat.mul_comm, ← Nat.succ_mul]
    refine Nat.mul_le_mul_right _ ((Nat.le_div_iff_mul_le (by decide)).mpr ?_)
    rw [Nat.succ_mul, Nat.mul_comm]
    omega

theorem eq_fitting {i n n1 : ℕ} (hi : i < n) (hn : n1 = min (n - i) maxWrite) (hdvd : maxWrite ∣ i)
    (hle : i ≤ fitting off n) (hfits : MAXFILE * BSIZE < off + i + n1) : i = fitting off n := by
  have hno : ¬ off + n ≤ MAXFILE * BSIZE := by omega
  rw [fitting, if_neg hno] at hle ⊢
  obtain ⟨c, rfl⟩ := hdvd
  rw [Nat.mul_comm maxWrite c] at hle hfits ⊢
  have hpos : 0 < maxWrite := by decide
  have hc := Nat.le_of_mul_le_mul_right hle hpos
  have hlt : (MAXFILE * BSIZE - off) / maxWrite < c + 1 := by
    rw [Nat.div_lt_iff_lt_mul hpos, Nat.succ_mul]
    omega
  rw [show (MAXFILE * BSIZE - off) / maxWrite = c by omega]

theorem filewriteLoop_ok (devsw : Devsw) (hoff : off ≤ (s.files sb ino).length) (hsize : off ≤ MAXFILE * BSIZE)
    (hfree : blocksFor (max (blocksOf (s.files sb ino).length)
      (blocksOf (off + fitting off src.length))) ≤
        s.freeBlocks sb + blocksFor (blocksOf (s.files sb ino).length))
    {fuel i : ℕ} {t : State} (h : Stored sb k ino (src.take i) off s t)
    (hl : (t.icache k).locked = false) (hi : i ≤ fitting off src.length)
    (hdvd : i = src.length ∨ maxWrite ∣ i) (hfuel : src.length ≤ i + fuel) :
    ∃ t' rounds, filewriteLoop sb devsw k src fuel i (off + i) t =
        .ok (fitting off src.length, off + fitting off src.length, t', rounds) ∧
      Stored sb k ino (src.take (fitting off src.length)) off s t' ∧
      ∀ x ∈ rounds, FitsLog x.1 x.2 := by
  have hle := fitting_le off src.length hsize
  induction fuel generalizing i t with
  | zero =>
    obtain rfl : i = fitting off src.length := by omega
    exact ⟨t, [], rfl, h, by simp⟩
  | succ fuel ih =>
    rw [filewriteLoop]
    by_cases hlt : i < src.length
    swap
    · obtain rfl : i = fitting off src.length := by omega
      rw [if_neg hlt]
      exact ⟨t, [], rfl, h, by simp⟩
    rw [if_pos hlt]
    have htake : (src.take i).length = i := List.length_take_of_le hlt.le
    have hdvd := hdvd.resolve_left hlt.ne
    have hlen := h.length hoff
    rw [htake] at hlen
    obtain ⟨n1, hn1, hn⟩ : ∃ n1, (if src.length - i > maxWrite then maxWrite else src.length - i) = n1 ∧
        n1 = min (src.length - i) maxWrite := ⟨_, rfl, by split <;> omega⟩
    have hchunk : ((src.drop i).take n1).length = n1 := by
      rw [List.length_take, List.length_drop]
      omega
    simp only [hn1]
    have hsmall : ((src.drop i).take n1).length ≤ maxWrite := by omega
    by_cases hfits : off + i + n1 ≤ MAXFILE * BSIZE
    · have hnext := le_fitting hlt hn hdvd hfits
      have hstart : off + i ≤ (t.files sb ino).length := by omega
      have hroom : off + i + ((src.drop i).take n1).length ≤ MAXFILE * BSIZE := by omega
      have henough : blocksFor (max (blocksOf (t.files sb ino).length)
          (blocksOf (off + i + ((src.drop i).take n1).length))) ≤
          t.freeBlocks sb + blocksFor (blocksOf (t.files sb ino).length) := by
        have hused := h.free
        rw [htake] at hused
        rw [hlen, blocksOf_max, hused, hchunk, max_assoc, ← blocksOf_max]
        refine le_trans (blocksFor_mono (max_le_max le_rfl (blocksOf_mono ?_))) hfree
        omega
      obtain ⟨t', hround, hst, hl', hlog⟩ := (h.unlocked hl).round devsw hstart hsmall hroom henough
      rw [hchunk] at hround
      have hsum : src.take i ++ (src.drop i).take n1 = src.take (i + n1) := (List.take_add).symm
      have hst' : Stored sb k ino (src.take (i + n1)) off s t' :=
        hsum ▸ h.trans (by rwa [htake]) hoff
      obtain ⟨t'', rounds, hloop, hend, hlogs⟩ := ih hst' hl' hnext (by
        rcases Nat.lt_or_ge maxWrite (src.length - i) with hm | hm
        · exact .inr (Nat.dvd_add hdvd (by rw [show n1 = maxWrite by omega]))
        · exact .inl (by omega)) (by
        have hpos : 0 < maxWrite := by decide
        omega)
      refine ⟨t'', (t, t') :: rounds, ?_, hend, ?_⟩
      · rw [hround]
        simp only [liftFs, ok_bind, ne_eq, not_true_eq_false, if_false]
        rw [Nat.add_assoc, hloop]
        rfl
      · intro x hx
        rcases List.mem_cons.mp hx with rfl | hx
        · exact hlog
        · exact hlogs x hx
    · have hroom : MAXFILE * BSIZE < off + i + ((src.drop i).take n1).length := by omega
      obtain ⟨t', hround, hun, hcache, hlog⟩ := (h.unlocked hl).round_fails devsw hsmall hroom
      obtain rfl : i = fitting off src.length := eq_fitting hlt hn hdvd hi (by omega)
      refine ⟨t', [(t, t')], ?_, h.of_cache hun.consistent hcache hun.ref (hun.inum.trans h.inum.symm), ?_⟩
      · rw [hround]
        rfl
      · intro x hx
        obtain rfl := List.mem_singleton.mp hx
        exact hlog

theorem Unlocked.length_le (h : Unlocked sb k ino s) :
    (s.files sb ino).length ≤ MAXFILE * BSIZE := by
  have hino : ino < sb.ninodes := h.inum ▸ h.consistent.inum k h.ref
  have hholes := h.consistent.noHoles ino hino (by rw [h.type]; decide)
  rw [State.files, length_contents]
  exact (le_blocksOf _).trans (Nat.mul_le_mul_right _ hholes.le)

theorem fitting_of_le {n : ℕ} (h : off + n ≤ MAXFILE * BSIZE) : fitting off n = n := if_pos h

theorem fitting_of_lt {n : ℕ} (h : MAXFILE * BSIZE < off + n) :
    fitting off n = (MAXFILE * BSIZE - off) / maxWrite * maxWrite := if_neg (by omega)

/-- What is written is what a single call of `writei` would write, in rounds that fit the log. -/
theorem filewrite_in_chunks (devsw : Devsw) {f : OpenFile} (src : List UInt8)
    (h : Unlocked sb k ino s) (hw : f.writable = true) (hoff : f.off ≤ (s.files sb ino).length)
    (hfree : blocksFor (max (blocksOf (s.files sb ino).length)
      (blocksOf (f.off + fitting f.off src.length))) ≤
        s.freeBlocks sb + blocksFor (blocksOf (s.files sb ino).length)) :
    ∃ r f' s' rounds, filewrite sb devsw k f src s = .ok (r, f', s', rounds) ∧
      (f.off + src.length ≤ MAXFILE * BSIZE →
        r = some src.length ∧ f' = { f with off := f.off + src.length } ∧
        ∃ s₁ s₂, s.ilock sb k = .ok s₁ ∧
          s₁.writei sb devsw k src f.off = .ok (some src.length, s₂) ∧
          ∀ j, j < sb.ninodes → (s.dinode sb j).type ≠ 0 → s'.files sb j = s₂.files sb j) ∧
      (MAXFILE * BSIZE < f.off + src.length →
        ∃ n, n = (MAXFILE * BSIZE - f.off) / maxWrite * maxWrite ∧
          r = none ∧ f' = { f with off := f.off + n } ∧
          s'.files sb ino = overwrite (s.files sb ino) f.off (src.take n) ∧
          ∀ j, j < sb.ninodes → j ≠ ino → (s.dinode sb j).type ≠ 0 →
            s'.files sb j = s.files sb j) ∧
      ∀ x ∈ rounds, FitsLog x.1 x.2 := by
  have hsize : f.off ≤ MAXFILE * BSIZE := hoff.trans h.length_le
  have hstart : Stored sb k ino (src.take 0) f.off s s := h.stored hoff
  obtain ⟨s', rounds, hloop, hst, hlogs⟩ := filewriteLoop_ok devsw hoff hsize hfree hstart
    h.unlocked (Nat.zero_le _) (.inr (Nat.dvd_zero _)) (Nat.zero_add src.length).ge
  have hrun : filewrite sb devsw k f src s =
      .ok (if fitting f.off src.length = src.length then some src.length else none,
        { f with off := f.off + fitting f.off src.length }, s', rounds) := by
    rw [filewrite, if_neg (by simp [hw]), ← Nat.add_zero f.off, hloop]
    rfl
  refine ⟨_, _, s', rounds, hrun, fun hfits ↦ ?_, fun hover ↦ ?_, hlogs⟩
  · rw [fitting_of_le hfits] at hst hfree ⊢
    obtain ⟨s₁, s₂, hs₁, hs₂, hone, -⟩ := h.writei devsw hoff hfits hfree
    refine ⟨if_pos rfl, rfl, s₁, s₂, hs₁, hs₂, fun j hj ht ↦ ?_⟩
    by_cases hij : j = ino
    · rw [hij, hst.file, hone.file, List.take_length]
    · rw [(hst.spares j hj hij).2 ht, (hone.spares j hj hij).2 ht]
  · rw [fitting_of_lt hover] at hst ⊢
    have hdiv := Nat.div_mul_le_self (MAXFILE * BSIZE - f.off) maxWrite
    exact ⟨_, rfl, if_neg (by omega), rfl, hst.file, fun j hj hij ↦ (hst.spares j hj hij).2⟩

end

theorem smallBytes_rounds : Ensures (fun s ↦ (0 < (s.icache ⟨0, NINODE_pos⟩).ref ∧
      (s.icache ⟨0, NINODE_pos⟩).inum = 1 ∧ (s.icache ⟨0, NINODE_pos⟩).locked = false ∧
      (s.dinode smallDisk 1).type = T_FILE) ∧ 2 ≤ (s.files smallDisk 1).length ∧
    blocksFor (max (blocksOf (s.files smallDisk 1).length) (blocksOf (2 + fitting 2 1540))) ≤
      s.freeBlocks smallDisk + blocksFor (blocksOf (s.files smallDisk 1).length) ∧
    Ensures (fun r ↦ r.2.2.2.length = 2) (fun _ ↦ False)
      (filewrite smallDisk noDevice ⟨0, NINODE_pos⟩ ⟨true, 2⟩ (.replicate 1540 7) s))
    (fun _ ↦ False) smallBytes := by
  decide +kernel

theorem filewrite_in_chunks_two : ∃ s, Unlocked smallDisk ⟨0, NINODE_pos⟩ 1 s ∧
    ∃ r f' s' rounds, filewrite smallDisk noDevice ⟨0, NINODE_pos⟩ ⟨true, 2⟩ (.replicate 1540 7) s =
        .ok (r, f', s', rounds) ∧
      r = some 1540 ∧ f'.off = 1542 ∧ rounds.length = 2 ∧ ∀ x ∈ rounds, FitsLog x.1 x.2 := by
  obtain ⟨s, hs, ⟨href, hinum, hunlocked, htype⟩, hoff, hrest⟩ := smallBytes_rounds.exists_ok
  have hready : Unlocked smallDisk ⟨0, NINODE_pos⟩ 1 s :=
    ⟨smallBytes_ensures.of_ok hs, href, hinum, hunlocked, htype⟩
  obtain ⟨src, hsrc, hlen⟩ : ∃ src : List UInt8, .replicate 1540 7 = src ∧ src.length = 1540 :=
    ⟨_, rfl, List.length_replicate⟩
  rw [hsrc, ← hlen] at hrest
  rw [hsrc]
  obtain ⟨r, f', s', rounds, hwrite, hfits, -, hlogs⟩ :=
    filewrite_in_chunks noDevice (f := ⟨true, 2⟩) src hready rfl hoff hrest.1
  rw [hlen] at hfits
  obtain ⟨hr, hf, -⟩ := hfits (by decide)
  exact ⟨s, hready, r, f', s', rounds, hwrite, hr, by rw [hf], hrest.2.of_ok hwrite, hlogs⟩

end Xv6Bfs.Files

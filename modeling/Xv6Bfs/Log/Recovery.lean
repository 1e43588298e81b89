import Xv6Bfs.Disk.Block
import Xv6Bfs.Log.Protocol
import Mathlib.Logic.Relation

namespace Xv6Bfs.Log

open Lib.Execution Disk

/-- `struct logheader`. The list is `block[0..n-1]`. -/
structure LogHeader where
  block : List ℕ
  length_le : block.length ≤ LOGSIZE
  lt : ∀ b ∈ block, b < 2 ^ 32

def LogHeader.empty : LogHeader := ⟨[], by simp, by simp⟩

/-- The part of the kernel that `commit` works on. `cache` is what `bread` returns, and `power`
is the number of block writes until the machine fails, if it does. `writes` are the block
numbers of the block writes so far. -/
structure Machine where
  disk : Image
  cache : Image
  lh : LogHeader
  power : Option ℕ
  writes : List ℕ

inductive Failure
  | crash (m : Machine)
  | overflow

namespace Machine

def written (m : Machine) (b : ℕ) (data : Block) : Machine where
  disk := Function.update m.disk b data
  cache := Function.update m.cache b data
  lh := m.lh
  power := m.power.map (· - 1)
  writes := m.writes ++ [b]

def bwrite (m : Machine) (b : ℕ) (data : Block) : Except Failure Machine :=
  if m.power = some 0 then .error (.crash m) else .ok (m.written b data)

variable (start : ℕ)

def writeLog (m : Machine) : Except Failure Machine :=
  exec (fun x m ↦ m.bwrite (start + x.2 + 1) (m.cache x.1)) m.lh.block.zipIdx m

def installTrans (m : Machine) : Except Failure Machine :=
  exec (fun x m ↦ m.bwrite x.1 (m.cache (start + x.2 + 1))) m.lh.block.zipIdx m

/-- `hb->n` and `hb->block` are assigned, and the rest of the block stays as it is. -/
def putHead (lh : LogHeader) (hb : Block) : Block :=
  lh.block.zipIdx.foldl (fun hb x ↦ setWord hb (x.2 + 1) x.1) (setWord hb 0 lh.block.length)

def writeHead (m : Machine) : Except Failure Machine :=
  m.bwrite start (putHead m.lh (m.cache start))

/-- The number of rounds of a loop up to the signed number `hb->n`. -/
def headCount (hb : Block) : ℕ := if word hb 0 < 2 ^ 31 then word hb 0 else 0

def headBlocks (hb : Block) : List ℕ := (List.range (headCount hb)).map fun i ↦ word hb (i + 1)

theorem headBlocks_lt {hb : Block} : ∀ b ∈ headBlocks hb, b < 2 ^ 32 := by
  intro b h
  obtain ⟨i, -, rfl⟩ := List.mem_map.mp h
  exact word_lt

def readHead (m : Machine) : Except Failure Machine :=
  let hb := m.cache start
  if h : headCount hb ≤ LOGSIZE then
    .ok { m with
      lh := ⟨headBlocks hb, by simpa [headBlocks] using h, headBlocks_lt⟩ }
  else .error .overflow

def recoverFromLog (m : Machine) : Except Failure Machine := do
  let m ← m.readHead start
  let m ← m.installTrans start
  writeHead start { m with lh := .empty }

def commit (m : Machine) : Except Failure Machine :=
  if m.lh.block.length > 0 then do
    let m ← m.writeLog start
    let m ← m.writeHead start
    let m ← m.installTrans start
    writeHead start { m with lh := .empty }
  else .ok m

def boot (d : Image) (power : Option ℕ) : Machine := ⟨d, d, .empty, power, []⟩

/-- A run of `recover_from_log` on the disk `d`, complete or not, has left the disk `d'`. -/
def Recovers (d d' : Image) : Prop :=
  ∃ power m, (recoverFromLog start (boot d power) = .ok m ∨
    recoverFromLog start (boot d power) = .error (.crash m)) ∧ m.disk = d'

section

variable {start : ℕ}

def Crashed (I : Machine → Prop) : Failure → Prop
  | .crash m => I m
  | .overflow => False

theorem bwrite_ensures {I I' : Machine → Prop} {m : Machine} {b : ℕ} {data : Block} (h : I m)
    (h' : I' (m.written b data)) : Ensures I' (Crashed I) (m.bwrite b data) := by
  unfold bwrite
  split
  · exact h
  · exact h'

theorem foldl_setWord (l : List ℕ) (k : ℕ) (hb : Block) (hk : k + l.length < BSIZE / 4)
    (hl : ∀ b ∈ l, b < 2 ^ 32) :
    (∀ i, i ≤ k → word ((l.zipIdx k).foldl (fun hb x ↦ setWord hb (x.2 + 1) x.1) hb) i = word hb i) ∧
    ∀ i (hi : i < l.length),
      word ((l.zipIdx k).foldl (fun hb x ↦ setWord hb (x.2 + 1) x.1) hb) (k + 1 + i) = l[i] := by
  induction l generalizing k hb with
  | nil => simp
  | cons b l ih =>
    simp only [List.length_cons] at hk
    have hlow := (ih (k + 1) (setWord hb (k + 1) b) (by omega) (fun c hc ↦ hl c (.tail _ hc))).1
    have hhigh := (ih (k + 1) (setWord hb (k + 1) b) (by omega) (fun c hc ↦ hl c (.tail _ hc))).2
    rw [List.zipIdx_cons, List.foldl_cons]
    refine ⟨fun i hi ↦ ?_, fun i hi ↦ ?_⟩
    · rw [hlow i (by omega), word_setWord_ne (by omega)]
    · cases i with
      | zero =>
        rw [Nat.add_zero, hlow (k + 1) le_rfl, word_setWord_self (by omega) (hl b (.head _))]
        rfl
      | succ i =>
        have := hhigh i (by simpa using hi)
        rwa [show k + 1 + 1 + i = k + 1 + (i + 1) by omega] at this

theorem headBlocks_putHead (lh : LogHeader) (hb : Block) : headBlocks (putHead lh hb) = lh.block := by
  have hsize : LOGSIZE = 30 := rfl
  have hblock : BSIZE = 512 := rfl
  have hlen := lh.length_le
  obtain ⟨hlow, hhigh⟩ :=
    foldl_setWord lh.block 0 (setWord hb 0 lh.block.length) (by omega) lh.lt
  have hcount : headCount (putHead lh hb) = lh.block.length := by
    have hn := hlow 0 le_rfl
    rw [word_setWord_self (by omega) (by omega)] at hn
    unfold headCount putHead
    rw [hn, if_pos (by omega)]
  refine List.ext_getElem (by simp [headBlocks, hcount]) (fun i hi hi' ↦ ?_)
  have := hhigh i hi'
  simp only [headBlocks, List.getElem_map, List.getElem_range]
  rw [← this, Nat.zero_add, Nat.add_comm]
  rfl

end

def InLog (start size b : ℕ) : Prop := start ≤ b ∧ b < start + size

structure Fits (start size : ℕ) (l : List ℕ) : Prop where
  nodup : l.Nodup
  room : l.length < size
  outside : ∀ b ∈ l, ¬ InLog start size b

section

variable (start size : ℕ) (old new : Image) (l : List ℕ)

structure Before (d : Image) : Prop where
  header : word (d start) 0 = 0
  outside : ∀ b, ¬ InLog start size b → d b = old b

/-- The transaction is in the log, and some of its blocks may have been installed. -/
structure Committed (d : Image) : Prop where
  header : headBlocks (d start) = l
  logged : ∀ x ∈ l.zipIdx, d (start + x.2 + 1) = new x.1
  home : ∀ b ∈ l, d b = old b ∨ d b = new b
  rest : ∀ b, ¬ InLog start size b → b ∉ l → d b = old b

structure After (d : Image) : Prop where
  header : word (d start) 0 = 0
  outside : ∀ b, ¬ InLog start size b → d b = if b ∈ l then new b else old b

end

section

variable {start size : ℕ} {old new : Image} {l : List ℕ} {d : Image} {m : Machine} {data : Block}

theorem Before.log (h : Before start size old d) {i : ℕ} (hi : i + 1 < size) :
    Before start size old (Function.update d (start + i + 1) data) := by
  refine ⟨?_, fun b hb ↦ ?_⟩
  · rw [Function.update_of_ne (by omega)]
    exact h.header
  · rw [Function.update_of_ne (fun he ↦ hb ⟨by omega, by omega⟩)]
    exact h.outside b hb

theorem Before.clear (h : Before start size old d) (hs : 0 < size) (hd : word data 0 = 0) :
    Before start size old (Function.update d start data) := by
  refine ⟨by simpa using hd, fun b hb ↦ ?_⟩
  rw [Function.update_of_ne (fun he ↦ hb ⟨by omega, by omega⟩)]
  exact h.outside b hb

theorem Committed.install (h : Committed start size old new l d) (hf : Fits start size l) {b : ℕ}
    (hb : b ∈ l) : Committed start size old new l (Function.update d b (new b)) := by
  have hlog := hf.outside b hb
  refine ⟨?_, fun x hx ↦ ?_, fun c hc ↦ ?_, fun c hc hn ↦ ?_⟩
  · rw [Function.update_of_ne]
    · exact h.header
    · rintro rfl
      have := hf.room
      exact hlog ⟨le_rfl, by omega⟩
  · have hlt := (List.mem_zipIdx' hx).1
    have := hf.room
    rw [Function.update_of_ne (fun he ↦ hlog ⟨by omega, by omega⟩)]
    exact h.logged x hx
  · rcases eq_or_ne c b with rfl | hne
    · simp
    · rw [Function.update_of_ne hne]
      exact h.home c hc
  · rw [Function.update_of_ne (by rintro rfl; exact hn hb)]
    exact h.rest c hc hn

theorem Committed.clear (h : Committed start size old new l d) (hf : Fits start size l)
    (hall : ∀ b ∈ l, d b = new b) (hd : word data 0 = 0) :
    After start size old new l (Function.update d start data) := by
  refine ⟨by simpa using hd, fun b hb ↦ ?_⟩
  have := hf.room
  rw [Function.update_of_ne (fun he ↦ hb ⟨by omega, by omega⟩)]
  split
  · exact hall b ‹_›
  · exact h.rest b hb ‹_›

theorem After.clear (h : After start size old new l d) (hs : 0 < size) (hd : word data 0 = 0) :
    After start size old new l (Function.update d start data) := by
  refine ⟨by simpa using hd, fun b hb ↦ ?_⟩
  rw [Function.update_of_ne (fun he ↦ hb ⟨by omega, by omega⟩)]
  exact h.outside b hb

theorem word_putHead_empty (hb : Block) : word (putHead .empty hb) 0 = 0 := by
  simp only [putHead, LogHeader.empty, List.zipIdx_nil, List.foldl_nil, List.length_nil]
  exact word_setWord_self (by decide) (by decide)

theorem headBlocks_eq_nil {hb : Block} (h : word hb 0 = 0) : headBlocks hb = [] := by
  simp [headBlocks, headCount, h]

theorem writeLog_ensures (hf : Fits start size m.lh.block) (h : Before start size old m.disk)
    (hw : start ∉ m.writes) :
    Ensures (fun m' ↦ (Before start size old m'.disk ∧ start ∉ m'.writes) ∧ m'.lh = m.lh ∧
        ∀ x ∈ m.lh.block.zipIdx, m'.disk (start + x.2 + 1) = m.cache x.1 ∧
          m'.cache (start + x.2 + 1) = m.cache x.1)
      (Crashed fun m' ↦ Before start size old m'.disk ∧ start ∉ m'.writes) (m.writeLog start) := by
  refine (Ensures.exec_prefix (fun l₁ m' ↦ (Before start size old m'.disk ∧ start ∉ m'.writes) ∧
    m'.lh = m.lh ∧ (∀ b ∈ m.lh.block, m'.cache b = m.cache b) ∧
      ∀ x ∈ l₁, m'.disk (start + x.2 + 1) = m.cache x.1 ∧ m'.cache (start + x.2 + 1) = m.cache x.1)
    (fun l₁ a l₂ hl m' hm ↦ bwrite_ensures hm.1 ?_) ⟨⟨h, hw⟩, rfl, fun _ _ ↦ rfl, by simp⟩).mono
    (fun m' hm ↦ ⟨hm.1, hm.2.1, hm.2.2.2⟩)
  obtain ⟨⟨hbefore, hwrites⟩, hlh, hcache, hdone⟩ := hm
  have hmem : a ∈ m.lh.block.zipIdx := by simp [hl]
  obtain ⟨hlt, ha⟩ := List.mem_zipIdx' hmem
  have hroom := hf.room
  have hfrom : m'.cache a.1 = m.cache a.1 := hcache a.1 (by simp [ha])
  refine ⟨⟨hbefore.log (by omega), ?_⟩, hlh, fun b hb ↦ ?_, fun x hx ↦ ?_⟩
  · simp only [written, List.mem_append, List.mem_singleton]
    rintro (hin | he)
    · exact hwrites hin
    · omega
  · have hout := hf.outside b hb
    simp only [written]
    rw [Function.update_of_ne (fun he ↦ hout ⟨by omega, by omega⟩), hcache b hb]
  · -- an element at the same place of the log is the same element
    have hx' : x ∈ m.lh.block.zipIdx := by
      rw [hl]
      simp only [List.mem_append, List.mem_cons, List.not_mem_nil, or_false] at hx ⊢
      tauto
    obtain ⟨hxlt, hxa⟩ := List.mem_zipIdx' hx'
    simp only [written]
    rcases eq_or_ne x.2 a.2 with he | hne
    · have : x.1 = a.1 := by simp only [hxa, ha, he]
      simp [he, this, hfrom]
    · rw [Function.update_of_ne (by omega), Function.update_of_ne (by omega)]
      rcases List.mem_append.mp hx with hx | hx
      · exact hdone x hx
      · exact absurd (by simp_all) hne

theorem installTrans_ensures (hl : m.lh.block = l) (hf : Fits start size l)
    (h : Committed start size old new l m.disk)
    (hc : ∀ x ∈ l.zipIdx, m.cache (start + x.2 + 1) = new x.1) :
    Ensures (fun m' ↦ (Committed start size old new l m'.disk ∧ ∃ w, m'.writes = m.writes ++ w) ∧
        ∀ b ∈ l, m'.disk b = new b)
      (Crashed fun m' ↦ Committed start size old new l m'.disk ∧ ∃ w, m'.writes = m.writes ++ w)
      (m.installTrans start) := by
  unfold installTrans
  rw [hl]
  refine (Ensures.exec_prefix (fun l₁ m' ↦ (Committed start size old new l m'.disk ∧
    ∃ w, m'.writes = m.writes ++ w) ∧ (∀ x ∈ l.zipIdx, m'.cache (start + x.2 + 1) = new x.1) ∧
      ∀ x ∈ l₁, m'.disk x.1 = new x.1) (fun l₁ a l₂ hl m' hm ↦ bwrite_ensures hm.1 ?_)
    ⟨⟨h, [], by simp⟩, hc, by simp⟩).mono (fun m' hm ↦ ⟨hm.1, fun b hb ↦ ?_⟩)
  · obtain ⟨⟨hcom, w, hwrites⟩, hcache, hdone⟩ := hm
    have hmem : a ∈ l.zipIdx := by simp [hl]
    obtain ⟨hlt, ha⟩ := List.mem_zipIdx' hmem
    have hin : a.1 ∈ l := by simp [ha]
    have hout := hf.outside a.1 hin
    have hroom := hf.room
    simp only [written]
    rw [hcache a hmem]
    refine ⟨⟨hcom.install hf hin, w ++ [a.1], by simp [hwrites]⟩, fun x hx ↦ ?_, fun x hx ↦ ?_⟩
    · have hxlt := (List.mem_zipIdx' hx).1
      rw [Function.update_of_ne (fun he ↦ hout ⟨by omega, by omega⟩)]
      exact hcache x hx
    · rcases eq_or_ne x.1 a.1 with he | hne
      · simp [he]
      · rw [Function.update_of_ne hne]
        rcases List.mem_append.mp hx with hx | hx
        · exact hdone x hx
        · exact absurd (by simp_all) hne
  · obtain ⟨i, hi, rfl⟩ := List.mem_iff_getElem.mp hb
    exact hm.2.2 (l[i], i) (by simp [List.mem_zipIdx_iff_getElem?])

theorem commit_ensures (hn : m.lh.block ≠ []) (hf : Fits start size m.lh.block)
    (h : Before start size old m.disk) (hw : m.writes = []) :
    Ensures (fun m' ↦ After start size old m.cache m.lh.block m'.disk ∧ start ∈ m'.writes)
      (Crashed fun m' ↦ Before start size old m'.disk ∧ start ∉ m'.writes ∨
        Committed start size old m.cache m.lh.block m'.disk ∧ start ∈ m'.writes)
      (m.commit start) := by
  have hpos := hf.room
  unfold commit
  rw [if_pos (List.length_pos_of_ne_nil hn)]
  refine ((writeLog_ensures hf h (by simp [hw])).weaken fun e he ↦ ?_).bind
    (fun m₁ ⟨hbefore, hlh, hlogged⟩ ↦ ?_)
  · cases e with
    | crash m' => exact .inl he
    | overflow => exact he
  -- the block write that commits the transaction
  refine Ensures.through (fun m₂ ↦ Committed start size old m.cache m.lh.block m₂.disk ∧
      (∀ x ∈ m.lh.block.zipIdx, m₂.cache (start + x.2 + 1) = m.cache x.1) ∧ m₂.lh = m.lh ∧
        start ∈ m₂.writes)
    (bwrite_ensures (.inl hbefore) ⟨⟨?_, fun x hx ↦ ?_, fun b hb ↦ ?_, fun b hb hnb ↦ ?_⟩,
      fun x hx ↦ ?_, hlh, by simp [written]⟩) (fun m₂ ⟨hcom, hcache, hlh₂, hwrite⟩ ↦ ?_)
  · simp only [written, Function.update_self, headBlocks_putHead, hlh]
  · simp only [written]
    rw [Function.update_of_ne (by omega)]
    exact (hlogged x hx).1
  · have hout := hf.outside b hb
    simp only [written]
    rw [Function.update_of_ne (fun he ↦ hout ⟨by omega, by omega⟩)]
    exact .inl (hbefore.1.outside b hout)
  · simp only [written]
    rw [Function.update_of_ne (fun he ↦ hb ⟨by omega, by omega⟩)]
    exact hbefore.1.outside b hb
  · simp only [written]
    rw [Function.update_of_ne (by omega)]
    exact (hlogged x hx).2
  refine ((installTrans_ensures (hlh₂ ▸ rfl) hf hcom hcache).weaken fun e he ↦ ?_).bind
    (fun m₃ ⟨⟨hcom, w, hw⟩, hall⟩ ↦ bwrite_ensures (.inr ⟨hcom, by simp [hw, hwrite]⟩)
      ⟨hcom.clear hf hall (word_putHead_empty _), by simp [written]⟩)
  cases e with
  | crash m' =>
    obtain ⟨hcom, w, hw⟩ := he
    exact .inr ⟨hcom, by simp [hw, hwrite]⟩
  | overflow => exact he

-- the statements below are about any header: its number of blocks is never computed
attribute [local irreducible] headCount

theorem readHead_ensures {err : Failure → Prop} (hh : headBlocks (m.cache start) = l)
    (hl : l.length ≤ LOGSIZE) :
    Ensures (fun m' ↦ m'.lh.block = l ∧ m'.disk = m.disk ∧ m'.cache = m.cache) err
      (m.readHead start) := by
  have hcount : headCount (m.cache start) ≤ LOGSIZE := by
    rw [← hh] at hl
    simpa [headBlocks] using hl
  simp only [readHead, dif_pos hcount]
  exact ⟨hh, rfl, rfl⟩

theorem recoverFromLog_empty {I : Image → Prop} (power : Option ℕ) (h : I d)
    (hz : word (d start) 0 = 0)
    (hclear : ∀ data, word data 0 = 0 → I (Function.update d start data)) :
    Ensures (fun m ↦ I m.disk) (Crashed fun m ↦ I m.disk)
      (recoverFromLog start (boot d power)) := by
  refine Ensures.bind (readHead_ensures (headBlocks_eq_nil hz) (Nat.zero_le _))
    (fun m₁ ⟨hlh, hd, _⟩ ↦ ?_)
  have hnone : m₁.installTrans start = .ok m₁ := by simp [installTrans, hlh]
  rw [hnone, ok_bind]
  exact bwrite_ensures (hd ▸ h) (by simpa [written, hd, boot] using hclear _ (word_putHead_empty _))

theorem recoverFromLog_committed {power : Option ℕ} (hf : Fits start size l)
    (hl : l.length ≤ LOGSIZE) (h : Committed start size old new l d) :
    Ensures (fun m ↦ After start size old new l m.disk)
      (Crashed fun m ↦ Committed start size old new l m.disk)
      (recoverFromLog start (boot d power)) := by
  refine Ensures.bind (readHead_ensures h.header hl) (fun m₁ ⟨hlh, hd, hc⟩ ↦ ?_)
  refine ((installTrans_ensures hlh hf (by simpa [hd, boot] using h)
    (by simpa [hc, boot] using h.logged)).weaken fun e he ↦ ?_).bind
    (fun m₂ ⟨⟨hcom, _⟩, hall⟩ ↦ bwrite_ensures hcom (hcom.clear hf hall (word_putHead_empty _)))
  cases e with
  | crash m' => exact he.1
  | overflow => exact he

theorem bwrite_power {b : ℕ} (h : m.power = none) :
    Ensures (fun m' ↦ m'.power = none) (fun e ↦ e = .overflow) (m.bwrite b data) := by
  simp [bwrite, h, written, Ensures]

theorem recoverFromLog_power (h : m.power = none) :
    Ensures (fun m' ↦ m'.power = none) (fun e ↦ e = .overflow) (recoverFromLog start m) := by
  refine Ensures.through (fun m' ↦ m'.power = none) ?_ (fun m₁ h₁ ↦ Ensures.through
    (fun m' ↦ m'.power = none) ?_ (fun m₂ h₂ ↦ bwrite_power h₂))
  · simp only [readHead]
    split
    · exact h
    · rfl
  · exact Ensures.exec_prefix (fun _ (m' : Machine) ↦ m'.power = none) (fun _ _ _ _ _ h' ↦ bwrite_power h') h₁

theorem recovers_invariant {I : Image → Prop} {d' : Image}
    (hrun : ∀ d power, I d → Ensures (fun m ↦ I m.disk) (Crashed fun m ↦ I m.disk)
      (recoverFromLog start (boot d power)))
    (h : I d) (hr : Relation.ReflTransGen (Recovers start) d d') : I d' := by
  induction hr with
  | refl => exact h
  | tail _ hstep ih =>
    obtain ⟨power, m, he | he, rfl⟩ := hstep
    · exact (hrun _ power ih).of_ok he
    · exact (hrun _ power ih).of_error he

theorem recovers_before {d' : Image} (hs : 0 < size) (h : Before start size old d)
    (hr : Relation.ReflTransGen (Recovers start) d d') : Before start size old d' :=
  recovers_invariant (fun _ _ h ↦ recoverFromLog_empty _ h h.header (fun _ hd ↦ h.clear hs hd)) h hr

theorem recoverFromLog_new (power : Option ℕ) (hf : Fits start size l) (hl : l.length ≤ LOGSIZE)
    (h : Committed start size old new l d ∨ After start size old new l d) :
    Ensures (fun m ↦ After start size old new l m.disk)
      (Crashed fun m ↦ Committed start size old new l m.disk ∨ After start size old new l m.disk)
      (recoverFromLog start (boot d power)) := by
  have hs := hf.room
  rcases h with h | h
  · refine (recoverFromLog_committed hf hl h).weaken (fun e he ↦ ?_)
    cases e with
    | crash m => exact .inl he
    | overflow => exact he
  · refine (recoverFromLog_empty _ h h.header fun _ hd ↦ h.clear (by omega) hd).weaken (fun e he ↦ ?_)
    cases e with
    | crash m => exact .inr he
    | overflow => exact he

theorem recoverFromLog_completes {I J : Machine → Prop}
    (h : Ensures I (Crashed J) (recoverFromLog start (boot d none))) :
    ∃ m, recoverFromLog start (boot d none) = .ok m := by
  cases he : recoverFromLog start (boot d none) with
  | ok m => exact ⟨m, rfl⟩
  | error e =>
    cases (recoverFromLog_power (by rfl)).of_error he
    exact (h.of_error he).elim

end

end Machine

attribute [local irreducible] Machine.headCount

open Machine in
/-- A commit that is cut off by a crash is all or nothing: whatever recoveries follow, and
wherever they are cut off, the one that completes leaves the disk as it was before the
transaction, or as the transaction leaves it if the header of the transaction has been written,
which it has when the commit returns. -/
theorem commit_crash_atomic {start size : ℕ} {m m₁ : Machine} (hheader : word (m.disk start) 0 = 0)
    (hn : m.lh.block ≠ []) (hf : Fits start size m.lh.block) (hw : m.writes = [])
    (hcommit : m.commit start = .ok m₁ ∨ m.commit start = .error (.crash m₁)) {d : Image}
    (hr : Relation.ReflTransGen (Recovers start) m₁.disk d) :
    (m.commit start = .ok m₁ → start ∈ m₁.writes) ∧
    (∃ m₂, recoverFromLog start (boot d none) = .ok m₂) ∧
    ∀ power m₂, recoverFromLog start (boot d power) = .ok m₂ →
      word (m₂.disk start) 0 = 0 ∧
      ∀ b, ¬ InLog start size b → m₂.disk b =
        if start ∈ m₁.writes ∧ b ∈ m.lh.block then m.cache b else m.disk b := by
  have hs := hf.room
  have hbefore : Before start size m.disk m.disk := ⟨hheader, fun _ _ ↦ rfl⟩
  have hcut := commit_ensures hn hf hbefore hw
  refine ⟨fun he ↦ (hcut.of_ok he).2, ?_⟩
  have hphase : Before start size m.disk m₁.disk ∧ start ∉ m₁.writes ∨
      (Committed start size m.disk m.cache m.lh.block m₁.disk ∨
        After start size m.disk m.cache m.lh.block m₁.disk) ∧ start ∈ m₁.writes := by
    rcases hcommit with he | he
    · exact .inr ⟨.inr (hcut.of_ok he).1, (hcut.of_ok he).2⟩
    · rcases hcut.of_error he with h | h
      · exact .inl h
      · exact .inr ⟨.inl h.1, h.2⟩
  rcases hphase with ⟨h, hno⟩ | ⟨h, hyes⟩
  · have hd := recovers_before (by omega) h hr
    have hrun := fun power ↦ recoverFromLog_empty power hd hd.header
      (fun _ hz ↦ hd.clear (by omega) hz)
    refine ⟨recoverFromLog_completes (hrun none), fun power m₂ he ↦ ?_⟩
    have hend := (hrun power).of_ok he
    refine ⟨hend.header, fun b hb ↦ ?_⟩
    rw [hend.outside b hb, if_neg (fun hc ↦ hno hc.1)]
  · have hd := recovers_invariant (fun d power h ↦ (recoverFromLog_new power hf
      m.lh.length_le h).mono (fun _ ↦ .inr)) h hr
    refine ⟨recoverFromLog_completes (recoverFromLog_new _ hf m.lh.length_le hd),
      fun power m₂ he ↦ ?_⟩
    have hend := (recoverFromLog_new _ hf m.lh.length_le hd).of_ok he
    refine ⟨hend.header, fun b hb ↦ ?_⟩
    rw [hend.outside b hb]
    simp [hyes]

open Machine in
theorem commit_crash_atomic_headerWritten :
    ∃ m m₁ : Machine, word (m.disk 2) 0 = 0 ∧ m.lh.block = [7] ∧ m.power = some 2 ∧
      m.cache 7 ≠ m.disk 7 ∧ m.commit 2 = .error (.crash m₁) ∧ m₁.disk 7 = m.disk 7 ∧
      ∃ m₂, recoverFromLog 2 (boot m₁.disk none) = .ok m₂ ∧ m₂.disk 7 = m.cache 7 ∧
        m₂.disk 8 = m.disk 8 := by
  let zero : Block := fun _ ↦ 0
  let m : Machine := ⟨fun _ ↦ zero, fun _ ↦ fun _ ↦ 1, ⟨[7], by decide, by decide⟩, some 2, []⟩
  let m₁ := (m.written 3 (fun _ ↦ 1)).written 2 (putHead m.lh fun _ ↦ 1)
  have hz : word (m.disk 2) 0 = 0 := by decide
  have hf : Fits 2 3 m.lh.block := ⟨by simp [m], by simp [m], by simp [m, InLog]⟩
  have he : m.commit 2 = .error (.crash m₁) := rfl
  obtain ⟨_, ⟨m₂, hm₂⟩, hall⟩ :=
    commit_crash_atomic (d := m₁.disk) hz (by simp [m]) hf rfl (.inr he) .refl
  have hend := (hall none m₂ hm₂).2
  have hhead : 2 ∈ m₁.writes := by simp [m₁, written]
  have hne : m.cache 7 ≠ m.disk 7 := fun h ↦ absurd (congrFun h ⟨0, by decide⟩) (by decide)
  refine ⟨m, m₁, hz, rfl, rfl, hne, he, rfl, m₂, hm₂, ?_, ?_⟩
  · rw [hend 7 (by simp [InLog]), if_pos ⟨hhead, by simp [m]⟩]
  · rw [hend 8 (by simp [InLog]), if_neg (by simp [m])]

end Xv6Bfs.Log

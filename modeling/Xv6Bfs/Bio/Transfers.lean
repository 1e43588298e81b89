import Xv6Bfs.Bio.Invariant

namespace Xv6Bfs.Bio

open Lib.Execution Lib.FiniteSum Function

def IDE_DF : UInt8 := 0x20

def IDE_ERR : UInt8 := 0x01

/-- `idewait`, where `r` is the status that ends its loop. -/
def idewait (checkerr : Bool) (r : UInt8) : ℤ :=
  if checkerr ∧ r &&& (IDE_DF ||| IDE_ERR) ≠ 0 then -1 else 0

/-- A command for a block that the disk has ended: its status, and the data that were to be
transferred. -/
structure Transfer (D : Type) where
  dev : ℕ
  blockno : ℕ
  status : UInt8
  data : D
  deriving DecidableEq, Repr

def Transfer.Successful {D : Type} (t : Transfer D) : Prop := 0 ≤ idewait true t.status

instance Transfer.decidableSuccessful {D : Type} (t : Transfer D) : Decidable t.Successful :=
  inferInstanceAs (Decidable (0 ≤ idewait true t.status))

/-- The disk ends a command, or a call of `bread` returns. -/
inductive Event (D : Type)
  | transfer (t : Transfer D)
  | bread (dev blockno : ℕ) (data : D)
  deriving DecidableEq, Repr

def last {D : Type} (dev blockno : ℕ) : List (Event D) → Option (Transfer D)
  | [] => none
  | .transfer t :: l => if t.dev = dev ∧ t.blockno = blockno then some t else last dev blockno l
  | .bread _ _ _ :: l => last dev blockno l

def transferred {D : Type} (dev blockno : ℕ) : List (Event D) → Option D
  | [] => none
  | .transfer t :: l =>
    if (t.dev = dev ∧ t.blockno = blockno) ∧ t.Successful then some t.data
    else transferred dev blockno l
  | .bread _ _ _ :: l => transferred dev blockno l

/-- The buffer cache with the history of the disk. `sent` is what `idestart` has sent along with the
command for the first buffer of the queue, if it is a write. A buffer is changed from the moment at
which its holder puts other data into it to its `bwrite`, and `reading` is the block that a process
has called `bread` for. -/
structure World (P D : Type) where
  cache : State P D
  sent : Option D
  changed : Fin NBUF → Bool
  reading : P → Option (ℕ × ℕ)
  log : List (Event D)

inductive Op (P D : Type)
  | call (a : Act P D)
  | complete (status : UInt8) (data : D)

def State.outgoing {P D : Type} (s : State P D) : Option D :=
  s.idequeue.head?.bind fun b ↦ if (s.buf b).dirty then some (s.buf b).data else none

namespace World

section

variable {P D : Type} [DecidableEq P]

def returns (w : World P D) (p : P) (b : Fin NBUF) (cache : State P D) : World P D :=
  match w.reading p with
  | some (dev, blockno) =>
    { w with
      cache := cache
      reading := update w.reading p none
      log := .bread dev blockno (cache.buf b).data :: w.log }
  | none => { w with cache := cache }

/-- `iderw` has put a buffer into the queue, and calls `idestart` if it is the first one. -/
def enqueues (w : World P D) (cache : State P D) : World P D :=
  { w with cache := cache, sent := if w.cache.idequeue = [] then cache.outgoing else w.sent }

/-- A step of a process. The holder of a buffer gives it back only when it is not changed. -/
def call (havedisk1 : Bool) (w : World P D) (a : Act P D) : Except Stop (World P D) := do
  let cache ← a.step havedisk1 w.cache
  match a with
  | .bget p dev blockno =>
    .ok { w with cache := cache, reading := update w.reading p (some (dev, blockno)) }
  | .bread p =>
    match w.cache.pc p with
    | .bread b => .ok (if (w.cache.buf b).valid then w.returns p b cache else w.enqueues cache)
    | _ => .error .disabled
  | .iderw p =>
    match w.cache.pc p with
    | .iderw b => .ok (w.returns p b cache)
    | _ => .error .disabled
  | .modify _ b _ => .ok { w with cache := cache, changed := update w.changed b true }
  | .bwrite _ b => .ok { w.enqueues cache with changed := update w.changed b false }
  | .releasesleep _ b => if w.changed b then .error .disabled else .ok { w with cache := cache }
  | .acquiresleep _ | .brelse _ => .ok { w with cache := cache }
  | .logWrite _ _ | .ideintr _ => .error .disabled

/-- The disk ends its command with the status, and hands out the data if it is a read. -/
def complete (w : World P D) (status : UInt8) (data : D) : Except Stop (World P D) :=
  match w.cache.idequeue with
  | [] => .ok w
  | b :: _ => do
    let t : Transfer D :=
      ⟨(w.cache.buf b).dev, (w.cache.buf b).blockno, status, w.sent.getD data⟩
    let cache ← w.cache.ideintr (if 0 ≤ idewait true status then some data else none)
    .ok { w with cache := cache, sent := cache.outgoing, log := .transfer t :: w.log }

def step (havedisk1 : Bool) (o : Op P D) (w : World P D) : Except Stop (World P D) :=
  match o with
  | .call a => w.call havedisk1 a
  | .complete status data => w.complete status data

def boot (data : D) : World P D := ⟨.boot data, none, fun _ ↦ false, fun _ ↦ none, []⟩

/-- All that a step of a process can do. -/
inductive Move (w : World P D) : World P D → Prop
  | found (p b) (hp : w.cache.pc p = .idle) (hd : (w.cache.buf b).dev ≠ 0) : Move w
      { w with
        cache := (w.cache.setBuf b
          { w.cache.buf b with refcnt := (w.cache.buf b).refcnt + 1 }).goto p (.bget b)
        reading := update w.reading p (some ((w.cache.buf b).dev, (w.cache.buf b).blockno)) }
  | recycled (p b dev blockno) (hp : w.cache.pc p = .idle) (hd : dev ≠ 0)
      (href : (w.cache.buf b).refcnt = 0) : Move w
      { w with
        cache := (w.cache.setBuf b { w.cache.buf b with
          dev := dev, blockno := blockno, valid := false, dirty := false, refcnt := 1 }).goto p (.bget b)
        reading := update w.reading p (some (dev, blockno)) }
  | acquired (p b) (hp : w.cache.pc p = .bget b) (hl : (w.cache.buf b).lock = none) : Move w
      { w with cache :=
          (w.cache.setBuf b { w.cache.buf b with lock := some p }).goto p (.bread b) }
  | hit (p b) (hp : w.cache.pc p = .bread b) (hv : (w.cache.buf b).valid = true) :
      Move w (w.returns p b (w.cache.goto p .idle))
  | read (p b) (hp : w.cache.pc p = .bread b) (hv : (w.cache.buf b).valid = false) : Move w
      (w.enqueues { w.cache.goto p (.iderw b) with idequeue := w.cache.idequeue ++ [b] })
  | modified (p b data) (hp : w.cache.pc p = .idle) (hl : (w.cache.buf b).lock = some p) : Move w
      { w with
        cache := w.cache.setBuf b { w.cache.buf b with data := data }
        changed := update w.changed b true }
  | write (p b) (hp : w.cache.pc p = .idle) (hl : (w.cache.buf b).lock = some p) : Move w
      { w.enqueues { (w.cache.setBuf b { w.cache.buf b with dirty := true }).goto p (.iderw b) with
          idequeue := w.cache.idequeue ++ [b] } with
        changed := update w.changed b false }
  | done (p b) (hp : w.cache.pc p = .iderw b) (hv : (w.cache.buf b).valid = true)
      (hd : (w.cache.buf b).dirty = false) : Move w (w.returns p b (w.cache.goto p .idle))
  | released (p b) (hp : w.cache.pc p = .idle) (hl : (w.cache.buf b).lock = some p)
      (hc : w.changed b = false) : Move w
      { w with cache := (w.cache.setBuf b { w.cache.buf b with lock := none }).goto p (.brelse b) }
  | brelse (p b) (hp : w.cache.pc p = .brelse b) : Move w { w with cache := w.cache.brelse p b }

theorem returns_cache (w : World P D) (p : P) (b : Fin NBUF) (s : State P D) :
    (w.returns p b s).cache = s ∧ (w.returns p b s).changed = w.changed := by
  unfold returns
  split
  · exact ⟨rfl, rfl⟩
  · exact ⟨rfl, rfl⟩

theorem returns_reading (w : World P D) (p : P) (b : Fin NBUF) (s : State P D) :
    (w.returns p b s).reading = update w.reading p none := by
  unfold returns
  split
  · rfl
  · rename_i hnone
    rw [← hnone, update_eq_self]

theorem brelse_buf (s : State P D) (p : P) (b : Fin NBUF) :
    (s.brelse p b).buf = update s.buf b { s.buf b with refcnt := (s.buf b).refcnt - 1 } ∧
      (s.brelse p b).idequeue = s.idequeue := by
  simp only [State.brelse]
  split
  · exact ⟨rfl, rfl⟩
  · exact ⟨rfl, rfl⟩

theorem brelse_pc (s : State P D) (p : P) (b : Fin NBUF) :
    (s.brelse p b).pc = update s.pc p .idle := by
  simp only [State.brelse]
  split
  · rfl
  · rfl

end

variable {P D : Type} {w w' : World P D} {s s' : State P D} {p : P} {b : Fin NBUF} {v : Buf P D}

/-- A buffer in the queue belongs to a process that waits in `iderw`, and is not in step with the
disk. A dirty buffer is in the queue, and a changed one has a holder that is not in `bread` or
`iderw` for it. -/
structure Orderly (w : World P D) : Prop where
  used : ∀ b, 0 < (w.cache.buf b).refcnt ∨ (w.cache.buf b).valid = true → (w.cache.buf b).dev ≠ 0
  nodup : w.cache.idequeue.Nodup
  queued : ∀ b ∈ w.cache.idequeue, ∃ p, w.cache.pc p = .iderw b
  waits : ∀ b ∈ w.cache.idequeue, (w.cache.buf b).valid = true → (w.cache.buf b).dirty = true
  dirty : ∀ b, (w.cache.buf b).dirty = true → b ∈ w.cache.idequeue
  unchanged : ∀ p b, w.cache.pc p = .bread b ∨ w.cache.pc p = .iderw b → w.changed b = false
  free : ∀ b, (w.cache.buf b).lock = none → w.changed b = false

theorem Orderly.clean (h : Orderly w) (hb : b ∉ w.cache.idequeue) :
    (w.cache.buf b).dirty = false := by
  cases hd : (w.cache.buf b).dirty with
  | false => rfl
  | true => exact absurd (h.dirty b hd) hb

def Asked (w : World P D) : Prop :=
  ∀ p x, w.reading p = some x → ∃ b, (w.cache.pc p = .bget b ∨ w.cache.pc p = .bread b ∨
    w.cache.pc p = .iderw b) ∧ x = ((w.cache.buf b).dev, (w.cache.buf b).blockno)

theorem Asked.block (h : Asked w) {x : ℕ × ℕ} (hx : w.reading p = some x)
    (hp : w.cache.pc p = .bget b ∨ w.cache.pc p = .bread b ∨ w.cache.pc p = .iderw b) :
    x = ((w.cache.buf b).dev, (w.cache.buf b).blockno) := by
  obtain ⟨b', hb', rfl⟩ := h p x hx
  rcases hp with hp | hp | hp
  all_goals
    rw [hp] at hb'
    simp only [reduceCtorEq, Pc.bget.injEq, Pc.bread.injEq, Pc.iderw.injEq, false_or, or_false] at hb'
    rw [hb']

theorem Asked.silent (h : Asked w) (hp : w.cache.pc p = .idle ∨ w.cache.pc p = .brelse b)
    (x : ℕ × ℕ) : w.reading p ≠ some x := by
  intro hx
  obtain ⟨b', hb', rfl⟩ := h p x hx
  rcases hp with hp | hp
  all_goals simp [hp] at hb'

section

variable [Fintype P]

theorem refcnt_pos (hinv : Inv s) (h : (s.buf b).lock ≠ none) : 0 < (s.buf b).refcnt := by
  rw [hinv.refcnt b, State.callers, if_neg h]
  omega

theorem Orderly.not_queued (h : Orderly w) (hinv : Inv w.cache)
    (hl : (w.cache.buf b).lock = some p) (hp : w.cache.pc p ≠ .iderw b) :
    b ∉ w.cache.idequeue := by
  intro hb
  obtain ⟨q, hq⟩ := h.queued b hb
  have hown := hinv.owner q b (.inr hq)
  rw [hl] at hown
  obtain rfl := Option.some.inj hown
  exact hp hq

end

theorem idestart_ok (h : s.idestart b = .ok s') : s' = s := by
  obtain ⟨_, -, h⟩ := bind_eq_ok.mp h
  cases h
  rfl

variable [DecidableEq P]

theorem iderw_ok {havedisk1 : Bool} (h : s.iderw havedisk1 p b = .ok s') : (s.buf b).lock = some p ∧
      s' = { s.goto p (.iderw b) with idequeue := s.idequeue ++ [b] } := by
  obtain ⟨_, hok, h⟩ := bind_eq_ok.mp h
  refine ⟨((Ide.Buf.iderw_ensures _ havedisk1 p).of_ok (mapError_eq_ok.mp hok)).1, ?_⟩
  simp only at h
  split_ifs at h
  · exact idestart_ok h
  · cases h
    rfl

theorem Move.of_bget [Fintype P] {dev blockno : ℕ} (hinv : Inv w.cache)
    (hp : w.cache.pc p = .idle) (hd : dev ≠ 0) (h : w.cache.bget p dev blockno = .ok s) :
    Move w { w with cache := s, reading := update w.reading p (some (dev, blockno)) } := by
  obtain ⟨l, hl, hall⟩ := hinv.circular
  unfold State.bget at h
  rcases search_cases hl hall (w.cache.isBlock dev blockno) rfl with ⟨b, hs, htest⟩ | ⟨hs, -⟩
  · rw [hs] at h
    cases h
    obtain ⟨rfl, rfl⟩ : (w.cache.buf b).dev = dev ∧ (w.cache.buf b).blockno = blockno := by
      simpa [State.isBlock] using htest
    exact .found p b hp hd
  · rw [hs] at h
    have hall' : ∀ b : Fin NBUF, some b ∈ l.reverse := by simpa using hall
    rcases search_cases hl.reverse hall' w.cache.isUnused rfl with ⟨b, hs', htest⟩ | ⟨hs', -⟩
    · simp only [hs'] at h
      cases h
      have hunused : (w.cache.buf b).refcnt = 0 ∧ (w.cache.buf b).dirty = false := by
        simpa [State.isUnused] using htest
      exact .recycled p b dev blockno hp hd hunused.1
    · simp only [hs'] at h
      cases h

theorem Move.of_call [Fintype P] {havedisk1 : Bool} {a : Act P D} (hinv : Inv w.cache)
    (h : w.call havedisk1 a = .ok w') : Move w w' := by
  obtain ⟨s, hs, h⟩ := bind_eq_ok.mp h
  cases a with
  | bget p dev blockno =>
    simp only [Act.step] at hs
    split_ifs at hs with hok
    cases h
    exact .of_bget hinv hok.1 hok.2 hs
  | acquiresleep p =>
    simp only [Act.step] at hs
    split at hs
    · rename_i b hp
      unfold State.acquiresleep at hs
      split_ifs at hs with hl
      cases hs
      cases h
      exact .acquired p b hp hl
    · cases hs
  | bread p =>
    simp only [Act.step] at hs
    split at hs
    · rename_i b hp
      simp only [hp] at h
      unfold State.bread at hs
      cases hv : (w.cache.buf b).valid with
      | false =>
        rw [hv, if_pos rfl] at hs
        rw [hv] at h
        obtain ⟨-, rfl⟩ := iderw_ok hs
        cases h
        exact .read p b hp hv
      | true =>
        rw [hv, if_neg (by simp)] at hs
        rw [hv] at h
        cases hs
        cases h
        exact .hit p b hp hv
    · cases hs
  | modify p b data =>
    simp only [Act.step] at hs
    split_ifs at hs with hok
    cases hs
    cases h
    exact .modified p b data hok.1 hok.2
  | logWrite => cases h
  | bwrite p b =>
    simp only [Act.step] at hs
    split_ifs at hs with hp
    unfold State.bwrite at hs
    split_ifs at hs with hl
    obtain ⟨-, rfl⟩ := iderw_ok hs
    cases h
    exact .write p b hp (not_not.mp hl)
  | ideintr => cases h
  | iderw p =>
    simp only [Act.step] at hs
    split at hs
    · rename_i b hp
      simp only [hp] at h
      split_ifs at hs with hok
      cases hs
      cases h
      rw [Ide.Buf.synced, Bool.and_eq_true, Bool.not_eq_true'] at hok
      exact .done p b hp hok.1 hok.2
    · cases hs
  | releasesleep p b =>
    simp only [Act.step] at hs
    split_ifs at hs with hp
    unfold State.releasesleep at hs
    split_ifs at hs with hl
    cases hs
    simp only at h
    split_ifs at h with hc
    cases h
    exact .released p b hp (not_not.mp hl) (by simpa using hc)
  | brelse p =>
    simp only [Act.step] at hs
    split at hs
    · rename_i b hp
      cases hs
      cases h
      exact .brelse p b hp
    · cases hs

theorem Orderly.of_update (h : Orderly w) {pc : Pc} {c : Bool}
    (hbuf : w'.cache.buf = update w.cache.buf b v) (hpc : w'.cache.pc = update w.cache.pc p pc)
    (hchanged : w'.changed = update w.changed b c) (hnodup : w'.cache.idequeue.Nodup)
    (hmem : ∀ b', b' ≠ b → b' ∈ w'.cache.idequeue → b' ∈ w.cache.idequeue)
    (hmem' : ∀ b' ∈ w.cache.idequeue, b' ≠ b → b' ∈ w'.cache.idequeue)
    (hused : 0 < v.refcnt ∨ v.valid = true → v.dev ≠ 0)
    (hqueued : b ∈ w'.cache.idequeue → ∃ q, w'.cache.pc q = .iderw b)
    (hleave : ∀ b' ∈ w'.cache.idequeue, w.cache.pc p = .iderw b' → pc = .iderw b')
    (hwaits : b ∈ w'.cache.idequeue → v.valid = true → v.dirty = true)
    (hdirty : v.dirty = true → b ∈ w'.cache.idequeue)
    (hgo : ∀ b', pc = .bread b' ∨ pc = .iderw b' → w.cache.pc p = pc ∨ w'.changed b' = false)
    (hchange : ∀ q, w.cache.pc q = .bread b ∨ w.cache.pc q = .iderw b → c = false)
    (hfree : v.lock = none → c = false) : Orderly w' where
  used b' := by
    rw [hbuf]
    rcases eq_or_ne b' b with rfl | hne
    · rw [update_self]
      exact hused
    · rw [update_of_ne hne]
      exact h.used b'
  nodup := hnodup
  queued b' hb' := by
    rcases eq_or_ne b' b with rfl | hne
    · exact hqueued hb'
    · obtain ⟨q, hq⟩ := h.queued b' (hmem b' hne hb')
      refine ⟨q, ?_⟩
      rw [hpc]
      rcases eq_or_ne q p with rfl | hqp
      · rw [update_self, hleave b' hb' hq]
      · rw [update_of_ne hqp, hq]
  waits b' hb' := by
    rw [hbuf]
    rcases eq_or_ne b' b with rfl | hne
    · rw [update_self]
      exact hwaits hb'
    · rw [update_of_ne hne]
      exact h.waits b' (hmem b' hne hb')
  dirty b' hd := by
    rw [hbuf] at hd
    rcases eq_or_ne b' b with rfl | hne
    · rw [update_self] at hd
      exact hdirty hd
    · rw [update_of_ne hne] at hd
      exact hmem' b' (h.dirty b' hd) hne
  unchanged q b' hq := by
    have hold (hq : w.cache.pc q = .bread b' ∨ w.cache.pc q = .iderw b') : w'.changed b' = false := by
      rw [hchanged]
      rcases eq_or_ne b' b with rfl | hne
      · rw [update_self]
        exact hchange q hq
      · rw [update_of_ne hne]
        exact h.unchanged q b' hq
    rw [hpc] at hq
    rcases eq_or_ne q p with rfl | hqp
    · rw [update_self] at hq
      rcases hgo b' hq with hsame | hfalse
      · rw [← hsame] at hq
        exact hold hq
      · exact hfalse
    · rw [update_of_ne hqp] at hq
      exact hold hq
  free b' hl := by
    rw [hbuf] at hl
    rw [hchanged]
    rcases eq_or_ne b' b with rfl | hne
    · rw [update_self] at hl ⊢
      exact hfree hl
    · rw [update_of_ne hne] at hl ⊢
      exact h.free b' hl

theorem Orderly.of_same (h : Orderly w) {pc : Pc}
    (hbuf : w'.cache.buf = update w.cache.buf b v) (hpc : w'.cache.pc = update w.cache.pc p pc)
    (hchanged : w'.changed = w.changed) (hqueue : w'.cache.idequeue = w.cache.idequeue)
    (hflags : v.valid = (w.cache.buf b).valid ∧ v.dirty = (w.cache.buf b).dirty)
    (hused : 0 < v.refcnt ∨ v.valid = true → v.dev ≠ 0)
    (hleave : ∀ b' ∈ w.cache.idequeue, w.cache.pc p ≠ .iderw b')
    (hgo : ∀ b', pc = .bread b' ∨ pc = .iderw b' → w.changed b' = false)
    (hfree : v.lock = none → w.changed b = false) : Orderly w' := by
  refine h.of_update (c := w.changed b) hbuf hpc (by rw [hchanged, update_eq_self]) (hqueue ▸ h.nodup)
    (fun b' _ hb' ↦ hqueue ▸ hb') (fun b' hb' _ ↦ hqueue ▸ hb') hused (fun hb ↦ ?_)
    (fun b' hb' hp ↦ absurd hp (hleave b' (hqueue ▸ hb'))) (fun hb hv ↦ ?_) (fun hd ↦ ?_)
    (fun b' hb' ↦ .inr (hchanged ▸ hgo b' hb')) (fun q hq ↦ h.unchanged q b hq) hfree
  · rw [hqueue] at hb
    obtain ⟨q, hq⟩ := h.queued b hb
    have hne : q ≠ p := fun he ↦ hleave b hb (he ▸ hq)
    exact ⟨q, by rw [hpc, update_of_ne hne, hq]⟩
  · rw [hflags.2]
    rw [hflags.1] at hv
    exact h.waits b (hqueue ▸ hb) hv
  · rw [hqueue]
    exact h.dirty b (hflags.2 ▸ hd)

theorem Orderly.enqueue (h : Orderly w) (hb : b ∉ w.cache.idequeue)
    (hbuf : w'.cache.buf = update w.cache.buf b v)
    (hpc : w'.cache.pc = update w.cache.pc p (.iderw b))
    (hqueue : w'.cache.idequeue = w.cache.idequeue ++ [b])
    (hchanged : w'.changed = update w.changed b false) (hp : ∀ b', w.cache.pc p ≠ .iderw b')
    (hused : 0 < v.refcnt ∨ v.valid = true → v.dev ≠ 0) (hwaits : v.valid = true → v.dirty = true) :
    Orderly w' := by
  have hmem (b' : Fin NBUF) : b' ∈ w'.cache.idequeue ↔ b' ∈ w.cache.idequeue ∨ b' = b := by
    rw [hqueue, List.mem_append, List.mem_singleton]
  refine h.of_update hbuf hpc hchanged ?_ (fun b' hne hb' ↦ ((hmem b').mp hb').resolve_right hne)
    (fun b' hb' _ ↦ (hmem b').mpr (.inl hb')) hused (fun _ ↦ ⟨p, by rw [hpc, update_self]⟩)
    (fun b' _ hp' ↦ absurd hp' (hp b')) (fun _ ↦ hwaits) (fun _ ↦ (hmem b).mpr (.inr rfl))
    (fun b' hb' ↦ .inr ?_) (fun _ _ ↦ rfl) (fun _ ↦ rfl)
  · rw [hqueue]
    exact List.nodup_append.mpr ⟨h.nodup, List.nodup_singleton b, fun b₁ h₁ b₂ h₂ he ↦
      hb (List.mem_singleton.mp h₂ ▸ he ▸ h₁)⟩
  · rcases hb' with hb' | hb'
    · cases hb'
    · cases hb'
      rw [hchanged, update_self]

theorem Orderly.returns (h : Orderly w) (hb : b ∉ w.cache.idequeue)
    (hp : w.cache.pc p = .bread b ∨ w.cache.pc p = .iderw b) :
    Orderly (w.returns p b (w.cache.goto p .idle)) := by
  obtain ⟨hcache, hchanged⟩ := returns_cache w p b (w.cache.goto p .idle)
  have hbuf : (w.returns p b (w.cache.goto p .idle)).cache.buf =
      update w.cache.buf b (w.cache.buf b) := by
    rw [hcache, update_eq_self]
    rfl
  have hpc : (w.returns p b (w.cache.goto p .idle)).cache.pc = update w.cache.pc p .idle := by
    rw [hcache]
    rfl
  refine h.of_same hbuf hpc hchanged ?_ ⟨rfl, rfl⟩ (h.used b) (fun b' hb' hp' ↦ ?_) (by simp) (h.free b)
  · rw [hcache]
    rfl
  · rcases hp with hp | hp
    · rw [hp] at hp'
      cases hp'
    · rw [hp] at hp'
      cases hp'
      exact hb hb'

variable [Fintype P]

theorem Move.orderly (hm : Move w w') (hinv : Inv w.cache) (h : Orderly w) : Orderly w' := by
  cases hm with
  | found p b hp hd =>
    exact h.of_same rfl rfl rfl rfl ⟨rfl, rfl⟩ (fun _ ↦ hd) (by simp [hp]) (by simp) (h.free b)
  | recycled p b dev blockno hp hd href =>
    have hl : (w.cache.buf b).lock = none := by
      by_contra hl
      exact (refcnt_pos hinv hl).ne' href
    have hb : b ∉ w.cache.idequeue := by
      intro hb
      obtain ⟨q, hq⟩ := h.queued b hb
      have hown := hinv.owner q b (.inr hq)
      rw [hl] at hown
      cases hown
    refine h.of_update (c := w.changed b) rfl rfl (update_eq_self b w.changed).symm h.nodup
      (fun _ _ ↦ id) (fun _ hb' _ ↦ hb') (fun _ ↦ hd) (fun hb' ↦ absurd hb' hb) (by simp [hp])
      (fun hb' ↦ absurd hb' hb) nofun (by simp) (fun q hq ↦ h.unchanged q b hq) (h.free b)
  | acquired p b hp hl =>
    exact h.of_same rfl rfl rfl rfl ⟨rfl, rfl⟩ (h.used b) (by simp [hp]) (by simpa using h.free b hl)
      nofun
  | hit p b hp hv =>
    exact h.returns (h.not_queued hinv (hinv.owner p b (.inl hp)) (by simp [hp])) (.inl hp)
  | read p b hp hv =>
    have hl := hinv.owner p b (.inl hp)
    refine h.enqueue (v := w.cache.buf b) (h.not_queued hinv hl (by simp [hp]))
      (update_eq_self b w.cache.buf).symm rfl rfl ?_ (by simp [hp]) (h.used b) (by simp [hv])
    rw [← h.unchanged p b (.inl hp), update_eq_self]
    rfl
  | modified p b data hp hl =>
    have hb := h.not_queued hinv hl (by simp [hp])
    have hpc : w.cache.pc = update w.cache.pc p .idle := by rw [← hp, update_eq_self]
    refine h.of_update rfl hpc rfl h.nodup (fun _ _ ↦ id) (fun _ hb' _ ↦ hb')
      (h.used b) (fun hb' ↦ absurd hb' hb) (by simp [hp]) (fun hb' ↦ absurd hb' hb) (h.dirty b)
      (by simp) (fun q hq ↦ ?_) (fun hl' ↦ ?_)
    · have hown := hinv.owner q b hq
      rw [hl] at hown
      obtain rfl := Option.some.inj hown
      simp [hp] at hq
    · change (w.cache.buf b).lock = none at hl'
      rw [hl] at hl'
      cases hl'
  | write p b hp hl =>
    exact h.enqueue (h.not_queued hinv hl (by simp [hp])) rfl rfl rfl rfl (by simp [hp]) (h.used b)
      (fun _ ↦ rfl)
  | done p b hp hv hd =>
    refine h.returns (fun hb ↦ ?_) (.inr hp)
    rw [h.waits b hb hv] at hd
    cases hd
  | released p b hp hl hc =>
    exact h.of_same rfl rfl rfl rfl ⟨rfl, rfl⟩ (h.used b) (by simp [hp]) (by simp) (fun _ ↦ hc)
  | brelse p b hp =>
    obtain ⟨hbuf, hqueue⟩ := brelse_buf w.cache p b
    refine h.of_same hbuf (brelse_pc w.cache p b) rfl hqueue ⟨rfl, rfl⟩ (fun hu ↦ h.used b ?_)
      (by simp [hp]) (by simp) (h.free b)
    rcases hu with hu | hu
    · exact .inl (Nat.lt_of_lt_of_le hu (Nat.sub_le _ _))
    · exact .inr hu

theorem refcnt_pos_of_pc (hinv : Inv s)
    (h : s.pc p = .bget b ∨ s.pc p = .bread b ∨ s.pc p = .iderw b) : 0 < (s.buf b).refcnt := by
  rcases h with h | h
  · have hsum := sum_update_add (Finset.mem_univ p) (fun x ↦ x.counts b) s.pc .idle
    have hone : (s.pc p).counts b = 1 := if_pos (.inl h)
    have hidle : Pc.idle.counts b = 0 := by simp [Pc.counts]
    rw [hinv.refcnt b, State.callers]
    omega
  · exact refcnt_pos hinv (by simp [hinv.owner p b h])

theorem Asked.of_update (h : Asked w) (hinv : Inv w.cache) {pc : Pc}
    (hpc : w'.cache.pc = update w.cache.pc p pc) (hread : ∀ q, q ≠ p → w'.reading q = w.reading q)
    (hid : ∀ b, 0 < (w.cache.buf b).refcnt → (w'.cache.buf b).dev = (w.cache.buf b).dev ∧
      (w'.cache.buf b).blockno = (w.cache.buf b).blockno)
    (hself : ∀ x, w'.reading p = some x → ∃ b, (pc = .bget b ∨ pc = .bread b ∨ pc = .iderw b) ∧
      x = ((w'.cache.buf b).dev, (w'.cache.buf b).blockno)) : Asked w' := by
  intro q x hq
  rw [hpc]
  rcases eq_or_ne q p with rfl | hne
  · rw [update_self]
    exact hself x hq
  · rw [hread q hne] at hq
    obtain ⟨b, hb, rfl⟩ := h q x hq
    obtain ⟨hdev, hblockno⟩ := hid b (refcnt_pos_of_pc hinv hb)
    exact ⟨b, by rwa [update_of_ne hne], by rw [hdev, hblockno]⟩

theorem Asked.returns (h : Asked w) (hinv : Inv w.cache) :
    Asked (w.returns p b (w.cache.goto p .idle)) := by
  obtain ⟨hcache, -⟩ := returns_cache w p b (w.cache.goto p .idle)
  have hpc : (w.returns p b (w.cache.goto p .idle)).cache.pc = update w.cache.pc p .idle := by
    rw [hcache]
    rfl
  refine h.of_update hinv hpc (fun q hne ↦ ?_) (fun b' _ ↦ ?_) (fun x hx ↦ ?_)
  · rw [returns_reading, update_of_ne hne]
  · rw [hcache]
    exact ⟨rfl, rfl⟩
  · rw [returns_reading, update_self] at hx
    cases hx

theorem Move.asked (hm : Move w w') (hinv : Inv w.cache) (h : Asked w)
    (hid : ∀ b, 0 < (w.cache.buf b).refcnt → (w'.cache.buf b).dev = (w.cache.buf b).dev ∧
      (w'.cache.buf b).blockno = (w.cache.buf b).blockno) : Asked w' := by
  cases hm with
  | found p b | recycled p b =>
    refine h.of_update hinv rfl (fun q hne ↦ update_of_ne hne _ _) hid (fun x hx ↦ ⟨b, .inl rfl, ?_⟩)
    obtain rfl := Option.some.inj ((update_self p _ w.reading).symm.trans hx)
    simp [State.goto, State.setBuf]
  | acquired p b hp hl =>
    refine h.of_update hinv rfl (fun _ _ ↦ rfl) hid (fun x hx ↦ ⟨b, .inr (.inl rfl), ?_⟩)
    rw [h.block hx (.inl hp)]
    simp [State.goto, State.setBuf]
  | hit p b hp hv => exact h.returns hinv
  | read p b hp hv =>
    exact h.of_update hinv rfl (fun _ _ ↦ rfl) hid
      (fun x hx ↦ ⟨b, .inr (.inr rfl), h.block hx (.inr (.inl hp))⟩)
  | modified p b data hp hl =>
    have hpc : w.cache.pc = update w.cache.pc p .idle := by rw [← hp, update_eq_self]
    exact h.of_update hinv hpc (fun _ _ ↦ rfl) hid
      (fun x hx ↦ absurd hx (h.silent (b := b) (.inl hp) x))
  | write _ b hp | released _ b hp =>
    exact h.of_update hinv rfl (fun _ _ ↦ rfl) hid
      (fun x hx ↦ absurd hx (h.silent (b := b) (.inl hp) x))
  | done p b hp hv hd => exact h.returns hinv
  | brelse p b hp =>
    exact h.of_update hinv (brelse_pc w.cache p b) (fun _ _ ↦ rfl) hid
      (fun x hx ↦ absurd hx (h.silent (.inr hp) x))

end World

end Xv6Bfs.Bio

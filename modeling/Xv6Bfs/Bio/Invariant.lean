import Xv6Bfs.Bio.Cache
import Xv6Bfs.Lib.FiniteSum
import Mathlib.Data.Fintype.BigOperators
import Mathlib.Data.Set.List

namespace Xv6Bfs.Bio

open Lib.Execution Lib.LinkedChain Lib.CircularList Lib.FiniteSum Function

variable {P D : Type} {s s' : State P D} {p : P} {b : Fin NBUF}

/-- The process has been given the buffer by `bget` and waits for its lock, or it has given up the
lock and has not come to `refcnt--`. -/
def Pc.counts (pc : Pc) (b : Fin NBUF) : ℕ := if pc = .bget b ∨ pc = .brelse b then 1 else 0

/-- A buffer that is in use or dirty keeps its block. It stays dirty, and keeps its data, until a
process with the lock changes them or the disk has written them. -/
structure Keeps (a : Act P D) (s s' : State P D) : Prop where
  identity : ∀ b, 0 < (s.buf b).refcnt ∨ (s.buf b).dirty = true →
    (s'.buf b).dev = (s.buf b).dev ∧ (s'.buf b).blockno = (s.buf b).blockno
  dirty : ∀ b, (s.buf b).dirty = true → (s'.buf b).dirty = true ∨
    s.idequeue.head? = some b ∧ ∃ data, a = .ideintr data
  data : ∀ b, (s.buf b).dirty = true → (s'.buf b).data = (s.buf b).data ∨
    ∃ p data, (s.buf b).lock = some p ∧ a = .modify p b data

theorem Keeps.of_update {a : Act P D} {v : Buf P D} (hbuf : s'.buf = update s.buf b v)
    (hid : 0 < (s.buf b).refcnt ∨ (s.buf b).dirty = true →
      v.dev = (s.buf b).dev ∧ v.blockno = (s.buf b).blockno)
    (hdirty : (s.buf b).dirty = true → v.dirty = true ∧ v.data = (s.buf b).data) : Keeps a s s' := by
  refine ⟨fun b' hb' ↦ ?_, fun b' hb' ↦ .inl ?_, fun b' hb' ↦ .inl ?_⟩ <;> rw [hbuf] <;>
    rcases eq_or_ne b' b with rfl | hne
  · rw [update_self]
    exact hid hb'
  · simp [hne]
  · rw [update_self]
    exact (hdirty hb').1
  · rwa [update_of_ne hne]
  · rw [update_self]
    exact (hdirty hb').2
  · rw [update_of_ne hne]

theorem Keeps.of_same {a : Act P D} (hbuf : s'.buf = s.buf) : Keeps a s s' := by
  refine ⟨fun b _ ↦ ?_, fun b hd ↦ .inl ?_, fun b _ ↦ .inl ?_⟩ <;> rw [hbuf]
  · exact ⟨rfl, rfl⟩
  · exact hd

variable [Fintype P]

/-- The number of callers that have got the buffer from `bget` and have not released it. -/
def State.callers (s : State P D) (b : Fin NBUF) : ℕ :=
  (∑ p, (s.pc p).counts b) + if (s.buf b).lock = none then 0 else 1

structure Inv (s : State P D) : Prop where
  circular : ∃ l, Circular s.links.next s.links.prev none l ∧ ∀ b : Fin NBUF, some b ∈ l
  unique : ∀ b b', (s.buf b).dev ≠ 0 → (s.buf b).dev = (s.buf b').dev →
    (s.buf b).blockno = (s.buf b').blockno → b = b'
  refcnt : ∀ b, (s.buf b).refcnt = s.callers b
  owner : ∀ p b, s.pc p = .bread b ∨ s.pc p = .iderw b → (s.buf b).lock = some p

theorem Inv.of_same (h : Inv s) (hlinks : s'.links = s.links)
    (hbuf : ∀ b, (s'.buf b).dev = (s.buf b).dev ∧ (s'.buf b).blockno = (s.buf b).blockno ∧
      (s'.buf b).refcnt = (s.buf b).refcnt ∧ (s'.buf b).lock = (s.buf b).lock)
    (hcount : ∀ p b, (s'.pc p).counts b = (s.pc p).counts b)
    (howner : ∀ p b, s'.pc p = .bread b ∨ s'.pc p = .iderw b → (s.buf b).lock = some p) : Inv s' := by
  refine ⟨hlinks ▸ h.circular, fun b₁ b₂ ↦ ?_, fun b ↦ ?_, fun p b hp ↦ ?_⟩
  · rw [(hbuf b₁).1, (hbuf b₁).2.1, (hbuf b₂).1, (hbuf b₂).2.1]
    exact h.unique b₁ b₂
  · have := h.refcnt b
    unfold State.callers at *
    simp only [(hbuf b).2.2.1, (hbuf b).2.2.2, hcount]
    exact this
  · rw [(hbuf b).2.2.2]
    exact howner p b hp

theorem Inv.setBuf (h : Inv s) {v : Buf P D} (hv : v.dev = (s.buf b).dev ∧ v.blockno = (s.buf b).blockno ∧
    v.refcnt = (s.buf b).refcnt ∧ v.lock = (s.buf b).lock) : Inv (s.setBuf b v) := by
  refine h.of_same rfl (fun b' ↦ ?_) (fun _ _ ↦ rfl) (fun q b' hq ↦ h.owner q b' hq)
  rcases eq_or_ne b' b with rfl | hne
  · simpa [State.setBuf] using hv
  · simp [State.setBuf, hne]

theorem Inv.idestart (h : Inv s) :
    Ensures (fun s' ↦ Inv s' ∧ s'.buf = s.buf) (fun e ↦ e ≠ .diverges) (s.idestart b) := by
  have hstart : Ensures (fun _ ↦ True) (fun _ ↦ True) (s.buf b).toBuf.idestart := ensures_true _
  exact (hstart.mapError fun _ _ ↦ Stop.noConfusion).bind fun _ _ ↦ ⟨h, rfl⟩

theorem Inv.ideintr (h : Inv s) (data : Option D) :
    Ensures (fun s' ↦ Inv s' ∧ Keeps (.ideintr data) s s') (fun e ↦ e ≠ .diverges)
      (s.ideintr data) := by
  unfold State.ideintr
  split
  · exact ⟨h, .of_same rfl⟩
  · rename_i b queue hqueue
    simp only
    generalize hv : s.served b data = v
    have hset : Inv { s.setBuf b v with idequeue := queue } := by
      have := h.setBuf (b := b) (v := v) (by simp [← hv, State.served, Ide.Buf.ideintr])
      exact ⟨this.circular, this.unique, this.refcnt, this.owner⟩
    have hkeeps : ∀ s', s'.buf = (s.setBuf b v).buf → Keeps (.ideintr data) s s' := by
      intro s' hs
      refine ⟨fun b' _ ↦ ?_, fun b' hd ↦ ?_, fun b' hd ↦ .inl ?_⟩ <;> rw [hs] <;>
        rcases eq_or_ne b' b with rfl | hne <;> simp only [State.setBuf, update_self]
      · simp [← hv, State.served, Ide.Buf.ideintr]
      · simp [hne]
      · exact .inr ⟨by simp [hqueue], data, rfl⟩
      · exact .inl (by rwa [update_of_ne hne])
      · simp [← hv, State.served, Ide.Buf.ideintr, hd]
      · simp [hne]
    cases queue with
    | nil => exact ⟨hset, hkeeps _ rfl⟩
    | cons b' queue => exact hset.idestart.mono fun s' hs ↦ ⟨hs.1, hkeeps s' hs.2⟩

theorem Links.unlink_eq (k : Links) (b : Fin NBUF) : k.unlink b =
    ⟨update k.next (k.prev (some b)) (k.next (some b)),
      update k.prev (k.next (some b)) (k.prev (some b))⟩ := by
  have h : update k.prev (k.next (some b)) (k.prev (some b)) (some b) = k.prev (some b) := by
    rw [update_apply]
    split <;> rfl
  simp only [Links.unlink, h]

theorem Links.linkFirst_eq (k : Links) (b : Fin NBUF) : k.linkFirst b =
    ⟨update (update k.next (some b) (k.next none)) none (some b),
      update (update k.prev (some b) none) (k.next none) (some b)⟩ := by
  simp [Links.linkFirst]

theorem Links.linkFirst_circular {k : Links} {l : List Ptr} (h : Circular k.next k.prev none l)
    (hb : some b ∉ l) : Circular (k.linkFirst b).next (k.linkFirst b).prev none (some b :: l) := by
  rw [Links.linkFirst_eq]
  exact h.cons (by simpa using hb)

theorem Links.moveFirst_circular {k : Links}
    (h : ∃ l, Circular k.next k.prev none l ∧ ∀ b : Fin NBUF, some b ∈ l) (b : Fin NBUF) :
    ∃ l, Circular ((k.unlink b).linkFirst b).next ((k.unlink b).linkFirst b).prev none l ∧
      ∀ b : Fin NBUF, some b ∈ l := by
  obtain ⟨l, hl, hall⟩ := h
  obtain ⟨l₁, l₂, rfl⟩ := List.append_of_mem (hall b)
  have hout : some b ∉ l₁ ++ l₂ := by
    have := hl.nodup
    simp only [List.nodup_cons, List.nodup_append, List.mem_append, List.mem_cons] at this ⊢
    grind
  refine ⟨some b :: (l₁ ++ l₂), Links.linkFirst_circular ?_ hout, fun b' ↦ ?_⟩
  · rw [Links.unlink_eq]
    exact hl.erase
  · have := hall b'
    simp only [List.mem_append, List.mem_cons] at this ⊢
    tauto

theorem Links.foldl_circular {l : List (Fin NBUF)} (hl : l.Nodup) {k : Links} {m : List Ptr}
    (h : Circular k.next k.prev none m) (hm : ∀ b ∈ l, some b ∉ m) :
    Circular (l.foldl Links.linkFirst k).next (l.foldl Links.linkFirst k).prev none
      ((l.map some).reverse ++ m) := by
  induction l generalizing k m with
  | nil => exact h
  | cons b l ih =>
    rw [List.nodup_cons] at hl
    have := ih hl.2 (Links.linkFirst_circular h (hm b (by simp))) (fun b' hb' ↦ ?_)
    · simpa using this
    · simp only [List.mem_cons, Option.some.injEq, not_or]
      exact ⟨fun he ↦ hl.1 (he ▸ hb'), hm b' (by simp [hb'])⟩

theorem Inv.boot (data : D) : Inv (State.boot data : State P D) := by
  refine ⟨⟨_, Links.foldl_circular (List.nodup_finRange NBUF) (m := []) ⟨rfl, rfl, by simp⟩ (by simp),
    fun b ↦ ?_⟩, fun b b' hd ↦ absurd rfl hd, fun b ↦ ?_, fun p b hp ↦ ?_⟩
  · simp
  · simp [State.boot, State.callers, Pc.counts]
  · simp [State.boot] at hp

theorem exists_perm_of_circular {next prev : Ptr → Ptr} {l : List Ptr} (h : Circular next prev none l)
    (hall : ∀ b : Fin NBUF, some b ∈ l) :
    ∃ m : List (Fin NBUF), m.Perm (List.finRange NBUF) ∧ l = m.map some := by
  obtain ⟨hnone, hnodup⟩ := List.nodup_cons.mp h.nodup
  have hsome : l ∈ Set.range (List.map some) := by
    rw [Set.range_list_map]
    intro x hx
    cases x with
    | none => exact absurd hx hnone
    | some b => exact ⟨b, rfl⟩
  obtain ⟨m, rfl⟩ := hsome
  refine ⟨m, (List.perm_ext_iff_of_nodup (List.Nodup.of_map _ hnodup) (List.nodup_finRange NBUF)).mpr
    (fun b ↦ ?_), rfl⟩
  simpa using hall b

theorem search_cases {next prev : Ptr → Ptr} {l : List Ptr} (h : Circular next prev none l)
    (hall : ∀ b : Fin NBUF, some b ∈ l) (test : Ptr → Bool) (hnone : test none = false) :
    (∃ b, search next none test (NBUF + 1) (next none) = some (some b) ∧ test (some b) = true) ∨
      (search next none test (NBUF + 1) (next none) = some none ∧ ∀ b, test (some b) = false) := by
  obtain ⟨m, hperm, hm⟩ := exists_perm_of_circular h hall
  have hlen : l.length = NBUF := by simpa [hm] using hperm.length_eq
  have hs := h.search_eq test
  rw [hlen] at hs
  rw [hs]
  cases hfind : l.find? test with
  | none => exact .inr ⟨rfl, fun b ↦ by simpa using List.find?_eq_none.mp hfind _ (hall b)⟩
  | some x =>
    have htest := List.find?_some hfind
    cases x with
    | none => exact absurd htest (by simp [hnone])
    | some b => exact .inl ⟨b, rfl, htest⟩

section

variable [DecidableEq P]

namespace Inv

theorem of_update (h : Inv s) {v : Buf P D} {pc : Pc}
    (hlinks : ∃ l, Circular s'.links.next s'.links.prev none l ∧ ∀ b : Fin NBUF, some b ∈ l)
    (hbuf : s'.buf = update s.buf b v) (hpc : s'.pc = update s.pc p pc)
    (hid : (v.dev = (s.buf b).dev ∧ v.blockno = (s.buf b).blockno) ∨
      ∀ b', ¬ ((s.buf b').dev = v.dev ∧ (s.buf b').blockno = v.blockno))
    (hcount : v.refcnt + (s.pc p).counts b + (if (s.buf b).lock = none then 0 else 1) =
      (s.buf b).refcnt + pc.counts b + if v.lock = none then 0 else 1)
    (hother : ∀ b', b' ≠ b → pc.counts b' = (s.pc p).counts b')
    (howner : ∀ b', pc = .bread b' ∨ pc = .iderw b' → b' = b ∧ v.lock = some p)
    (hlock : v.lock = (s.buf b).lock ∨ (s.buf b).lock = none ∨ (s.buf b).lock = some p) : Inv s' := by
  refine ⟨hlinks, fun b₁ b₂ hd hdev hblock ↦ ?_, fun b' ↦ ?_, fun q b' hq ↦ ?_⟩
  · have := h.unique b₁ b₂
    rw [hbuf] at hd hdev hblock
    by_cases h₁ : b₁ = b <;> by_cases h₂ : b₂ = b
    · rw [h₁, h₂]
    · subst h₁
      simp only [update_self, update_of_ne h₂] at hd hdev hblock
      grind
    · subst h₂
      simp only [update_self, update_of_ne h₁] at hd hdev hblock
      grind
    · simp only [update_of_ne h₁, update_of_ne h₂] at hd hdev hblock
      exact this hd hdev hblock
  · have hsum := sum_update_add (Finset.mem_univ p) (fun x ↦ x.counts b') s.pc pc
    have href := h.refcnt b'
    unfold State.callers at *
    rw [hbuf, hpc]
    rcases eq_or_ne b' b with rfl | hb
    · simp only [update_self]
      omega
    · have := hother b' hb
      simp only [update_of_ne hb]
      omega
  · rw [hpc] at hq
    rw [hbuf]
    rcases eq_or_ne q p with rfl | hqp
    · rw [update_self] at hq
      obtain ⟨rfl, hl⟩ := howner b' hq
      rw [update_self, hl]
    · rw [update_of_ne hqp] at hq
      have := h.owner q b' hq
      rcases eq_or_ne b' b with rfl | hb
      · rw [update_self]
        rcases hlock with hl | hl | hl
        · rw [hl, this]
        · rw [hl] at this
          cases this
        · rw [hl] at this
          cases this
          exact absurd rfl hqp
      · rw [update_of_ne hb, this]

end Inv

namespace Inv

variable {havedisk1 : Bool} {a : Act P D}

theorem bget {dev blockno : ℕ} (h : Inv s) (hp : s.pc p = .idle) :
    Ensures (fun s' ↦ Inv s' ∧ Keeps a s s') (fun e ↦ e ≠ .diverges) (s.bget p dev blockno) := by
  obtain ⟨l, hl, hall⟩ := h.circular
  have hcounts : ∀ b b', b' ≠ b → Pc.counts (.bget b) b' = (s.pc p).counts b' := by
    intro b b' hne
    simp [Pc.counts, hp, Ne.symm hne]
  unfold State.bget
  rcases search_cases hl hall (s.isBlock dev blockno) rfl with ⟨b, hs, -⟩ | ⟨hs, hnot⟩ <;>
    simp only [hs]
  · refine ⟨h.of_update h.circular rfl rfl (.inl ⟨rfl, rfl⟩) ?_ (hcounts b) (by simp) (.inl rfl),
      Keeps.of_update rfl (fun _ ↦ ⟨rfl, rfl⟩) (fun hd ↦ ⟨hd, rfl⟩)⟩
    simp [Pc.counts, hp]
  · have hall' : ∀ b : Fin NBUF, some b ∈ l.reverse := by simpa using hall
    rcases search_cases hl.reverse hall' s.isUnused rfl with ⟨b, hs', htest⟩ | ⟨hs', -⟩ <;>
      simp only [hs']
    · have hunused : (s.buf b).refcnt = 0 ∧ (s.buf b).dirty = false := by
        simpa [State.isUnused] using htest
      have hfree : (s.buf b).lock = none := by
        have := h.refcnt b
        unfold State.callers at this
        by_contra hl
        rw [if_neg hl] at this
        omega
      refine ⟨h.of_update h.circular rfl rfl (.inr fun b' ↦ ?_) ?_ (hcounts b) (by simp) (.inl rfl),
        Keeps.of_update rfl (fun hu ↦ ?_) (fun hd ↦ ?_)⟩
      · simpa [State.isBlock] using hnot b'
      · simp [Pc.counts, hp, hunused.1]
      · rw [hunused.1, hunused.2] at hu
        simp at hu
      · rw [hunused.2] at hd
        cases hd
    · nofun

theorem acquiresleep (h : Inv s) (hp : s.pc p = .bget b) :
    Ensures (fun s' ↦ Inv s' ∧ Keeps a s s') (fun e ↦ e ≠ .diverges) (s.acquiresleep p b) := by
  unfold State.acquiresleep
  split
  · rename_i hl
    refine ⟨h.of_update h.circular rfl rfl (.inl ⟨rfl, rfl⟩) ?_ (fun b' hne ↦ ?_) ?_ (.inr (.inl hl)),
      .of_update rfl (fun _ ↦ ⟨rfl, rfl⟩) (fun hd ↦ ⟨hd, rfl⟩)⟩
    · simp [Pc.counts, hp, hl]
    · simp [Pc.counts, hp, Ne.symm hne]
    · rintro b' (he | he)
      · cases he
        exact ⟨rfl, rfl⟩
      · cases he
  · nofun

theorem goto (h : Inv s) {pc : Pc} (hp : ∀ b, (s.pc p).counts b = 0) (hpc : ∀ b, pc.counts b = 0)
    (howner : ∀ b, pc = .bread b ∨ pc = .iderw b → (s.buf b).lock = some p) : Inv (s.goto p pc) := by
  refine h.of_same rfl (fun b ↦ ⟨rfl, rfl, rfl, rfl⟩) (fun q b ↦ ?_) (fun q b hq ↦ ?_) <;>
    rcases eq_or_ne q p with rfl | hne
  · simp [State.goto, hp, hpc]
  · simp [State.goto, hne]
  · exact howner b (by simpa [State.goto] using hq)
  · exact h.owner q b (by simpa [State.goto, hne] using hq)

theorem iderw (h : Inv s) (hp : ∀ b, (s.pc p).counts b = 0) :
    Ensures (fun s' ↦ Inv s' ∧ s'.buf = s.buf) (fun e ↦ e ≠ .diverges) (s.iderw havedisk1 p b) := by
  refine ((Ide.Buf.iderw_ensures _ havedisk1 p).mapError fun _ _ ↦ Stop.noConfusion).bind ?_
  rintro - ⟨hl, -⟩
  have hgoto : Inv (s.goto p (.iderw b)) := by
    refine h.goto hp (by simp [Pc.counts]) ?_
    rintro b' (he | he)
    · cases he
    · cases he
      exact hl
  have hqueue : Inv { s.goto p (.iderw b) with idequeue := s.idequeue ++ [b] } :=
    ⟨hgoto.circular, hgoto.unique, hgoto.refcnt, hgoto.owner⟩
  simp only
  split
  · exact hqueue.idestart
  · exact ⟨hqueue, rfl⟩

theorem bread (h : Inv s) (hp : s.pc p = .bread b) :
    Ensures (fun s' ↦ Inv s' ∧ Keeps a s s') (fun e ↦ e ≠ .diverges) (s.bread havedisk1 p b) := by
  have hcounts : ∀ b, (s.pc p).counts b = 0 := by simp [hp, Pc.counts]
  unfold State.bread
  split
  · exact (h.iderw hcounts).mono fun s' hs ↦ ⟨hs.1, .of_same hs.2⟩
  · exact ⟨h.goto hcounts (by simp [Pc.counts]) (by simp), .of_same rfl⟩

theorem bwrite (h : Inv s) (hp : s.pc p = .idle) :
    Ensures (fun s' ↦ Inv s' ∧ Keeps a s s') (fun e ↦ e ≠ .diverges) (s.bwrite havedisk1 p b) := by
  have hcounts : ∀ b, (s.pc p).counts b = 0 := by simp [hp, Pc.counts]
  unfold State.bwrite
  split
  · nofun
  · have hset : Inv (s.setBuf b { s.buf b with dirty := true }) := h.setBuf ⟨rfl, rfl, rfl, rfl⟩
    refine (hset.iderw hcounts).mono fun s' hs ↦ ⟨hs.1, ?_⟩
    exact .of_update hs.2 (fun _ ↦ ⟨rfl, rfl⟩) (fun _ ↦ ⟨rfl, rfl⟩)

theorem releasesleep (h : Inv s) (hp : s.pc p = .idle) :
    Ensures (fun s' ↦ Inv s' ∧ Keeps a s s') (fun e ↦ e ≠ .diverges) (s.releasesleep p b) := by
  unfold State.releasesleep
  split
  · nofun
  · rename_i hl
    rw [not_not] at hl
    refine ⟨h.of_update h.circular rfl rfl (.inl ⟨rfl, rfl⟩) ?_ (fun b' hne ↦ ?_) (by simp)
      (.inr (.inr hl)), .of_update rfl (fun _ ↦ ⟨rfl, rfl⟩) (fun hd ↦ ⟨hd, rfl⟩)⟩
    · simp [Pc.counts, hp, hl]
    · simp [Pc.counts, hp, Ne.symm hne]

theorem brelse (h : Inv s) (hp : s.pc p = .brelse b) :
    Inv (s.brelse p b) ∧ Keeps a s (s.brelse p b) := by
  have hpos : 0 < (s.buf b).refcnt := by
    have hsum := sum_update_add (Finset.mem_univ p) (fun x ↦ x.counts b) s.pc .idle
    have hcounts : (s.pc p).counts b = 1 := by simp [hp, Pc.counts]
    have hidle : Pc.idle.counts b = 0 := by simp [Pc.counts]
    have href := h.refcnt b
    unfold State.callers at href
    omega
  have hstep : ∀ s' : State P D, s'.buf = update s.buf b { s.buf b with refcnt := (s.buf b).refcnt - 1 } →
      s'.pc = update s.pc p .idle →
      (∃ l, Circular s'.links.next s'.links.prev none l ∧ ∀ b : Fin NBUF, some b ∈ l) →
      Inv s' ∧ Keeps a s s' := by
    intro s' hbuf hpc hlinks
    refine ⟨h.of_update hlinks hbuf hpc (.inl ⟨rfl, rfl⟩) ?_ (fun b' hne ↦ ?_) (by simp) (.inl rfl),
      .of_update hbuf (fun _ ↦ ⟨rfl, rfl⟩) (fun hd ↦ ⟨hd, rfl⟩)⟩
    · simp only [Pc.counts, hp]
      simp
      omega
    · simp [Pc.counts, hp, Ne.symm hne]
  unfold State.brelse
  simp only
  split
  · exact hstep _ rfl rfl (Links.moveFirst_circular h.circular b)
  · exact hstep _ rfl rfl h.circular

theorem step (h : Inv s) :
    Ensures (fun s' ↦ Inv s' ∧ Keeps a s s') (fun e ↦ e ≠ .diverges) (a.step havedisk1 s) := by
  cases a <;> simp only [Act.step]
  case bget p dev blockno =>
    split
    · rename_i hok
      exact h.bget hok.1
    · nofun
  case acquiresleep p =>
    split
    · exact h.acquiresleep ‹_›
    · nofun
  case bread p =>
    split
    · exact h.bread ‹_›
    · nofun
  case modify p b data =>
    split
    · rename_i hok
      refine ⟨h.setBuf ⟨rfl, rfl, rfl, rfl⟩, fun b' _ ↦ ?_, fun b' hd ↦ .inl ?_, fun b' hd ↦ ?_⟩ <;>
        rcases eq_or_ne b' b with rfl | hne
      · simp [State.setBuf]
      · simp [State.setBuf, hne]
      · simpa [State.setBuf] using hd
      · simpa [State.setBuf, hne] using hd
      · exact .inr ⟨p, data, hok.2, rfl⟩
      · exact .inl (by simp [State.setBuf, hne])
    · nofun
  case logWrite p b =>
    split
    · exact ⟨h.setBuf ⟨rfl, rfl, rfl, rfl⟩, .of_update rfl (fun _ ↦ ⟨rfl, rfl⟩) (fun _ ↦ ⟨rfl, rfl⟩)⟩
    · nofun
  case bwrite p b =>
    split
    · exact h.bwrite ‹_›
    · nofun
  case ideintr data => exact h.ideintr data
  case iderw p =>
    split
    · rename_i b hp
      split
      · exact ⟨h.goto (by simp [hp, Pc.counts]) (by simp [Pc.counts]) (by simp), .of_same rfl⟩
      · nofun
    · nofun
  case releasesleep p b =>
    split
    · exact h.releasesleep ‹_›
    · nofun
  case brelse p =>
    split
    · exact h.brelse ‹_›
    · nofun

end Inv

def Act.Completes (a : Act P D) (s : State P D) (b : Fin NBUF) : Prop :=
  s.idequeue.head? = some b ∧ ∃ data, a = .ideintr data

theorem Inv.dirty_kept {havedisk1 : Bool} (h : Inv s) (hd : (s.buf b).dirty = true)
    {l : List (Act P D)} (hc : Meets (Act.step havedisk1) (fun a s ↦ ¬ a.Completes s b) l s)
    (he : exec (Act.step havedisk1) l s = .ok s') :
    (s'.buf b).dirty = true ∧ (s'.buf b).dev = (s.buf b).dev ∧ (s'.buf b).blockno = (s.buf b).blockno ∧
      ((∀ p data, Act.modify p b data ∉ l) → (s'.buf b).data = (s.buf b).data) := by
  induction l generalizing s with
  | nil =>
    cases he
    exact ⟨hd, rfl, rfl, fun _ ↦ rfl⟩
  | cons a l ih =>
    obtain ⟨m, hm, he⟩ := bind_eq_ok.mp he
    obtain ⟨hinv, hkeeps⟩ := h.step.of_ok hm
    have hdirty : (m.buf b).dirty = true := (hkeeps.dirty b hd).resolve_right hc.1
    obtain ⟨hdev, hblockno⟩ := hkeeps.identity b (.inr hd)
    obtain ⟨hd', hdev', hblockno', hdata'⟩ := ih hinv hdirty (hc.2 m hm) he
    refine ⟨hd', hdev'.trans hdev, hblockno'.trans hblockno, fun hno ↦ ?_⟩
    rw [hdata' fun p data hmem ↦ hno p data (.tail _ hmem)]
    rcases hkeeps.data b hd with hsame | ⟨p, data, -, rfl⟩
    · exact hsame
    · exact absurd (.head _) (hno p data)

/-- The buffer cache in every state that is reached from `binit`. -/
theorem buffer_cache_invariant {havedisk1 : Bool} {data : D} {l : List (Act P D)}
    (he : exec (Act.step havedisk1) l (State.boot data) = .ok s) :
    (∃ m : List (Fin NBUF), m.Perm (List.finRange NBUF) ∧
      (List.range (NBUF + 2)).map (fun n ↦ s.links.next^[n] none) = none :: m.map some ++ [none]) ∧
    (∀ x, s.links.prev (s.links.next x) = x ∧ s.links.next (s.links.prev x) = x) ∧
    (∀ b b', (s.buf b).dev ≠ 0 → (s.buf b).dev = (s.buf b').dev →
      (s.buf b).blockno = (s.buf b').blockno → b = b') ∧
    (∀ b, (s.buf b).refcnt = s.callers b) ∧
    (∀ (a : Act P D) s', a.step havedisk1 s = .ok s' → ∀ b,
      0 < (s.buf b).refcnt ∨ (s.buf b).dirty = true →
      (s'.buf b).dev = (s.buf b).dev ∧ (s'.buf b).blockno = (s.buf b).blockno) ∧
    (∀ b, (s.buf b).dirty = true → ∀ l' s', exec (Act.step havedisk1) l' s = .ok s' →
      Meets (Act.step havedisk1) (fun a s ↦ ¬ a.Completes s b) l' s →
      (s'.buf b).dirty = true ∧ (s'.buf b).dev = (s.buf b).dev ∧
        (s'.buf b).blockno = (s.buf b).blockno ∧
        ((∀ p data, Act.modify p b data ∉ l') → (s'.buf b).data = (s.buf b).data)) ∧
    ∀ a : Act P D, a.step havedisk1 s ≠ .error .diverges := by
  have h : Inv s := exec_invariant (fun a s s' hs hstep ↦ (hs.step.of_ok hstep).1) (Inv.boot data) he
  obtain ⟨l, hl, hall⟩ := h.circular
  have hmem : ∀ x, x ∈ none :: l := fun x ↦ by cases x <;> simp [hall]
  refine ⟨?_, fun x ↦ ⟨hl.prev_next (hmem x), hl.next_prev (hmem x)⟩, h.unique, h.refcnt,
    fun a s' hs ↦ (h.step.of_ok hs).2.identity, fun b hd l' s' hs hc ↦ h.dirty_kept hd hc hs,
    fun a ha ↦ Ensures.of_error h.step ha rfl⟩
  obtain ⟨m, hperm, rfl⟩ := exists_perm_of_circular hl hall
  have hlen : (m.map some).length = NBUF := by simpa using hperm.length_eq
  have hiter := hl.linked.iterate
  rw [hlen] at hiter
  exact ⟨m, hperm, hiter⟩

end

def sharedRun : List (Act (Fin 2) Unit) :=
  let p : Fin 2 := ⟨0, Nat.zero_lt_two⟩
  let q : Fin 2 := ⟨1, Nat.one_lt_two⟩
  [.bget p 1 7, .acquiresleep p, .bread p, .ideintr (some ()), .iderw p, .bget q 1 7,
    .logWrite p ⟨0, by decide⟩]

theorem sharedRun_ensures : Ensures (fun s : State (Fin 2) Unit ↦ (s.buf ⟨0, by decide⟩).dirty = true ∧
    (s.buf ⟨0, by decide⟩).refcnt = 2) (fun _ ↦ False)
    (exec (Act.step true) sharedRun (State.boot ())) := by decide +kernel

theorem buffer_cache_invariant_shared : ∃ s : State (Fin 2) Unit,
    exec (Act.step true) sharedRun (State.boot ()) = .ok s ∧ (s.buf ⟨0, by decide⟩).dirty = true ∧
      (s.buf ⟨0, by decide⟩).refcnt = 2 ∧ s.callers ⟨0, by decide⟩ = 2 := by
  obtain ⟨s, he, hdirty, href⟩ := sharedRun_ensures.exists_ok
  exact ⟨s, he, hdirty, href, ((buffer_cache_invariant he).2.2.2.1 _).symm.trans href⟩

end Xv6Bfs.Bio

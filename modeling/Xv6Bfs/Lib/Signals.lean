import Xv6Bfs.Lib.Outline

namespace Xv6Bfs.Lib.Monitor

open Execution Function

variable {P E V D L C X : Type} {t t' : Thread L C} {c c' : C} {p q : P}

/-- What the threads asleep on a channel wait for to change, and which channels the thread that
has the lock still has to wake before it gives the lock up. -/
structure Signals {π : Program P E V D L C X} (O : Outline π) where
  wait : C → D → Prop
  owes : L → C → Prop
  kill : ∀ p c d, wait c d → wait c (π.kill p d)
  env : ∀ v c d d', π.env v d = .ok d' → wait c d → wait c d'
  acquire : ∀ p e l d d' l' c, π.next p e l d = .ok (.acquire d' l') → O.free d →
    wait c d → wait c d' ∨ owes l' c
  act : ∀ p e l d d' l' c, π.next p e l d = .ok (.act d' l') → O.held p l d →
    (owes l c → owes l' c) ∧ (wait c d → wait c d' ∨ owes l' c)
  sleep : ∀ p e l d c l', π.next p e l d = .ok (.sleep c l') → O.held p l d → wait c d
  wakeup : ∀ p e l d c c' l', π.next p e l d = .ok (.wakeup c l') → owes l c' → c' = c ∨ owes l' c'
  release : ∀ p e l d d' l' c, π.next p e l d = .ok (.release d' l') → wait c d → wait c d'

namespace Thread

def falls : Thread L C → Option C
  | .sleep c _ | .unlock c _ => some c
  | _ => none

def Owes (owes : L → C → Prop) (c : C) : Thread L C → Prop
  | .run l | .scanned l => owes l c
  | .wakeup c' l | .scan c' l => c = c' ∨ owes l c
  | _ => False

theorem waits_roused (h : t.roused.waits = some c) : t.waits = some c := by
  cases t <;> simp_all [roused, waits]

theorem owes_roused (owes : L → C → Prop) (c : C) (t : Thread L C) :
    t.roused.Owes owes c ↔ t.Owes owes c := by
  cases t <;> simp [roused, Owes]

theorem falls_roused (t : Thread L C) : t.roused.falls = t.falls := by
  cases t <;> simp [roused, falls]

theorem waits_next (h : t.Next t') (hw : t'.waits = some c) : t.waits = some c := by
  cases t <;> simp_all [Next, waits]

theorem owes_next {owes : L → C → Prop} (h : t.Next t') : t'.Owes owes c ↔ t.Owes owes c := by
  cases t <;> simp_all [Next, Owes]

theorem falls_next (h : t.Next t') : t'.falls = t.falls := by
  cases t <;> simp_all [Next, falls]

variable [DecidableEq C]

theorem waits_woken (h : (t.woken c).waits = some c') :
    t.waits = some c' ∧ (c' = c → t.HoldsTable) := by
  cases t with
  | SLEEPING c₀ l =>
    simp only [woken] at h
    split at h
    · cases h
    · cases h
      exact ⟨rfl, fun he ↦ absurd he ‹_›⟩
  | _ => simp_all [woken, waits, HoldsTable]

theorem falls_woken (t : Thread L C) (c : C) : (t.woken c).falls = t.falls := by
  cases t <;> simp only [woken]
  split <;> rfl

end Thread

namespace Signals

variable {π : Program P E V D L C X} {O : Outline π} (S : Signals O) {s s' : State P D L C}

/-- A thread that gives the lock up while it still has to wake a channel does so at a moment
at which nobody waits on that channel. -/
def Pays : Act P E V → State P D L C → Prop
  | .kill _, _ | .env _, _ => True
  | .step p e, s =>
    match s.thread p with
    | .run l =>
      match π.next p e l s.data with
      | .ok (.release ..) | .ok (.sleep ..) => ∀ c, S.owes l c → ∀ q, (s.thread q).waits ≠ some c
      | _ => True
    | _ => True

theorem pays_of {S : Signals O} {a : Act P E V}
    (hr : ∀ p e l d l' c, a = .step p e → s.thread p = .run l → π.next p e l s.data = .ok (.release d l') →
      S.owes l c → ∀ q, (s.thread q).waits ≠ some c)
    (hs : ∀ p e l c' l' c, a = .step p e → s.thread p = .run l → π.next p e l s.data = .ok (.sleep c' l') →
      S.owes l c → ∀ q, (s.thread q).waits ≠ some c) : S.Pays a s := by
  unfold Pays
  split
  · trivial
  · trivial
  · split
    · split
      · intro c hc
        exact hr _ _ _ _ _ c rfl ‹_› ‹_› hc
      · intro c hc
        exact hs _ _ _ _ _ c rfl ‹_› ‹_› hc
      · trivial
    · trivial

theorem pays {S : Signals O}
    (hr : ∀ p e l d d' l' c, π.next p e l d = .ok (.release d' l') → ¬ S.owes l c)
    (hs : ∀ p e l d c' l' c, π.next p e l d = .ok (.sleep c' l') → ¬ S.owes l c)
    (a : Act P E V) (s : State P D L C) : S.Pays a s :=
  pays_of (fun _ _ _ _ _ c _ _ hn hc ↦ absurd hc (hr _ _ _ _ _ _ c hn))
    (fun _ _ _ _ _ c _ _ hn hc ↦ absurd hc (hs _ _ _ _ _ _ c hn))

/-- Whoever waits does so for a reason, or will be woken by the thread that has the lock. -/
structure Inv (s : State P D L C) : Prop where
  waits : ∀ q c, (s.thread q).waits = some c →
    S.wait c s.data ∨ ∃ p, s.lock = some p ∧ (s.thread p).Owes S.owes c
  falls : ∀ q c, (s.thread q).falls = some c → S.wait c s.data

variable {S}

theorem Inv.init (d : D) (l : L) : S.Inv (.init d l) :=
  ⟨fun _ _ h ↦ by simp [State.init, Thread.waits] at h,
    fun _ _ h ↦ by simp [State.init, Thread.falls] at h⟩

theorem Inv.wait (h : S.Inv s) (hs : s.lock = none)
    (hq : (s.thread q).waits = some c) : S.wait c s.data := by
  rcases h.waits q c hq with hw | ⟨p, hp, -⟩
  · exact hw
  · rw [hs] at hp
    cases hp

theorem Inv.wait_of_asleep (h : S.Inv s) (hs : s.lock = none)
    (hq : (s.thread q).asleep = some c) : S.wait c s.data :=
  h.wait hs (Thread.waits_of_asleep hq)

theorem Inv.kill (h : S.Inv s) (p : P) : S.Inv { s with data := π.kill p s.data } :=
  ⟨fun q c hq ↦ (h.waits q c hq).imp_left (S.kill p c _), fun q c hq ↦ S.kill p c _ (h.falls q c hq)⟩

theorem lock_of_falls (hO : O.Inv s) (h : (s.thread q).falls = some c) : s.lock = some q := by
  apply (hO.locks.lock q).mpr
  cases hs : s.thread q <;> simp_all [Thread.falls, Thread.Holds]

variable [DecidableEq P]

theorem Inv.pass (hO : O.Inv s)
    (hl : s.lock = none ∨ s.lock = some p) (ht : s'.thread = update s.thread p t)
    (hd : ∀ c q, q ≠ p → (s.thread q).waits = some c →
      S.wait c s'.data ∨ s'.lock = some p ∧ t.Owes S.owes c)
    (hw : ∀ c, t.waits = some c → S.wait c s'.data) (hf : t.falls = none) : S.Inv s' := by
  refine ⟨fun q c hq ↦ ?_, fun q c hq ↦ ?_⟩
  · rw [ht, update_apply] at hq
    split at hq
    · exact .inl (hw c hq)
    · refine (hd c q ‹_› hq).imp_right (fun hto ↦ ⟨p, hto.1, ?_⟩)
      rw [ht, update_self]
      exact hto.2
  · rw [ht, update_apply] at hq
    split at hq
    · rw [hf] at hq
      cases hq
    · have hq' := lock_of_falls hO hq
      rcases hl with hl | hl
      · rw [hl] at hq'
        cases hq'
      · rw [hl] at hq'
        cases hq'
        contradiction

theorem Inv.go (h : S.Inv s) (hO : O.Inv s) (hl : s.lock = some p)
    (ht : s'.thread = update s.thread p t) (hl' : s'.lock = some p) (hw : t.waits = none)
    (hd : ∀ c, S.wait c s.data → S.wait c s'.data ∨ t.Owes S.owes c)
    (ho : ∀ c q, (s.thread q).waits = some c → (s.thread p).Owes S.owes c →
      S.wait c s'.data ∨ t.Owes S.owes c)
    (hf : ∀ c, t.falls = some c → S.wait c s'.data) : S.Inv s' := by
  refine ⟨fun q c hq ↦ ?_, fun q c hq ↦ ?_⟩
  · rw [ht, update_apply] at hq
    split at hq
    · rw [hw] at hq
      cases hq
    · have : S.wait c s'.data ∨ t.Owes S.owes c := by
        rcases h.waits q c hq with hold | ⟨p', hp', hold⟩
        · exact hd c hold
        · rw [hl] at hp'
          cases hp'
          exact ho c q hq hold
      refine this.imp_right (fun hto ↦ ⟨p, hl', ?_⟩)
      rw [ht, update_self]
      exact hto
  · rw [ht, update_apply] at hq
    split at hq
    · exact hf c hq
    · have hq' := lock_of_falls hO hq
      rw [hl] at hq'
      cases hq'
      contradiction

theorem Inv.still (h : S.Inv s) (ht : s'.thread = update s.thread p t)
    (hl : s'.lock = s.lock) (hd : s'.data = s.data)
    (hw : ∀ c, t.waits = some c → (s.thread p).waits = some c)
    (ho : ∀ c, t.Owes S.owes c ↔ (s.thread p).Owes S.owes c) (hf : t.falls = (s.thread p).falls) :
    S.Inv s' := by
  have howes : ∀ q c, (s.thread q).Owes S.owes c → (s'.thread q).Owes S.owes c := by
    intro q c hq
    rw [ht, update_apply]
    split
    · rename_i he
      exact (ho c).mpr (he ▸ hq)
    · exact hq
  refine ⟨fun q c hq ↦ ?_, fun q c hq ↦ ?_⟩
  · have hq' : (s.thread q).waits = some c := by
      rw [ht, update_apply] at hq
      split at hq
      · rename_i he
        exact he ▸ hw c hq
      · exact hq
    rw [hd, hl]
    rcases h.waits q c hq' with hold | ⟨r, hr, hold⟩
    · exact .inl hold
    · exact .inr ⟨r, hr, howes r c hold⟩
  · rw [hd]
    rw [ht, update_apply] at hq
    split at hq
    · exact h.falls p c (hf ▸ hq)
    · exact h.falls q c hq

variable [DecidableEq C]

theorem Inv.step {a : Act P E V} (h : S.Inv s) (hO : O.Inv s) (hp : S.Pays a s)
    (hs : Step π s a s') : S.Inv s' := by
  cases hs with
  | acquire p e l d l' ht hn hlock =>
    refine Inv.pass hO (.inl hlock) rfl (fun c q _ hq ↦ ?_) (fun c hc ↦ by cases hc) rfl
    have hw := S.acquire _ _ _ _ _ _ c hn (hO.free hlock) (h.wait hlock hq)
    exact hw.imp_right (fun ho ↦ ⟨rfl, ho⟩)
  | act p e l d l' ht hn =>
    obtain ⟨hl, -, hh⟩ := hO.holder ht (π.bracketed _ _ _ _ _ hn).1
    refine h.go hO hl rfl hl rfl (fun c ↦ ?_) (fun c q _ ho ↦ ?_) (fun c hc ↦ by cases hc)
    · exact (S.act _ _ _ _ _ _ c hn hh).2
    · rw [ht] at ho
      exact .inr ((S.act _ _ _ _ _ _ c hn hh).1 ho)
  | sleep p e l c l' ht hn =>
    obtain ⟨hl, -, hh⟩ := hO.holder ht (π.bracketed _ _ _ _ _ hn).1
    refine h.go hO hl rfl hl rfl (fun c hc ↦ .inl hc) (fun c' q hq ho ↦ ?_) (fun c' hc ↦ ?_)
    · simp only [Pays, ht, hn] at hp
      rw [ht] at ho
      exact absurd hq (hp c' ho q)
    · cases hc
      exact S.sleep _ _ _ _ _ _ hn hh
  | wakeup p e l c l' ht hn =>
    obtain ⟨hl, -, hh⟩ := hO.holder ht (π.bracketed _ _ _ _ _ hn).1
    refine h.go hO hl rfl hl rfl (fun c hc ↦ .inl hc) (fun c' q _ ho ↦ ?_) (fun c hc ↦ by cases hc)
    rw [ht] at ho
    exact .inr (S.wakeup _ _ _ _ _ _ _ hn ho)
  | release p e l d l' ht hn =>
    obtain ⟨hl, -, hh⟩ := hO.holder ht (π.bracketed _ _ _ _ _ hn).1
    refine Inv.pass hO (.inr hl) rfl (fun c q _ hq ↦ .inl ?_) (fun c hc ↦ by cases hc) rfl
    rcases h.waits q c hq with hw | ⟨r, hr, ho⟩
    · exact S.release _ _ _ _ _ _ c hn hw
    · rw [hl] at hr
      cases hr
      simp only [Pays, ht, hn] at hp
      rw [ht] at ho
      exact absurd hq (hp c ho q)
  | takeTable p e t htable hn hh | leaveTable p e t hn hh hh' =>
    exact h.still rfl rfl rfl (fun c ↦ Thread.waits_next hn) (fun c ↦ Thread.owes_next hn)
      (Thread.falls_next hn)
  | unlock p e c l ht =>
    have hl : s.lock = some p := (hO.locks.lock p).mpr (by rw [ht]; trivial)
    refine Inv.pass hO (.inr hl) rfl (fun c' q _ hq ↦ .inl ?_) (fun c' hc ↦ ?_) rfl
    · rcases h.waits q c' hq with hw | ⟨r, hr, ho⟩
      · exact hw
      · rw [hl] at hr
        cases hr
        rw [ht] at ho
        exact ho.elim
    · cases hc
      exact h.falls p c (by rw [ht]; rfl)
  | reacquire p e l ht hlock =>
    refine Inv.pass hO (.inl hlock) rfl (fun c q _ hq ↦ .inl (h.wait hlock hq)) ?_ rfl
    intro c hc
    cases hc
  | scan p e c l ht =>
    have hl : s.lock = some p := (hO.locks.lock p).mpr (by rw [ht]; trivial)
    have htable : s.table = some p := (hO.locks.table p).mpr (by rw [ht]; trivial)
    refine ⟨fun q c' hq ↦ ?_, fun q c' hq ↦ ?_⟩
    · change (update (fun q ↦ (s.thread q).woken c) p (.scanned l) q).waits = some c' at hq
      rw [update_apply] at hq
      split at hq
      · cases hq
      · obtain ⟨hq, hne⟩ := Thread.waits_woken hq
        have hq' : ¬ (s.thread q).HoldsTable := by
          rw [← hO.locks.table q, htable]
          grind
        rcases h.waits q c' hq with hw | ⟨r, hr, ho⟩
        · exact .inl hw
        · rw [hl] at hr
          cases hr
          rw [ht] at ho
          refine .inr ⟨p, hl, ?_⟩
          change (update (fun q ↦ (s.thread q).woken c) p (.scanned l) p).Owes S.owes c'
          rw [update_self]
          exact ho.resolve_left (fun he ↦ hq' (hne he))
    · change (update (fun q ↦ (s.thread q).woken c) p (.scanned l) q).falls = some c' at hq
      rw [update_apply] at hq
      split at hq
      · cases hq
      · rw [Thread.falls_woken] at hq
        exact h.falls q c' hq
  | kill p htable =>
    exact (h.kill p).still rfl rfl rfl (fun c ↦ Thread.waits_roused) (fun c ↦ Thread.owes_roused _ c _)
      (Thread.falls_roused _)
  | env v d hv =>
    exact ⟨fun q c hq ↦ (h.waits q c hq).imp_left (S.env v c _ _ hv),
      fun q c hq ↦ S.env v c _ _ hv (h.falls q c hq)⟩

theorem Inv.run {acts : List (Act P E V)} (h : S.Inv s) (hO : O.Inv s) (hp : Meets π.step S.Pays acts s)
    (he : exec π.step acts s = .ok s') : O.Inv s' ∧ S.Inv s' :=
  exec_invariant_of_meets (I := fun s ↦ O.Inv s ∧ S.Inv s)
    (fun _ _ _ h hp hs ↦ ⟨h.1.step (.of_step hs), h.2.step h.1 hp (.of_step hs)⟩) ⟨hO, h⟩ hp he

end Signals

end Xv6Bfs.Lib.Monitor

import Xv6Bfs.Lib.Monitor

namespace Xv6Bfs.Lib.Monitor

open Execution Function

variable {P E V D L C X : Type}

/-- What is known at the locations of a program: `own` at a location of any thread, `held` at a
location of the thread that has the lock, and `free` while nobody has it. A thread that comes back
from `sleep` is at one of the locations `resumes`. -/
structure Outline (π : Program P E V D L C X) where
  free : D → Prop
  own : P → L → D → Prop
  held : P → L → D → Prop
  resumes : L → Prop
  resume : ∀ p l d, resumes l → own p l d → free d → held p l d
  kill_free : ∀ p d, free d → free (π.kill p d)
  kill_own : ∀ p q l d, own q l d → own q l (π.kill p d)
  kill_held : ∀ p q l d, held q l d → held q l (π.kill p d)
  env_free : ∀ v d d', π.env v d = .ok d' → free d → free d'
  env_own : ∀ v q l d d', π.env v d = .ok d' → own q l d → own q l d'
  env_held : ∀ v q l d d', π.env v d = .ok d' → own q l d → held q l d → held q l d'
  acquire : ∀ p e l d d' l', π.next p e l d = .ok (.acquire d' l') → own p l d → free d →
    own p l' d' ∧ held p l' d' ∧ ∀ q m, q ≠ p → own q m d → own q m d'
  act : ∀ p e l d d' l', π.next p e l d = .ok (.act d' l') → own p l d → held p l d →
    own p l' d' ∧ held p l' d' ∧ ∀ q m, q ≠ p → own q m d → own q m d'
  sleep : ∀ p e l d c l', π.next p e l d = .ok (.sleep c l') → own p l d → held p l d →
    own p l' d ∧ free d ∧ resumes l'
  wakeup : ∀ p e l d c l', π.next p e l d = .ok (.wakeup c l') → own p l d → held p l d →
    own p l' d ∧ held p l' d
  release : ∀ p e l d d' l', π.next p e l d = .ok (.release d' l') → own p l d → held p l d →
    own p l' d' ∧ free d' ∧ ∀ q m, q ≠ p → own q m d → own q m d'

namespace Outline

variable {π : Program P E V D L C X} (O : Outline π) {s s' : State P D L C}

/-- What is known of the data by who has the lock. A thread that is about to give it up in `sleep`
has left the data as it has to be while nobody has the lock. -/
def Under (s : State P D L C) : Prop :=
  match s.lock with
  | none => O.free s.data
  | some p => (¬ (s.thread p).Parked → O.held p (s.thread p).loc s.data) ∧
      ((s.thread p).Parked → O.free s.data)

structure Inv (s : State P D L C) : Prop where
  locks : Locks π s
  own : ∀ p, O.own p (s.thread p).loc s.data
  under : O.Under s
  resumes : ∀ p, (s.thread p).Parked → O.resumes (s.thread p).loc

variable {O}

theorem Inv.init {d : D} {l : L} (hl : ¬ π.inside l) (hf : O.free d) (ho : ∀ p, O.own p l d) :
    O.Inv (.init d l) :=
  ⟨.init d hl, ho, hf, fun _ h ↦ h.elim⟩

theorem Inv.held (h : O.Inv s) {p : P} (hp : s.lock = some p) (ht : ¬ (s.thread p).Parked) :
    O.held p (s.thread p).loc s.data := by
  have hu := h.under
  rw [Under, hp] at hu
  exact hu.1 ht

theorem Inv.free (h : O.Inv s) (hs : s.lock = none) : O.free s.data := by
  have hu := h.under
  rwa [Under, hs] at hu

theorem Inv.always {J : D → Prop} (h : O.Inv s) (hf : ∀ d, O.free d → J d)
    (hh : ∀ p l d, π.inside l → O.held p l d → J d) : J s.data := by
  have hu := h.under
  unfold Under at hu
  split at hu
  · exact hf _ hu
  · rename_i p hl
    by_cases hp : (s.thread p).Parked
    · exact hf _ (hu.2 hp)
    · exact hh p _ _ (h.locks.inside_loc hl) (hu.1 hp)

theorem Inv.holder (h : O.Inv s) {p : P} {l : L} (ht : s.thread p = .run l) (hl : π.inside l) :
    s.lock = some p ∧ O.own p l s.data ∧ O.held p l s.data := by
  have hp : s.lock = some p := (h.locks.lock p).mpr (by rw [ht]; exact hl)
  have ho := h.own p
  have hh := h.held hp (by simp [ht, Thread.Parked])
  rw [ht] at ho hh
  exact ⟨hp, ho, hh⟩

theorem Inv.data {d : D} (h : O.Inv s) (hf : O.free s.data → O.free d)
    (ho : ∀ q l, O.own q l s.data → O.own q l d)
    (hh : ∀ q l, O.own q l s.data → O.held q l s.data → O.held q l d) :
    O.Inv { s with data := d } := by
  refine ⟨⟨h.locks.lock, h.locks.table, h.locks.inside⟩, fun q ↦ ho q _ (h.own q), ?_, h.resumes⟩
  have hu := h.under
  unfold Under at hu ⊢
  cases hs : s.lock with
  | none =>
    rw [hs] at hu
    exact hf hu
  | some q =>
    rw [hs] at hu
    exact ⟨fun hq ↦ hh q _ (h.own q) (hu.1 hq), fun hq ↦ hf (hu.2 hq)⟩

theorem Inv.kill (h : O.Inv s) (p : P) : O.Inv { s with data := π.kill p s.data } :=
  h.data (O.kill_free p _) (fun q l ↦ O.kill_own p q l _) (fun q l _ ↦ O.kill_held p q l _)

theorem Inv.woken [DecidableEq C] (h : O.Inv s) (c : C) :
    O.Inv { s with thread := fun q ↦ (s.thread q).woken c } := by
  refine ⟨h.locks.woken c, fun q ↦ ?_, ?_, fun q hq ↦ ?_⟩
  · rw [Thread.loc_woken]
    exact h.own q
  · have hu := h.under
    unfold Under at hu ⊢
    cases hs : s.lock with
    | none => simpa [hs] using hu
    | some q => simpa [hs, Thread.loc_woken, Thread.parked_woken] using hu
  · rw [Thread.loc_woken]
    exact h.resumes q ((Thread.parked_woken _ c).mp hq)

variable [DecidableEq P]

theorem Inv.move {p : P} {t : Thread L C} (h : O.Inv s) (hl : Locks π s')
    (ht : s'.thread = update s.thread p t) (ho : O.own p t.loc s'.data)
    (hothers : ∀ q m, q ≠ p → O.own q m s.data → O.own q m s'.data) (hu : O.Under s')
    (hr : t.Parked → O.resumes t.loc) : O.Inv s' := by
  refine ⟨hl, fun q ↦ ?_, hu, fun q ↦ ?_⟩
  · rw [ht, update_apply]
    split
    · rename_i hq
      exact hq ▸ ho
    · exact hothers q _ ‹_› (h.own q)
  · rw [ht, update_apply]
    split
    · exact hr
    · exact h.resumes q

theorem under_goto {p : P} {t : Thread L C} (h : O.Under s) (hd : s'.data = s.data)
    (hl : s'.lock = s.lock) (ht : s'.thread = update s.thread p t) (hloc : t.loc = (s.thread p).loc)
    (hp : t.Parked ↔ (s.thread p).Parked) : O.Under s' := by
  unfold Under at h ⊢
  rw [hd, hl, ht]
  cases hs : s.lock with
  | none => simpa [hs] using h
  | some q =>
    simp only [hs] at h ⊢
    by_cases hq : q = p
    · subst hq
      simpa [hloc, hp] using h
    · simpa [update_of_ne hq] using h

variable [DecidableEq C]

theorem Inv.step {a : Act P E V} (h : O.Inv s) (hs : Step π s a s') : O.Inv s' := by
  have hl := h.locks.step hs
  cases hs with
  | acquire p e l d l' ht hn hlock =>
    have hown := h.own p
    rw [ht] at hown
    obtain ⟨ho, hh, hothers⟩ := O.acquire _ _ _ _ _ _ hn hown (h.free hlock)
    refine h.move hl rfl ho hothers ?_ (fun h' ↦ h'.elim)
    simp [Under, State.goto, Thread.Parked, Thread.loc, hh]
  | act p e l d l' ht hn =>
    obtain ⟨hp, ho, hh⟩ := h.holder ht (π.bracketed _ _ _ _ _ hn).1
    obtain ⟨ho', hh', hothers⟩ := O.act _ _ _ _ _ _ hn ho hh
    refine h.move hl rfl ho' hothers ?_ (fun h' ↦ h'.elim)
    simp [Under, State.goto, hp, Thread.Parked, Thread.loc, hh']
  | sleep p e l c l' ht hn =>
    obtain ⟨hp, ho, hh⟩ := h.holder ht (π.bracketed _ _ _ _ _ hn).1
    obtain ⟨ho', hf, hr⟩ := O.sleep _ _ _ _ _ _ hn ho hh
    refine h.move hl rfl ho' (fun _ _ _ h' ↦ h') ?_ (fun _ ↦ hr)
    simp [Under, State.goto, hp, Thread.Parked, hf]
  | wakeup p e l c l' ht hn =>
    obtain ⟨hp, ho, hh⟩ := h.holder ht (π.bracketed _ _ _ _ _ hn).1
    obtain ⟨ho', hh'⟩ := O.wakeup _ _ _ _ _ _ hn ho hh
    refine h.move hl rfl ho' (fun _ _ _ h' ↦ h') ?_ (fun h' ↦ h'.elim)
    simp [Under, State.goto, hp, Thread.Parked, Thread.loc, hh']
  | release p e l d l' ht hn =>
    obtain ⟨hp, ho, hh⟩ := h.holder ht (π.bracketed _ _ _ _ _ hn).1
    obtain ⟨ho', hf, hothers⟩ := O.release _ _ _ _ _ _ hn ho hh
    exact h.move hl rfl ho' hothers hf (fun h' ↦ h'.elim)
  | takeTable p e t htable hn hh =>
    have hpark := Thread.parked_next hn
    refine h.move hl rfl ?_ (fun _ _ _ h' ↦ h') ?_ (fun h' ↦ ?_)
    · rw [Thread.loc_next hn]
      exact h.own p
    · exact under_goto h.under rfl rfl rfl (Thread.loc_next hn) hpark
    · rw [Thread.loc_next hn]
      exact h.resumes p (hpark.mp h')
  | leaveTable p e t hn hh hh' =>
    have hpark := Thread.parked_next hn
    refine h.move hl rfl ?_ (fun _ _ _ h' ↦ h') ?_ (fun h' ↦ ?_)
    · rw [State.leaveTable, Thread.loc_next hn]
      exact h.own p
    · exact under_goto h.under rfl rfl rfl (Thread.loc_next hn) hpark
    · rw [Thread.loc_next hn]
      exact h.resumes p (hpark.mp h')
  | unlock p e c l ht =>
    have hp : s.lock = some p := (h.locks.lock p).mpr (by rw [ht]; trivial)
    have hu := h.under
    rw [Under, hp] at hu
    have hown := h.own p
    have hres := h.resumes p (by rw [ht]; trivial)
    rw [ht] at hown hres
    exact h.move hl rfl hown (fun _ _ _ h' ↦ h') (hu.2 (by rw [ht]; trivial)) (fun _ ↦ hres)
  | reacquire p e l ht hlock =>
    have hown := h.own p
    have hres := h.resumes p (by rw [ht]; trivial)
    rw [ht] at hown hres
    have hh := O.resume p l s.data hres hown (h.free hlock)
    refine h.move hl rfl hown (fun _ _ _ h' ↦ h') ?_ (fun h' ↦ h'.elim)
    simp [Under, State.goto, Thread.Parked, Thread.loc, hh]
  | scan p e c l ht =>
    have hown := h.own p
    rw [ht] at hown
    refine (h.woken c).move hl rfl hown (fun _ _ _ h' ↦ h') ?_ (fun h' ↦ h'.elim)
    refine under_goto (p := p) (h.woken c).under rfl rfl rfl ?_ ?_
    · simp [ht, Thread.woken, Thread.loc]
    · simp [ht, Thread.woken, Thread.Parked]
  | kill p htable =>
    refine (h.kill p).move hl rfl ?_ (fun _ _ _ h' ↦ h') ?_ (fun h' ↦ ?_)
    · rw [Thread.loc_roused]
      exact (h.kill p).own p
    · exact under_goto (h.kill p).under rfl rfl rfl (Thread.loc_roused _) (Thread.parked_roused _)
    · rw [Thread.loc_roused]
      exact h.resumes p ((Thread.parked_roused _).mp h')
  | env v d hv =>
    exact h.data (O.env_free v _ _ hv) (fun q l ↦ O.env_own v q l _ _ hv)
      (fun q l ↦ O.env_held v q l _ _ hv)

theorem Inv.run {acts : List (Act P E V)} (h : O.Inv s)
    (he : exec π.step acts s = .ok s') : O.Inv s' :=
  exec_invariant (fun _ _ _ h hs ↦ h.step (.of_step hs)) h he

end Outline

end Xv6Bfs.Lib.Monitor

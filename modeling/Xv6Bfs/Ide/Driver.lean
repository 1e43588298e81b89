import Xv6Bfs.Ide.Refinement

namespace Xv6Bfs.Ide

open Lib.Execution Lib.History Lib.Monitor Lib.PointerQueue Function

variable {P B α : Type}

theorem eq_singleton_of_head {q : List B} {b : B} (hd : (q ++ [b]).Nodup)
    (hh : (q ++ [b]).head? = some b) : q = [] := by
  cases q with
  | nil => rfl
  | cons c q =>
    cases hh
    simp at hd

variable [DecidableEq B]

def Pc.current : Pc B → Option B
  | .walk b _ | .start b | .wait b => some b
  | _ => none

def Progress (pc : Pc B) (b : B) (d : Mem P B α) : Prop :=
  match pc with
  | .walk .. => phase b d.log = .called ∧ (d.store.buf b).synced = false
  | _ => (phase b d.log = .submitted ∧ (d.store.buf b).synced = false) ∨
      (phase b d.log = .served ∧ (d.store.buf b).synced = true)

/-- What a process knows of the buffers: a call is under way only for a locked buffer, and if the
process has the lock, only for the one that it is in `iderw` for. -/
structure Own (q : P) (pc : Pc B) (d : Mem P B α) : Prop where
  unlocked : ∀ b, (d.store.buf b).lock = none → phase b d.log = .idle
  others : ∀ b, (d.store.buf b).lock = some q → pc.current ≠ some b → phase b d.log = .idle
  current : ∀ b, pc.current = some b → (d.store.buf b).lock = some q ∧
    (d.store.buf b).dev = 1 ∧ (d.store.buf b).blockno < FSSIZE ∧ Progress pc b d

namespace Own

variable {p q : P} {pc pc' : Pc B} {d d' : Mem P B α} {b : B}

theorem progress_congr (hbuf : d'.store.buf b = d.store.buf b)
    (hph : phase b d'.log = phase b d.log) (h : Progress pc b d) : Progress pc b d' := by
  cases pc <;> simp only [Progress, hbuf, hph] at h ⊢ <;> exact h

theorem frame (h : Own q pc d) (hb : (d.store.buf b).lock = some p) (hq : q ≠ p)
    (hlock : (d'.store.buf b).lock = some p) (hbuf : ∀ c, c ≠ b → d'.store.buf c = d.store.buf c)
    (hph : ∀ c, c ≠ b → phase c d'.log = phase c d.log) : Own q pc d' := by
  refine ⟨fun c hc ↦ ?_, fun c hc hcur ↦ ?_, fun c hc ↦ ?_⟩
  · have hne : c ≠ b := by
      rintro rfl
      simp [hlock] at hc
    rw [hph c hne]
    exact h.unlocked c (by rwa [hbuf c hne] at hc)
  · have hne : c ≠ b := by
      rintro rfl
      simp [hlock, hq.symm] at hc
    rw [hph c hne]
    exact h.others c (by rwa [hbuf c hne] at hc) hcur
  · obtain ⟨hl, hdev, hno, hp⟩ := h.current c hc
    have hne : c ≠ b := by
      rintro rfl
      simp [hb, hq.symm] at hl
    rw [hbuf c hne]
    exact ⟨hl, hdev, hno, progress_congr (hbuf c hne) (hph c hne) hp⟩

theorem go (h : Own p pc d) (hbuf : d'.store.buf = d.store.buf) (hb : (d.store.buf b).lock = some p)
    (hpc : pc.current = none ∨ pc.current = some b) (hcur : pc'.current = some b)
    (hph : ∀ c, c ≠ b → phase c d'.log = phase c d.log) (hdev : (d.store.buf b).dev = 1)
    (hno : (d.store.buf b).blockno < FSSIZE) (hp : Progress pc' b d') : Own p pc' d' := by
  refine ⟨fun c hc ↦ ?_, fun c hc hne ↦ ?_, fun c hc ↦ ?_⟩
  · rw [hbuf] at hc
    have hne : c ≠ b := by
      rintro rfl
      simp [hb] at hc
    rw [hph c hne]
    exact h.unlocked c hc
  · rw [hbuf] at hc
    have hcb : c ≠ b := by
      rintro rfl
      exact hne hcur
    rw [hph c hcb]
    refine h.others c hc ?_
    rcases hpc with hpc | hpc
    · simp [hpc]
    · simpa [hpc] using hcb.symm
  · rw [hcur] at hc
    cases hc
    rw [hbuf]
    exact ⟨hb, hdev, hno, hp⟩

theorem congr (h : Own q pc d) (hbuf : d'.store.buf = d.store.buf) (hlog : d'.log = d.log)
    (hcur : pc'.current = pc.current) (hp : ∀ b, pc.current = some b → Progress pc b d → Progress pc' b d) :
    Own q pc' d' := by
  refine ⟨fun c hc ↦ ?_, fun c hc hne ↦ ?_, fun c hc ↦ ?_⟩
  · rw [hlog]
    exact h.unlocked c (hbuf ▸ hc)
  · rw [hlog]
    exact h.others c (hbuf ▸ hc) (hcur ▸ hne)
  · rw [hcur] at hc
    obtain ⟨hl, hdev, hno, hpr⟩ := h.current c hc
    rw [hbuf]
    exact ⟨hl, hdev, hno, progress_congr (by rw [hbuf]) (by rw [hlog]) (hp c hc hpr)⟩

theorem phase_ne_idle (h : Progress pc b d) : phase b d.log ≠ .idle := by
  cases pc <;> simp only [Progress] at h <;> grind

theorem setBuf (h : Own q pc d) (hb : phase b d.log = .idle)
    (hbuf : ∀ c, c ≠ b → d'.store.buf c = d.store.buf c)
    (hph : ∀ c, phase c d'.log = phase c d.log) : Own q pc d' := by
  refine ⟨fun c hc ↦ ?_, fun c hc hne ↦ ?_, fun c hc ↦ ?_⟩
  · rw [hph]
    by_cases hcb : c = b
    · exact hcb ▸ hb
    · exact h.unlocked c (hbuf c hcb ▸ hc)
  · rw [hph]
    by_cases hcb : c = b
    · exact hcb ▸ hb
    · exact h.others c (hbuf c hcb ▸ hc) hne
  · obtain ⟨hl, hdev, hno, hp⟩ := h.current c hc
    have hcb : c ≠ b := by
      rintro rfl
      exact phase_ne_idle hp hb
    rw [hbuf c hcb]
    exact ⟨hl, hdev, hno, progress_congr (hbuf c hcb) (hph c) hp⟩

theorem serve (h : Own q pc d) (hb : phase b d.log = .submitted)
    (hlock : (d.store.buf b).lock ≠ none) : Own q pc (d.serve b) := by
  have hself : ((d.serve b).store.buf b) = { d.store.buf b with
      data := if (d.store.buf b).dirty then (d.store.buf b).data else d.reg,
      valid := true, dirty := false } := update_self _ _ _
  have hbuf : ∀ c, c ≠ b → (d.serve b).store.buf c = d.store.buf c := fun c hc ↦ update_of_ne hc _ _
  have hph : ∀ c, c ≠ b → phase c (d.serve b).log = phase c d.log := by
    intro c hc
    change phase c (.serve b :: d.log) = _
    simp [phase, hc.symm]
  refine ⟨fun c hc ↦ ?_, fun c hc hne ↦ ?_, fun c hc ↦ ?_⟩
  · by_cases hcb : c = b
    · subst hcb
      rw [hself] at hc
      exact absurd hc hlock
    · rw [hph c hcb]
      exact h.unlocked c (hbuf c hcb ▸ hc)
  · by_cases hcb : c = b
    · subst hcb
      rw [hself] at hc
      have := h.others c hc hne
      rw [hb] at this
      cases this
    · rw [hph c hcb]
      exact h.others c (hbuf c hcb ▸ hc) hne
  · obtain ⟨hl, hdev, hno, hp⟩ := h.current c hc
    by_cases hcb : c = b
    · subst hcb
      have hserved : phase c (d.serve c).log = .served := by
        change phase c (.serve c :: d.log) = _
        simp [phase]
      rw [hself]
      refine ⟨hl, hdev, hno, ?_⟩
      cases pc with
      | walk => simp [Progress, hb] at hp
      | _ => exact .inr ⟨hserved, by rw [hself]; rfl⟩
    · rw [hbuf c hcb]
      exact ⟨hl, hdev, hno, progress_congr (hbuf c hcb) (hph c hcb) hp⟩

end Own

variable [DecidableEq P] {s₀ : Store P B α}

def Unlocked (d : Mem P B α) : Prop := ∀ b, (d.store.buf b).lock = none → phase b d.log = .idle

def held (s₀ : Store P B α) (pc : Pc B) (d : Mem P B α) : Prop :=
  match pc with
  | .idle => True
  | .walk b pp => Sound s₀ d (queue d.log).head? ∧ d.link (some b) = none ∧
      ∃ l₁ l₂, queue d.log = l₁ ++ l₂ ∧ pp = lastPtr none l₁
  | .start b => ∃ q, queue d.log = q ++ [b] ∧ Sound s₀ d q.head?
  | .wait _ | .intrDone => Sound s₀ d (queue d.log).head?
  | .intr => Sound s₀ d (queue d.log).head? ∧ d.done = true
  | .intrWakeup _ | .intrNext => Sound s₀ d none

theorem held.exists_sound {pc : Pc B} {d : Mem P B α} (h : held s₀ pc d) (hin : pc.inside) :
    ∃ head, Sound s₀ d head := by
  cases pc with
  | idle => exact hin.elim
  | walk => exact ⟨_, h.1⟩
  | start =>
    obtain ⟨q, -, hs⟩ := h
    exact ⟨_, hs⟩
  | intr => exact ⟨_, h.1⟩
  | wait | intrDone | intrWakeup | intrNext => exact ⟨_, h⟩

structure Outside (d d' : Mem P B α) : Prop where
  sound : ∀ {s₀ head}, Sound s₀ d head → Sound s₀ d' head
  own : ∀ {q pc}, Own q pc d → Own q pc d'
  unlocked : Unlocked d → Unlocked d'
  link : d'.link = d.link
  queue : queue d'.log = queue d.log
  done : d.done = true → d'.done = true

theorem Outside.setBuf {d : Mem P B α} {b : B} {v : Buf P α} {e : Event P B α}
    (hb : phase b d.log = .idle) (hq : Ide.queue (e :: d.log) = Ide.queue d.log)
    (hph : ∀ c, phase c (e :: d.log) = phase c d.log) (he : e.Justified d.log)
    (hr : ∀ s : Store P B α, s.buf = d.store.buf → e.apply s = .ok (s.setBuf b v)) :
    Outside d ((d.setBuf b v).emit e) where
  sound h := h.setBuf hb hq hph he hr
  own h := h.setBuf hb (fun _ hc ↦ update_of_ne hc _ _) hph
  unlocked h := by
    intro c hc
    change phase c (e :: d.log) = .idle
    rw [hph]
    by_cases hcb : c = b
    · exact hcb ▸ hb
    · refine h c ?_
      rw [← hc]
      exact congrArg Buf.lock (update_of_ne hcb _ _).symm
  link := rfl
  queue := hq
  done h := h

theorem env_scope {v : Env P B α} {d d' : Mem P B α} (h : env v d = .ok d') (hs : InScope d'.log) :
    InScope d.log := by
  cases v with
  | complete =>
    simp only [env] at h
    split at h
    · split at h <;> cases h
      rwa [(complete_frame d _).2.1] at hs
    · cases h
  | take | drop | modify =>
    simp only [env] at h
    split at h <;> cases h
    exact hs.tail

theorem Outside.of_env {v : Env P B α} {d d' : Mem P B α} (h : env v d = .ok d') (hu : Unlocked d) :
    Outside d d' := by
  cases v with
  | complete =>
    simp only [env] at h
    split at h
    · rename_i c hc
      split at h <;> cases h
      obtain ⟨hbuf, hlog, hlink, -, hdone⟩ := complete_frame d c
      refine ⟨fun hs ↦ hs.complete hc (by simpa using ‹¬ d.done = true›),
        fun ho ↦ ho.congr hbuf hlog rfl (fun _ _ hp ↦ hp), ?_, hlink, by rw [hlog], fun _ ↦ hdone⟩
      intro hu c
      rw [hbuf, hlog]
      exact hu c
    · cases h
  | take p b =>
    simp only [env] at h
    split at h <;> cases h
    exact .setBuf (hu b ‹_›) rfl (fun _ ↦ rfl) trivial (fun s hs ↦ by simp [Event.apply, hs])
  | drop p b =>
    simp only [env] at h
    split at h <;> cases h
    rename_i hb
    exact .setBuf hb.2 rfl (fun _ ↦ rfl) trivial (fun s hs ↦ by simp [Event.apply, hs])
  | modify p b v =>
    simp only [env] at h
    split at h <;> cases h
    rename_i hb
    exact .setBuf hb.2 rfl (fun _ ↦ rfl) trivial (fun s hs ↦ by simp [Event.apply])

theorem Outside.held {d d' : Mem P B α} (h : Outside d d') {pc : Pc B} (hh : held s₀ pc d) :
    held s₀ pc d' := by
  cases pc with
  | idle => trivial
  | walk b pp =>
    obtain ⟨hs, hl, hpp⟩ := hh
    exact ⟨by rw [h.queue]; exact h.sound hs, by rw [h.link]; exact hl, by rw [h.queue]; exact hpp⟩
  | start b =>
    obtain ⟨q, hq, hs⟩ := hh
    exact ⟨q, by rw [h.queue]; exact hq, h.sound hs⟩
  | wait | intrDone => exact by rw [Ide.held, h.queue]; exact h.sound hh
  | intr => exact ⟨by rw [h.queue]; exact h.sound hh.1, h.done hh.2⟩
  | intrWakeup | intrNext => exact h.sound hh

def outline (s₀ : Store P B α) (havedisk1 : Bool) : Outline (program P B α havedisk1) where
  free d := InScope d.log → Sound s₀ d (queue d.log).head? ∧ Unlocked d
  own q pc d := InScope d.log → Own q pc d
  held _ pc d := InScope d.log → held s₀ pc d
  resumes pc := ∃ b, pc = .wait b
  resume := by
    rintro p pc d ⟨b, rfl⟩ _ hf hs
    exact (hf hs).1
  kill_free _ _ h := h
  kill_own _ _ _ _ h := h
  kill_held _ _ _ _ h := h
  env_free := by
    intro v d d' h hf hs
    obtain ⟨hsound, hu⟩ := hf (env_scope h hs)
    have hout := Outside.of_env h hu
    exact ⟨by rw [hout.queue]; exact hout.sound hsound, hout.unlocked hu⟩
  env_own := by
    intro v q pc d d' h ho hs
    have hown := ho (env_scope h hs)
    exact (Outside.of_env h hown.unlocked).own hown
  env_held := by
    intro v q pc d d' h ho hh hs
    have hsc := env_scope h hs
    exact (Outside.of_env h (ho hsc).unlocked).held (hh hsc)
  acquire := by
    intro p call pc d d' pc' h ho hf
    cases Move.of_next h with
    | iderw b hl hs =>
      refine ⟨fun hsc ↦ ?_, fun hsc ↦ ?_, fun q m hq hm hsc ↦ ?_⟩
      · have hb := (ho hsc.tail).others b hl (by simp [Pc.current])
        obtain ⟨hdev, hno⟩ := hsc _ List.mem_cons_self
        refine (ho hsc.tail).go rfl hl (.inl rfl) rfl (fun c hc ↦ ?_) hdev hno ⟨?_, hs⟩
        · simp [Mem.emit, Mem.setLink, phase, hc.symm]
        · simp [Mem.emit, phase]
      · have hb := (ho hsc.tail).others b hl (by simp [Pc.current])
        have hsound := (hf hsc.tail).1.call hb (d.store.buf b).dev (d.store.buf b).blockno
        exact ⟨hsound, update_self _ _ _, [], _, rfl, rfl⟩
      · refine (hm hsc.tail).frame hl hq hl (fun _ _ ↦ rfl) (fun c hc ↦ ?_)
        simp [Mem.emit, Mem.setLink, phase, hc.symm]
    | ideintr hd =>
      exact ⟨fun hsc ↦ (ho hsc).congr rfl rfl rfl (by simp [Pc.current]),
        fun hsc ↦ ⟨(hf hsc).1, hd⟩, fun _ _ _ hm ↦ hm⟩
  act := by
    intro p call pc d d' pc' h ho hh
    cases Move.of_next h with
    | walk b pp c hl =>
      refine ⟨fun hsc ↦ (ho hsc).congr rfl rfl rfl (fun _ _ hp ↦ hp), fun hsc ↦ ?_, fun _ _ _ hm ↦ hm⟩
      obtain ⟨hs, hb, l₁, l₂, hq, rfl⟩ := hh hsc
      have hhead := ((hq ▸ hs.chain).drop).head
      rw [hl] at hhead
      obtain ⟨l, rfl⟩ := List.head?_eq_some_iff.mp hhead.symm
      exact ⟨hs, hb, l₁ ++ [c], l, by simp [hq], by rw [lastPtr_concat]⟩
    | submit b pp hl =>
      have hph : ∀ c, c ≠ b →
          phase c ((d.setLink pp (some b)).emit (.submit b)).log = phase c d.log := by
        intro c hc
        simp [Mem.emit, Mem.setLink, phase, hc.symm]
      refine ⟨fun hsc ↦ ?_, fun hsc ↦ ?_, fun q m hq hm hsc ↦ ?_⟩
      · obtain ⟨hlock, hdev, hno, hp⟩ := (ho hsc.tail).current b rfl
        refine (ho hsc.tail).go rfl hlock (.inr rfl) rfl hph hdev hno (.inl ⟨?_, hp.2⟩)
        simp [Mem.emit, phase]
      · obtain ⟨hlock, hdev, hno, hp⟩ := (ho hsc.tail).current b rfl
        obtain ⟨hs, hb, l₁, l₂, hqueue, rfl⟩ := hh hsc.tail
        -- the loop has come to the end of the queue
        have hhead := ((hqueue ▸ hs.chain).drop).head
        rw [hl, eq_comm, List.head?_eq_none_iff] at hhead
        rw [hhead, List.append_nil] at hqueue
        rw [← hqueue]
        exact ⟨queue d.log, rfl, hs.submit hp.1 hb hp.2 hdev hno (by simp [hlock])⟩
      · obtain ⟨hlock, -⟩ := (ho hsc.tail).current b rfl
        exact (hm hsc.tail).frame hlock hq hlock (fun _ _ ↦ rfl) hph
    | start b hl =>
      refine ⟨fun hsc ↦ (ho hsc).congr rfl rfl rfl (fun _ _ hp ↦ hp), fun hsc ↦ ?_,
        fun _ _ _ hm hsc ↦ (hm hsc).congr rfl rfl rfl (fun _ _ hp ↦ hp)⟩
      obtain ⟨q, hq, hs⟩ := hh hsc
      have hhead := hs.chain.head
      rw [hl] at hhead
      have hnil := eq_singleton_of_head (hq ▸ hs.nodup) (hq ▸ hhead.symm)
      rw [hnil] at hs
      have := hs.send hhead.symm
      rwa [hhead] at this
    | started b hl =>
      refine ⟨fun hsc ↦ (ho hsc).congr rfl rfl rfl (fun _ _ hp ↦ hp), fun hsc ↦ ?_, fun _ _ _ hm ↦ hm⟩
      obtain ⟨q, hq, hs⟩ := hh hsc
      have hhead := hs.chain.head
      rw [hq] at hhead
      cases q with
      | nil => exact absurd hhead hl
      | cons c q =>
        rw [Ide.held, hq]
        exact hs
    | serve b hl =>
      have hb : ∀ hsc : InScope d.log, (queue d.log).head? = some b :=
        fun hsc ↦ (hh hsc).1.chain.head.symm.trans hl
      have hq : ∀ hsc : InScope d.log, phase b d.log = .submitted ∧ (d.store.buf b).lock ≠ none := by
        intro hsc
        obtain ⟨hph, -, -, -, hlock⟩ := (hh hsc).1.queued b (List.mem_of_mem_head? (hb hsc))
        exact ⟨hph, hlock⟩
      refine ⟨fun hsc ↦ ?_, fun hsc ↦ ?_, fun q m _ hm hsc ↦ ?_⟩
      · have hserve := (ho hsc.tail).serve (hq hsc.tail).1 (hq hsc.tail).2
        exact hserve.congr rfl rfl rfl (by simp [Pc.current])
      · exact (hh hsc.tail).1.serve (hh hsc.tail).2 (hb hsc.tail) (hb hsc.tail)
      · exact (hm hsc.tail).serve (hq hsc.tail).1 (hq hsc.tail).2
    | intrIdle hl =>
      refine ⟨fun hsc ↦ (ho hsc).congr rfl rfl rfl (by simp [Pc.current]), fun hsc ↦ ?_,
        fun _ _ _ hm ↦ hm⟩
      have hs := hh hsc
      change Sound s₀ d (queue d.log).head?
      rw [← hs.chain.head, hl]
      exact hs
    | intrNext b hl =>
      refine ⟨fun hsc ↦ (ho hsc).congr rfl rfl rfl (by simp [Pc.current]), fun hsc ↦ ?_,
        fun _ _ _ hm hsc ↦ (hm hsc).congr rfl rfl rfl (fun _ _ hp ↦ hp)⟩
      have hs := hh hsc
      have hhead := hs.chain.head
      rw [hl] at hhead
      change Sound s₀ (d.send b) (queue d.log).head?
      rw [← hhead]
      exact hs.send hhead.symm
  sleep := by
    intro p call pc d c pc' h ho hh
    cases Move.of_next h with
    | sleep => exact ⟨ho, fun hsc ↦ ⟨hh hsc, (ho hsc).unlocked⟩, _, rfl⟩
  wakeup := by
    intro p call pc d c pc' h ho hh
    cases Move.of_next h with
    | intrWakeup b => exact ⟨fun hsc ↦ (ho hsc).congr rfl rfl rfl (by simp [Pc.current]), hh⟩
  release := by
    intro p call pc d d' pc' h ho hh
    cases Move.of_next h with
    | ret b hs =>
      have hph : ∀ c, c ≠ b → phase c (d.emit (.ret b)).log = phase c d.log := by
        intro c hc
        simp [Mem.emit, phase, hc.symm]
      have hb : phase b (d.emit (.ret b)).log = .idle := by simp [Mem.emit, phase]
      have hown : ∀ hsc : InScope d.log, Own p .idle (d.emit (.ret b)) := by
        intro hsc
        refine ⟨fun c hc ↦ ?_, fun c hc _ ↦ ?_, nofun⟩
        · by_cases hcb : c = b
          · exact hcb ▸ hb
          · exact (hph c hcb).trans ((ho hsc).unlocked c hc)
        · by_cases hcb : c = b
          · exact hcb ▸ hb
          · exact (hph c hcb).trans ((ho hsc).others c hc (by simpa [Pc.current] using Ne.symm hcb))
      refine ⟨fun hsc ↦ hown hsc.tail, fun hsc ↦ ?_, fun q m hq hm hsc ↦ ?_⟩
      · obtain ⟨-, -, -, hp⟩ := (ho hsc.tail).current b rfl
        have hserved : phase b d.log = .served := by
          rcases hp with hp | hp
          · rw [hp.2] at hs
            cases hs
          · exact hp.1
        exact ⟨(hh hsc.tail).ret hserved, (hown hsc.tail).unlocked⟩
      · obtain ⟨hlock, -⟩ := (ho hsc.tail).current b rfl
        exact (hm hsc.tail).frame hlock hq hlock (fun _ _ ↦ rfl) hph
    | spurious =>
      exact ⟨fun hsc ↦ (ho hsc).congr rfl rfl rfl (by simp [Pc.current]),
        fun hsc ↦ ⟨(hh hsc).1, (ho hsc).unlocked⟩, fun _ _ _ hm ↦ hm⟩
    | intrDone =>
      exact ⟨fun hsc ↦ (ho hsc).congr rfl rfl rfl (by simp [Pc.current]),
        fun hsc ↦ ⟨hh hsc, (ho hsc).unlocked⟩, fun _ _ _ hm ↦ hm⟩

theorem init_inv (buf : B → Buf P α) (disk : ℕ → α) (reg : α) (havedisk1 : Bool) :
    (outline ⟨fun b ↦ { buf b with lock := none }, disk⟩ havedisk1).Inv (init buf disk reg) := by
  refine .init id (fun _ ↦ ⟨?_, fun _ _ ↦ rfl⟩) (fun q _ ↦ ⟨fun _ _ ↦ rfl, fun _ _ _ ↦ rfl, nofun⟩)
  exact ⟨rfl, List.nodup_nil, trivial, nofun, nofun, rfl, nofun, disk, rfl, fun _ ↦ rfl, nofun⟩

/-- The driver with interrupts does what the driver of `memide.c` does. -/
theorem ide_refines_memide {havedisk1 : Bool} {buf : B → Buf P α} {disk : ℕ → α} {reg : α}
    {acts : List (Act P (Call B) (Env P B α))} {s : State P (Mem P B α) (Pc B) B}
    (h : exec (program P B α havedisk1).step acts (init buf disk reg) = .ok s)
    (hscope : InScope s.data.log) :
    -- the disk executes a command exactly if the queue is not empty, and then for its head
    (s.lock = none → s.data.cmd = (s.data.link none).map fun b ↦ command (s.data.store.buf b)) ∧
    -- the pointers lead through the requests not yet served, each once, in the order submitted
    (Chained s.data.link none (queue s.data.log) ∧ (queue s.data.log).Nodup ∧
      submitted s.data.log = served s.data.log ++ queue s.data.log) ∧
    -- a call returned only after its request was served
    (∀ b l, .ret b :: l <:+ s.data.log → phase b l = .served) ∧
    -- the buffers are those of the other driver, and so is the disk, up to a command that is carried
    -- out and whose interrupt is not yet handled
    ∃ disk', replay ⟨fun b ↦ { buf b with lock := none }, disk⟩ s.data.log =
        .ok ⟨s.data.store.buf, disk'⟩ ∧
      (s.data.done = false → s.data.store.disk = disk') ∧
      ∀ c, s.data.done = true → s.data.cmd = some c → s.data.store.disk = c.run disk' := by
  have hinv := (init_inv buf disk reg havedisk1).run h
  obtain ⟨head, hs⟩ := hinv.always (J := fun d ↦ InScope d.log → ∃ head, Sound _ d head)
    (fun d hf hsc ↦ ⟨_, (hf hsc).1⟩) (fun p pc d hin hh hsc ↦ (hh hsc).exists_sound hin) hscope
  refine ⟨fun hl ↦ ?_, ⟨hs.chain, hs.nodup, submitted_eq hs.orderly⟩,
    fun b l hb ↦ hs.orderly.justified hb, ?_⟩
  · have hfree := (hinv.free hl hscope).1
    rw [hfree.cmd, hfree.chain.head]
  · obtain ⟨disk', hrep, hidle, hdone⟩ := hs.refines
    exact ⟨disk', hrep, hidle, fun c hd hc ↦ (hdone c hd hc).1⟩

def writeThenRead : List (Act (Fin 3) (Call (Fin 2)) (Env (Fin 3) (Fin 2) ℕ)) :=
  [.env (.take 0 0), .env (.modify 0 0 ⟨true, true, 1, 5, 42, none⟩), .env (.take 1 1),
    .env (.modify 1 1 ⟨false, false, 1, 5, 0, none⟩)] ++
  List.replicate 7 (.step 0 (.iderw 0)) ++ List.replicate 8 (.step 1 (.iderw 1)) ++
  .env .complete :: List.replicate 8 (.step 2 .ideintr) ++
  .env .complete :: List.replicate 8 (.step 2 .ideintr) ++
  List.replicate 4 (.step 1 (.iderw 1)) ++ List.replicate 4 (.step 0 (.iderw 0))

theorem ide_refines_memide_two : ∃ s : State (Fin 3) (Mem (Fin 3) (Fin 2) ℕ) (Pc (Fin 2)) (Fin 2),
    exec (program (Fin 3) (Fin 2) ℕ true).step writeThenRead
      (init (fun _ ↦ ⟨false, false, 0, 0, 0, none⟩) (fun _ ↦ 7) 0) = .ok s ∧
    s.data.store.disk 5 = 42 ∧ (s.data.store.buf 1).data = 42 ∧
    submitted s.data.log = served s.data.log ++ queue s.data.log := by
  refine Ensures.exists_ok_and (fun s ↦ InScope s.data.log ∧ s.data.store.disk 5 = 42 ∧
    (s.data.store.buf 1).data = 42) (by decide +kernel) ?_
  rintro s he ⟨hsc, hdisk, hbuf⟩
  exact ⟨hdisk, hbuf, (ide_refines_memide he hsc).2.1.2.2⟩

end Xv6Bfs.Ide

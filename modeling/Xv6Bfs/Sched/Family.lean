import Xv6Bfs.Sched.Invariant

namespace Xv6Bfs.Sched

open Lib.Execution

variable {short kind : Prop} {x y : Flux} {a b : EdfKernel} {p : ProcId}

/-- Every process but init has a living parent, and nobody sleeps in `wait` while one of
its children is a zombie. -/
structure FamilyInv (x : Flux) (c : Core) : Prop where
  unused : ∀ p, (c.proc p).state = .UNUSED → (c.proc p).parent = none
  embryo : ∀ p q, (c.proc p).state = .EMBRYO → (c.proc p).parent = some q →
    ∃ n st, c.thread q = .nicefork p n st
  early : ∀ p np n st, c.thread p = .nicefork np n st → ¬ st.Adopted → (c.proc np).parent = none
  late : ∀ p np n st, c.thread p = .nicefork np n st → st.Adopted → (c.proc np).parent = some p
  live : ∀ p, (c.proc p).state.Alive ∨ (c.proc p).state = .ZOMBIE → c.initproc ≠ some p →
    ∃ q, (c.proc p).parent = some q ∧ (c.proc q).state.Alive
  zombie : ∀ p q, (c.proc p).state = .ZOMBIE → (c.proc p).parent = some q → c.AsleepInWait q →
    ∃ r, x = .adopting r p
  adopting : ∀ r p, x = .adopting r p → (c.proc p).parent = c.initproc
  self : ∀ p, (c.proc p).parent ≠ some p
  init : ∀ i, c.initproc = some i → (c.proc i).parent = none ∧ c.thread i ≠ .closing ∧
    c.thread i ≠ .zombie ∧ (c.phase = .running → (c.proc i).state.Alive)
  started : c.phase = .running → c.initproc ≠ none
  userinit : ∀ p, c.phase = .userinit p → c.initproc = some p

theorem FamilyInv.frame {c d : Core} (h : FamilyInv x c)
    (hx : ∀ r p, y = .adopting r p ↔ x = .adopting r p)
    (hs : ∀ p, (d.proc p).state = (c.proc p).state ∨
      (d.proc p).state.Alive ∧ (c.proc p).state.Alive)
    (hp : ∀ p, (d.proc p).parent = (c.proc p).parent)
    (ht : ∀ p, d.thread p = c.thread p ∨ c.initproc ≠ some p ∧ (∀ np n st,
      d.thread p ≠ .nicefork np n st ∧ c.thread p ≠ .nicefork np n st))
    (hi : d.initproc = c.initproc) (hph : d.phase = c.phase)
    (hw : ∀ p q, (c.proc p).state = .ZOMBIE → (c.proc p).parent = some q → d.AsleepInWait q →
      c.AsleepInWait q) : FamilyInv y d := by
  have hu : ∀ p, (d.proc p).state = .UNUSED ↔ (c.proc p).state = .UNUSED := by grind
  have he : ∀ p, (d.proc p).state = .EMBRYO ↔ (c.proc p).state = .EMBRYO := by grind
  have hz : ∀ p, (d.proc p).state = .ZOMBIE ↔ (c.proc p).state = .ZOMBIE := by grind
  have ha : ∀ p, (d.proc p).state.Alive ↔ (c.proc p).state.Alive := by grind
  have hf : ∀ p np n st, d.thread p = .nicefork np n st ↔ c.thread p = .nicefork np n st := by
    grind
  exact
    { unused := by simpa only [hu, hp] using h.unused
      embryo := by simpa only [he, hp, hf] using h.embryo
      early := by simpa only [hp, hf] using h.early
      late := by simpa only [hp, hf] using h.late
      live := by simpa only [hz, hp, hi, ha] using h.live
      zombie := fun p q hpz hpq hs ↦ by
        rw [hz] at hpz
        rw [hp] at hpq
        simpa only [hx] using h.zombie p q hpz hpq (hw p q hpz hpq hs)
      adopting := by simpa only [hx, hp, hi] using h.adopting
      self := by simpa only [hp] using h.self
      init := fun i hc ↦ by
        rw [hi] at hc
        have hth : d.thread i = c.thread i := (ht i).resolve_right (fun hne ↦ hne.1 hc)
        simpa only [hp, hth, hph, ha] using h.init i hc
      started := by simpa only [hi, hph] using h.started
      userinit := by simpa only [hi, hph] using h.userinit }

theorem SchedMove.familyInv (h : SchedMove short kind (x, a) (y, b)) (hq : QueueInv x a)
    (hf : FamilyInv x a.toCore) : FamilyInv y b.toCore := by
  cases h with
  | tick | wake | idle | touch | yield | block | fault | kill | killNone =>
    exact hf.frame (fun _ _ ↦ Iff.rfl) (by grind) (by grind) (by grind) rfl rfl (by grind)
  | dispatch p hc hp =>
    have hqueued := ((hq.mem p).mp (List.mem_of_mem_head? hp)).1
    exact hf.frame (fun _ _ ↦ Iff.rfl) (by grind) (by grind) (by grind) rfl rfl (by grind)

theorem FamilyInv.stage {c d : Core} {np : ProcId} {n : ℤ} {st st' : Stage} (h : FamilyInv x c)
    (hth : c.thread p = .nicefork np n st) (hst : st'.Adopted ↔ st.Adopted)
    (hs : ∀ q, (d.proc q).state = (c.proc q).state)
    (hp : ∀ q, (d.proc q).parent = (c.proc q).parent) (hc : ∀ q, (d.proc q).chan = (c.proc q).chan)
    (ht : d.thread = Function.update c.thread p (.nicefork np n st'))
    (hi : d.initproc = c.initproc) (hph : d.phase = c.phase) : FamilyInv x d where
  unused := by simpa only [hs, hp] using h.unused
  embryo := by
    have := h.embryo
    simp only [hs, hp, ht]
    grind
  early := by
    have := h.early
    simp only [hp, ht]
    grind
  late := by
    have := h.late
    simp only [hp, ht]
    grind
  live := by simpa only [hs, hp, hi] using h.live
  zombie := by simpa only [hs, hp, Core.AsleepInWait, hc] using h.zombie
  adopting := by simpa only [hp, hi] using h.adopting
  self := by simpa only [hp] using h.self
  init := by
    have := h.init
    simp only [hs, hp, hi, hph, ht]
    grind
  started := by simpa only [hi, hph] using h.started
  userinit := by simpa only [hi, hph] using h.userinit

theorem ForkMove.familyInv (h : ForkMove kind (x, a) (y, b)) (ht : ThreadInv x a.toCore)
    (hf : FamilyInv x a.toCore) : FamilyInv y b.toCore := by
  cases h with
  | userinit _ hph | userinitRun _ hph =>
    have hboot := ht.boot (by simp [hph])
    obtain ⟨unused, embryo, early, late, live, zombie, adopting, self, init, started, userinit⟩ := hf
    constructor <;> grind
  | noSlot c hc => exact hf.frame (fun _ _ ↦ Iff.rfl) (by grind) (by grind) (by grind) rfl rfl (by grind)
  | nicefork c np niceValue hn hc hth hp =>
    have hrun := ht.running (p := c) (by grind)
    obtain ⟨unused, embryo, early, late, live, zombie, adopting, self, init, started, userinit⟩ := hf
    constructor <;> grind
  | giveUp c np _ hth | parent c np _ hth | fork c np _ hth =>
    have hrun := ht.running (p := c) (by grind)
    have hemb := (ht.fork c np _ _ hth).2.1
    have hown := ht.only hth
    obtain ⟨unused, embryo, early, late, live, zombie, adopting, self, init, started, userinit⟩ := hf
    constructor <;> grind
  | kstack _ _ _ hth | copyuvm _ _ _ hth | pid _ _ _ hth | nice _ _ _ hth | deadline _ _ _ hth =>
    exact hf.stage hth (by grind) (by grind) (by grind) (by grind) rfl rfl rfl

theorem ExitMove.familyInv (h : ExitMove (x, a) (y, b)) (ht : ThreadInv x a.toCore)
    (hf : FamilyInv x a.toCore) : FamilyInv y b.toCore := by
  cases h with
  | exit | noChild =>
    exact hf.frame (fun _ _ ↦ Iff.rfl) (by grind) (by grind) (by grind) rfl rfl (by grind)
  | leave p hp hth =>
    exact hf.frame (by grind) (by grind) (by grind) (by grind) rfl rfl (by grind)
  | adopt p child hc =>
    have hleave := ht.leaving p rfl
    have hrun := ht.running (p := p) (by grind)
    obtain ⟨i, hi⟩ := Option.ne_none_iff_exists'.mp (hf.started hrun)
    have hinit := hf.init i hi
    have hne : child ≠ i := by grind
    constructor
    · have := hf.unused
      grind
    · have := hf.embryo
      grind
    · have := hf.early
      grind
    · have := hf.late
      grind
    · intro c hcs hci
      by_cases hcc : c = child
      · exact ⟨i, by grind⟩
      · obtain ⟨r, hr, hra⟩ := hf.live c (by grind) hci
        exact ⟨r, by grind⟩
    · intro c q hcz hcq hs
      have := hf.zombie c q
      by_cases hcc : c = child
      · exact ⟨p, by rw [hcc]⟩
      · grind
    · grind
    · have := hf.self
      grind
    · have := hf.init
      grind
    · exact hf.started
    · exact hf.userinit
  | adopted p child hc =>
    have hadopt := hf.adopting p child rfl
    exact { hf with
      zombie := by
        have := hf.zombie
        grind
      adopting := by grind }
  | zombie p hc hp =>
    have hleave := ht.leaving p rfl
    have hinit := hf.init p
    obtain ⟨unused, embryo, early, late, live, zombie, adopting, self, init, started, userinit⟩ := hf
    constructor <;> grind
  | gone p hth =>
    have hinit := hf.init p
    exact hf.frame (fun _ _ ↦ Iff.rfl) (by grind) (by grind) (by grind) rfl rfl (by grind)
  | reap p q hp hqp hz =>
    have hemb := fun c np n st hth ↦ (ht.fork c np n st hth).2.1
    have hown := fun c np n st hth ↦ (ht.fork c np n st hth).1
    obtain ⟨unused, embryo, early, late, live, zombie, adopting, self, init, started, userinit⟩ := hf
    constructor <;> grind

end Xv6Bfs.Sched

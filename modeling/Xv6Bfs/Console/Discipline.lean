import Xv6Bfs.Console.Program

namespace Xv6Bfs.Console

open Lib.Execution Lib.RingBuffer Lib.Monitor Function

variable {P : Type}

def Input.pending (s : Input) : List UInt8 := window INPUT_BUF s.buf s.r s.w

def Input.editing (s : Input) : List UInt8 := window INPUT_BUF s.buf s.w s.e

def line : List (Event P) → List UInt8
  | [] => []
  | .put c :: l => line l ++ [c]
  | .erase :: l => (line l).dropLast
  | .commit :: _ => []
  | _ :: l => line l

def committed : List (Event P) → List UInt8
  | [] => []
  | .commit :: l => committed l ++ line l
  | _ :: l => committed l

def taken : List (Event P) → List UInt8
  | [] => []
  | .deliver _ c :: l => taken l ++ [c]
  | .eof _ :: l => taken l ++ [CTRL_D]
  | _ :: l => taken l

def delivered : List (Event P) → List UInt8
  | [] => []
  | .deliver _ c :: l => delivered l ++ [c]
  | _ :: l => delivered l

structure Sound (d : Mem P) : Prop where
  ordered : (d.input.w - d.input.r).toNat ≤ (d.input.e - d.input.r).toNat
  bound : (d.input.e - d.input.r).toNat ≤ INPUT_BUF
  pending : taken d.log ++ d.input.pending = committed d.log
  editing : d.input.editing = line d.log
  delivered : delivered d.log = (taken d.log).filter (· ≠ CTRL_D)

namespace Sound

variable {d : Mem P}

theorem emit (h : Sound d) (p : P) (r : ℤ) : Sound (d.emit (.readRet p r)) :=
  ⟨h.ordered, h.bound, h.pending, h.editing, h.delivered⟩

theorem window_eq (h : Sound d) :
    window INPUT_BUF d.input.buf d.input.r d.input.e = d.input.pending ++ d.input.editing :=
  window_append h.ordered (by decide)

theorem put (h : Sound d) (hlt : (d.input.e - d.input.r).toNat < INPUT_BUF) (c : UInt8) :
    Sound (d.put c) := by
  have hsucc : (d.input.e + 1 - d.input.r).toNat = (d.input.e - d.input.r).toNat + 1 := by
    have : INPUT_BUF < 2 ^ 32 := by decide
    exact sub_toNat_succ (by omega)
  have hle : (d.input.w - d.input.r).toNat ≤ (d.input.e + 1 - d.input.r).toNat := by
    have := h.ordered
    omega
  -- the new character is behind both parts of the buffer
  have hsplit : (d.put c).input.pending ++ (d.put c).input.editing =
      d.input.pending ++ (d.input.editing ++ [c]) := by
    rw [← List.append_assoc, ← h.window_eq, ← window_push hlt (by decide) (by decide)]
    exact (window_append hle (by decide)).symm
  obtain ⟨hp, he⟩ := List.append_inj hsplit (by simp [Input.pending, Mem.put, Mem.emit, Input.put])
  refine ⟨hle, ?_, ?_, ?_, h.delivered⟩
  · exact hsucc ▸ hlt
  · rw [hp]
    exact h.pending
  · rw [he, h.editing]
    rfl

theorem commit (h : Sound d) : Sound d.commit where
  ordered := le_rfl
  bound := h.bound
  pending := by
    change taken d.log ++ window INPUT_BUF d.input.buf d.input.r d.input.e = committed d.log ++ line d.log
    rw [h.window_eq, ← List.append_assoc, h.pending, h.editing]
  editing := window_self
  delivered := h.delivered

theorem erase (h : Sound d) (hne : d.input.w ≠ d.input.e) : Sound d.erase := by
  have hlt := lt_of_ne h.ordered hne
  have hr : d.input.r ≠ d.input.e := fun he ↦ by
    rw [toNat_sub_eq_zero_iff.mpr he] at hlt
    omega
  have hpred := pred_sub_toNat hr
  refine ⟨?_, ?_, h.pending, ?_, h.delivered⟩
  · change (d.input.w - d.input.r).toNat ≤ (d.input.e - 1 - d.input.r).toNat
    omega
  · change (d.input.e - 1 - d.input.r).toNat ≤ INPUT_BUF
    have := h.bound
    omega
  · change window INPUT_BUF d.input.buf d.input.w (d.input.e - 1) = (line d.log).dropLast
    rw [← h.editing, Input.editing, window_last hne (by decide), List.dropLast_concat]

theorem skip (h : Sound d) (hne : d.input.r ≠ d.input.w) {ev : Event P}
    (ht : taken (ev :: d.log) = taken d.log ++ [d.input.head])
    (hc : committed (ev :: d.log) = committed d.log) (hl : line (ev :: d.log) = line d.log)
    (hd : Console.delivered (ev :: d.log) = (taken (ev :: d.log)).filter (· ≠ CTRL_D)) :
    Sound ({ d with input := d.input.skip }.emit ev) := by
  have hre : d.input.r ≠ d.input.e := by
    intro he
    have := h.ordered
    rw [toNat_sub_eq_zero_iff.mpr he] at this
    exact hne (toNat_sub_eq_zero_iff.mp (Nat.le_zero.mp this))
  have hw := sub_succ_toNat hne
  have he := sub_succ_toNat hre
  refine ⟨?_, ?_, ?_, ?_, hd⟩
  · change (d.input.w - (d.input.r + 1)).toNat ≤ (d.input.e - (d.input.r + 1)).toNat
    have := h.ordered
    omega
  · change (d.input.e - (d.input.r + 1)).toNat ≤ INPUT_BUF
    have := h.bound
    omega
  · change taken (ev :: d.log) ++ window INPUT_BUF d.input.buf (d.input.r + 1) d.input.w =
      committed (ev :: d.log)
    rw [ht, hc, ← h.pending, Input.pending, window_pop hne (by decide), List.append_assoc]
    rfl
  · change d.input.editing = line (ev :: d.log)
    rw [hl, h.editing]

theorem deliver (h : Sound d) (hne : d.input.r ≠ d.input.w) (hd : d.input.head ≠ CTRL_D) (p : P) :
    Sound (d.deliver p) := by
  refine h.skip hne rfl rfl rfl ?_
  simp [Console.delivered, taken, List.filter_append, h.delivered, hd]

theorem eof (h : Sound d) (hne : d.input.r ≠ d.input.w) (hd : d.input.head = CTRL_D) (p : P) :
    Sound (d.eof p) := by
  refine h.skip hne (by rw [hd]; rfl) rfl rfl ?_
  simp [Console.delivered, taken, List.filter_append, h.delivered]

end Sound

variable [DecidableEq P]

def outline (P : Type) [DecidableEq P] : Outline (program P) where
  free := Sound
  own _ _ _ := True
  held _ _ d := Sound d
  resumes _ := True
  resume _ _ _ _ _ hf := hf
  kill_free _ _ h := ⟨h.ordered, h.bound, h.pending, h.editing, h.delivered⟩
  kill_own _ _ _ _ _ := trivial
  kill_held _ _ _ _ h := ⟨h.ordered, h.bound, h.pending, h.editing, h.delivered⟩
  env_free := nofun
  env_own := nofun
  env_held := nofun
  acquire := by
    intro p call pc d d' pc' h _ hf
    cases Move.of_next h <;> exact ⟨trivial, hf, fun _ _ _ _ ↦ trivial⟩
  act := by
    intro p call pc d d' pc' h _ hh
    refine ⟨trivial, ?_, fun _ _ _ _ ↦ trivial⟩
    cases Move.of_next h with
    | ignore | killDone | readBack | readAll => exact hh
    | backspace c cs hne | kill cs hne => exact hh.erase hne
    | put c c' cs hlt => exact hh.put hlt c'
    | commit c c' cs hlt => exact (hh.put hlt c').commit
    | readEof target n hne hd => exact hh.eof hne hd p
    | readByte target n pc' hne hd => exact hh.deliver hne hd p
  sleep := by
    intro p call pc d c pc' _ _ hh
    exact ⟨trivial, hh, trivial⟩
  wakeup := by
    intro p call pc d c pc' _ _ hh
    exact ⟨trivial, hh⟩
  release := by
    intro p call pc d d' pc' h _ hh
    refine ⟨trivial, ?_, fun _ _ _ _ ↦ trivial⟩
    cases Move.of_next h with
    | intrDone => exact hh
    | readKilled => exact hh.emit p _
    | readDone => exact hh.emit p _

def signals (P : Type) [DecidableEq P] : Signals (outline P) where
  wait _ d := d.input.r = d.input.w
  owes pc _ := ∃ cs, pc = .committed cs
  kill _ _ _ h := h
  env := nofun
  acquire := by
    intro p call pc d d' pc' c h _ hw
    cases Move.of_next h <;> exact .inl hw
  act := by
    intro p call pc d d' pc' c h _
    cases Move.of_next h with
    | commit c c' cs => exact ⟨nofun, fun _ ↦ .inr ⟨cs, rfl⟩⟩
    | readEof target n hne | readByte target n pc' hne =>
      exact ⟨nofun, fun hw ↦ absurd hw hne⟩
    | _ => exact ⟨nofun, .inl⟩
  sleep := by
    intro p call pc d c pc' h _
    cases Move.of_next h with
    | readSleep target n hr => exact hr
  wakeup := by
    intro p call pc d c c' pc' _ _
    exact .inl rfl
  release := by
    intro p call pc d d' pc' c h hw
    cases Move.of_next h <;> exact hw

theorem pays (a : Act P Call Empty) (s : State P (Mem P) Pc Unit) : (signals P).Pays a s := by
  apply Signals.pays
  · intro p call pc d d' pc' c h ho
    obtain ⟨cs, rfl⟩ := ho
    cases Move.of_next h
  · intro p call pc d c' pc' c h ho
    obtain ⟨cs, rfl⟩ := ho
    cases Move.of_next h

theorem init_inv (buf : ℕ → UInt8) (killed : P → Bool) : (outline P).Inv (init buf killed) :=
  .init (fun h ↦ h rfl) ⟨le_rfl, by simp, window_self, window_self, rfl⟩ (fun _ ↦ trivial)

theorem step_log {a : Act P Call Empty} {s s' : State P (Mem P) Pc Unit} (h : Step (program P) s a s') :
    (taken s'.data.log = taken s.data.log ∧ committed s.data.log <+: committed s'.data.log) ∨
    ∃ p call target n, a = .step p call ∧ s.thread p = .run (.read target n) ∧
      taken s'.data.log = taken s.data.log ++ [s.data.input.head] ∧
      committed s'.data.log = committed s.data.log := by
  cases h with
  | acquire _ _ _ _ _ _ hn | release _ _ _ _ _ _ hn =>
    left
    cases Move.of_next hn <;> exact ⟨rfl, List.prefix_rfl⟩
  | act p call pc d pc' ht hn =>
    cases Move.of_next hn with
    | commit c c' cs => exact .inl ⟨rfl, List.prefix_append _ _⟩
    | readEof target n _ hd => exact .inr ⟨p, call, target, n, rfl, ht, by rw [hd]; rfl, rfl⟩
    | readByte target n => exact .inr ⟨p, call, target, n, rfl, ht, rfl, rfl⟩
    | _ => exact .inl ⟨rfl, List.prefix_rfl⟩
  | env v => exact v.elim
  | _ => exact .inl ⟨rfl, List.prefix_rfl⟩

theorem Sound.step {a : Act P Call Empty} {s s' : State P (Mem P) Pc Unit} (h : Sound s.data)
    (h' : Sound s'.data) (hs : Step (program P) s a s') :
    s.data.input.pending <+: s'.data.input.pending ∨
    ∃ p call target n, a = .step p call ∧ s.thread p = .run (.read target n) ∧
      s.data.input.pending = s.data.input.head :: s'.data.input.pending := by
  rcases step_log hs with ⟨ht, x, hx⟩ | ⟨p, call, target, n, rfl, hp, ht, hc⟩
  · left
    refine ⟨x, ?_⟩
    rw [← h'.pending, ← h.pending, ht, List.append_assoc] at hx
    exact List.append_cancel_left hx
  · refine .inr ⟨p, call, target, n, rfl, hp, ?_⟩
    have hp' := h'.pending
    rw [ht, hc, ← h.pending, List.append_assoc] at hp'
    exact (List.append_cancel_left hp').symm

/-- The line discipline of the console. -/
theorem line_discipline {buf : ℕ → UInt8} {killed : P → Bool} {acts : List (Act P Call Empty)}
    {s : State P (Mem P) Pc Unit} (h : exec (program P).step acts (init buf killed) = .ok s) :
    -- the indices are in order, and not further apart than the buffer is long
    ((s.data.input.w - s.data.input.r).toNat ≤ (s.data.input.e - s.data.input.r).toNat ∧
      (s.data.input.e - s.data.input.r).toNat ≤ INPUT_BUF) ∧
    -- the pending characters change at the end only, except that a reader takes the first one
    (∀ a s', (program P).step a s = .ok s' → s.data.input.pending <+: s'.data.input.pending ∨
      ∃ p call target n, a = .step p call ∧ s.thread p = .run (.read target n) ∧
        s.data.input.pending = s.data.input.head :: s'.data.input.pending) ∧
    -- what was taken and what is pending is what was committed, and readers got all of it but the
    -- ends of file
    (taken s.data.log ++ s.data.input.pending = committed s.data.log ∧
      delivered s.data.log = (taken s.data.log).filter (· ≠ CTRL_D)) ∧
    -- an end of file after some bytes ends the call and stays
    (∀ p call target n, s.thread p = .run (.read target n) → 0 < n → n < target →
      s.data.input.r ≠ s.data.input.w → s.data.input.head = CTRL_D →
      ∃ s', (program P).step (.step p call) s = .ok s' ∧ s'.data.input = s.data.input ∧
        s'.thread p = .run (.readDone target n)) ∧
    -- nobody sleeps while there is something to read
    (s.lock = none → ∀ p, (s.thread p).asleep = some () → s.data.input.r = s.data.input.w) := by
  obtain ⟨ho, hw⟩ := (Signals.Inv.init (S := signals P) _ _).run (init_inv buf killed)
    ((meets_true _ _ _).mono (fun _ _ _ ↦ pays _ _)) h
  have hsound : ∀ {s}, (outline P).Inv s → Sound s.data :=
    fun ho ↦ ho.always (fun _ ↦ id) (fun _ _ _ _ ↦ id)
  have hs := hsound ho
  refine ⟨⟨hs.ordered, hs.bound⟩, fun a s' hstep ↦ ?_, ⟨hs.pending, hs.delivered⟩, ?_,
    fun hl p hp ↦ hw.wait_of_asleep hl hp⟩
  · exact hs.step (hsound (ho.step (.of_step hstep))) (.of_step hstep)
  · intro p call target n ht hn hlt hne hd
    refine ⟨{ s.goto p (.run (.readDone target n)) with
      data := { s.data with input := s.data.input.skip.back } }, ?_, Input.skip_back _, ?_⟩
    · simp [Program.step, ht, program, next, consoleread, hn, hlt, hne, hd, State.issue]
    · simp [State.goto]

/-- A line is typed with a correction, and then read. -/
theorem line_discipline_corrected : ∃ s : State (Fin 2) (Mem (Fin 2)) Pc Unit,
    exec (program (Fin 2)).step
      (List.replicate 11 (.step 0 (.consoleintr [97, 98, 8, 99, 13])) ++
        List.replicate 5 (.step 1 (.consoleread 10))) (init (fun _ ↦ 0) fun _ ↦ false) = .ok s ∧
    delivered s.data.log = [97, 99, 10] ∧
    taken s.data.log ++ s.data.input.pending = committed s.data.log := by
  refine Ensures.exists_ok_and (delivered ·.data.log = [97, 99, 10]) (by decide +kernel) ?_
  intro s he hd
  exact ⟨hd, (line_discipline he).2.2.1.1⟩

end Xv6Bfs.Console

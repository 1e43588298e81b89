import Xv6Bfs.Log.Recovery

namespace Xv6Bfs.Log

open Lib.Execution Disk Machine

variable {start size : ℕ}

/-- The header that `commit` finds, and the contents of its blocks in the buffer cache. -/
structure Transaction (start size : ℕ) where
  lh : LogHeader
  cache : Image
  fits : Fits start size lh.block

def Transaction.install (old : Image) (t : Transaction start size) : Image :=
  fun b ↦ if b ∈ t.lh.block then t.cache b else old b

/-- The machine is started, or commits a transaction. Both may be cut off by a power failure. -/
inductive Life.Event (start size : ℕ)
  | boot (power : Option ℕ)
  | commit (t : Transaction start size) (power : Option ℕ)

/-- A transaction is committed when `commit` has returned or was cut off after its header was
written. -/
structure Life (start size : ℕ) where
  disk : Image
  running : Bool
  committed : List (Transaction start size)

namespace Life

def step : Event start size → Life start size → Except Failure (Life start size)
  | .boot power, s =>
    match recoverFromLog start (boot s.disk power) with
    | .ok m => .ok { s with disk := m.disk, running := true }
    | .error (.crash m) => .ok { s with disk := m.disk, running := false }
    | .error .overflow => .error .overflow
  | .commit t power, s =>
    if s.running then
      match Machine.commit start ⟨s.disk, t.cache, t.lh, power, []⟩ with
      | .ok m => .ok { s with disk := m.disk, committed := s.committed ++ [t] }
      | .error (.crash m) =>
        .ok ⟨m.disk, false, if start ∈ m.writes then s.committed ++ [t] else s.committed⟩
      | .error .overflow => .error .overflow
    else .ok s

def contents (d : Image) (s : Life start size) : Image := s.committed.foldl Transaction.install d

/-- While the machine is running, the committed transactions have been installed. After a failure
the last one of them may still be in the log. -/
def Inv (d : Image) (s : Life start size) : Prop :=
  Before start size (s.contents d) s.disk ∨
    s.running = false ∧ ∃ ts t, s.committed = ts ++ [t] ∧
      Committed start size (ts.foldl Transaction.install d) t.cache t.lh.block s.disk

variable {d : Image} {s : Life start size} {t : Transaction start size}

theorem Crashed.mono {I J : Machine → Prop} (h : ∀ m, I m → J m) : ∀ e, Crashed I e → Crashed J e
  | .crash m, he => h m he
  | .overflow, he => he

theorem before_of_after {ts : List (Transaction start size)} {d' : Image}
    (h : s.committed = ts ++ [t])
    (ha : After start size (ts.foldl Transaction.install d) t.cache t.lh.block d') :
    Before start size (s.contents d) d' := by
  rw [contents, h, List.foldl_append]
  exact ⟨ha.header, ha.outside⟩

theorem Inv.of_running (h : s.Inv d) (hrun : s.running = true) :
    Before start size (s.contents d) s.disk := by
  rcases h with h | ⟨hdown, -⟩
  · exact h
  · rw [hrun] at hdown
    cases hdown

theorem Inv.boot (hs : 0 < size) (h : s.Inv d) (power : Option ℕ) :
    Ensures (fun s' ↦ s'.Inv d ∧ s'.committed = s.committed ∧ (power = none → s'.running = true))
      (fun _ ↦ False) (s.step (.boot power)) := by
  have hrun : Ensures (fun m ↦ Before start size (s.contents d) m.disk)
      (Crashed fun m ↦ Inv d ⟨m.disk, false, s.committed⟩)
      (recoverFromLog start (Machine.boot s.disk power)) := by
    rcases h with h | ⟨-, ts, t, hts, h⟩
    · exact (recoverFromLog_empty power h h.header (fun _ hz ↦ h.clear hs hz)).weaken
        (Crashed.mono fun _ ↦ .inl)
    · exact ((recoverFromLog_committed t.fits t.lh.length_le h).mono
        (fun _ ↦ before_of_after hts)).weaken (Crashed.mono fun _ hm ↦ .inr ⟨rfl, ts, t, hts, hm⟩)
  rw [step]
  cases he : recoverFromLog start (Machine.boot s.disk power) with
  | ok m => exact ⟨.inl (hrun.of_ok he), rfl, fun _ ↦ rfl⟩
  | error e =>
    cases e with
    | crash m =>
      refine ⟨hrun.of_error he, rfl, fun hp ↦ ?_⟩
      cases (recoverFromLog_power hp).of_error he
    | overflow => exact hrun.of_error he

theorem Inv.commit (h : s.Inv d) (t : Transaction start size) (power : Option ℕ) :
    Ensures (Inv d) (fun _ ↦ False) (s.step (.commit t power)) := by
  rw [step]
  split
  · have hb := h.of_running ‹_›
    by_cases hn : t.lh.block = []
    · rw [Machine.commit, if_neg (by simp [hn])]
      refine .inl (before_of_after rfl ⟨hb.header, fun b hout ↦ ?_⟩)
      rw [hn, if_neg (List.not_mem_nil)]
      exact hb.outside b hout
    · have hrun := commit_ensures (m := ⟨s.disk, t.cache, t.lh, power, []⟩) hn t.fits hb rfl
      cases he : Machine.commit start ⟨s.disk, t.cache, t.lh, power, []⟩ with
      | ok m => exact .inl (before_of_after rfl (hrun.of_ok he).1)
      | error e =>
        cases e with
        | crash m =>
          rcases hrun.of_error he with ⟨hm, hno⟩ | ⟨hm, hyes⟩
          · exact .inl (by simpa only [contents, if_neg hno] using hm)
          · exact .inr ⟨rfl, s.committed, t, if_pos hyes, hm⟩
        | overflow => exact hrun.of_error he
  · exact h

end Life

/-- Whatever power failures cut off commits and recoveries, no committed transaction is lost and no
other one leaves a trace. -/
theorem transactions_survive_crashes (hs : 0 < size) {d : Image} (hd : word (d start) 0 = 0)
    (events : List (Life.Event start size)) :
    ∃ s, exec Life.step events ⟨d, true, []⟩ = .ok s ∧
      (s.running = true → ∀ b, ¬ InLog start size b → s.disk b = s.contents d b) ∧
      ∃ s', s.step (.boot none) = .ok s' ∧ s'.running = true ∧ s'.committed = s.committed ∧
        ∀ b, ¬ InLog start size b → s'.disk b = s.contents d b := by
  have hstart : Life.Inv d (⟨d, true, []⟩ : Life start size) := .inl ⟨hd, fun _ _ ↦ rfl⟩
  have hstep (e : Life.Event start size) (s : Life start size) (h : s.Inv d) :
      Ensures (Life.Inv d) (fun _ ↦ False) (s.step e) := by
    cases e with
    | boot power => exact (h.boot hs power).mono (fun _ h ↦ h.1)
    | commit t power => exact h.commit t power
  obtain ⟨s, hrun, h⟩ := (Ensures.exec_prefix (fun _ ↦ Life.Inv d)
    (fun _ e _ _ s h ↦ hstep e s h) hstart).exists_ok
  obtain ⟨s', hboot, h', hsame, hup⟩ := (h.boot hs none).exists_ok
  refine ⟨s, hrun, fun hr ↦ (h.of_running hr).outside, s', hboot, hup rfl, hsame, fun b hb ↦ ?_⟩
  rw [(h'.of_running (hup rfl)).outside b hb, Life.contents, hsame, Life.contents]

def blankDisk : Image := fun _ _ ↦ 0

def cutOff : List (Life.Event 2 3) :=
  [.commit ⟨⟨[7], by decide, by decide⟩, fun _ _ ↦ 1, by decide, by decide, by simp [InLog]⟩ (some 2),
    .boot (some 0)]

theorem transactions_survive_crashes_cutOff : word (blankDisk 2) 0 = 0 ∧
    ∃ s, exec Life.step cutOff ⟨blankDisk, true, []⟩ = .ok s ∧
      ∃ s', s.step (.boot none) = .ok s' ∧ s'.disk 7 = s.contents blankDisk 7 := by
  have hd : word (blankDisk 2) 0 = 0 := by decide
  obtain ⟨s, hrun, -, s', hboot, -, -, hdisk⟩ := transactions_survive_crashes (by decide) hd cutOff
  exact ⟨hd, s, hrun, s', hboot, hdisk 7 (by simp [InLog])⟩

end Xv6Bfs.Log

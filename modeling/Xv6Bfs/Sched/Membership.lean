import Xv6Bfs.Sched.Calm
import Xv6Bfs.Sched.Heights
import Mathlib.Data.List.DropRight

namespace Xv6Bfs.Sched

open Lib.Execution Lib.KeyedQueue SkipList

def edfSeen : RunQueue (List ProcId × List ProcId) where
  insert vd p q := do
    let l ← edf.insert vd p q.1
    .ok (l, p :: q.2)
  delete vd p q := do
    let l ← edf.delete vd p q.1
    .ok (l, q.2)
  first q := edf.first q.1

/-- The field `max_skiplist_level` of a process that is not queued is -1 after its first
insertion, and still 0 before. -/
structure Marks (t : SkipList) (q : List ProcId × List ProcId) : Prop where
  queue : Represents t q.1
  reported : t.Reported
  absent : ∀ p ∉ q.1, t.maxSkiplistLevel p = if p ∈ q.2 then -1 else 0
  seen : ∀ p ∈ q.1, p ∈ q.2

theorem SkipList.Rep.represents {vd : ProcId → ℤ} {t : SkipList} {L : ℤ → List Entry}
    (h : Rep vd t L) : Represents t (procs L 0) :=
  ⟨L 0, ⟨vd, L, h, rfl⟩, rfl, h.nodup⟩

section Queue

variable {vd : ProcId → ℤ} {p : ProcId} {t : SkipList} {q : List ProcId × List ProcId}

theorem Marks.insert (env : Env) (h : Marks t q) (hp : p ∉ q.1)
    (hs : q.1.Pairwise (fun x y ↦ vd x ≤ vd y)) :
    ∃ t', (skipQueue env).insert vd p t = .ok t' ∧ Marks t' (enqueue vd p q.1, p :: q.2) := by
  obtain ⟨L, hrep, hq⟩ := h.queue.rep hs
  rw [← hq] at hp
  obtain ⟨t', L', r, hok, hrep', hr, hins, hmax, -⟩ := insert_spec env hrep hp
  have hbottom : procs L' 0 = enqueue vd p q.1 := by
    rw [hins.procs_eq le_rfl, if_pos (by omega), hq]
  refine ⟨t', by simp only [skipQueue, hok, ok_bind], ?_, ?_, ?_, ?_⟩
  · exact hbottom ▸ hrep'.represents
  · exact hins.reported hrep hrep' hp hmax h.reported
  · intro x hx
    simp only [mem_enqueue, not_or] at hx
    rw [hmax, Function.update_of_ne hx.1, h.absent x hx.2]
    simp only [List.mem_cons, hx.1, false_or]
  · intro x hx
    rcases mem_enqueue.mp hx with rfl | hx
    · exact List.mem_cons_self
    · exact List.mem_cons_of_mem p (h.seen x hx)

theorem Marks.delete {env : Env} {w : Option ProcId} (h : Marks t q) (hp : p ∈ q.1)
    (hs : q.1.Pairwise (fun x y ↦ vd x ≤ vd y)) (hw : env.wild = some w) (hwp : w ≠ some p) :
    ∃ t', (skipQueue env).delete vd p t = .ok t' ∧ Marks t' (q.1.erase p, q.2) := by
  obtain ⟨L, hrep, hq⟩ := h.queue.rep hs
  rw [← hq] at hp
  obtain ⟨t', L', hok, hrep', hL, hmax, -⟩ := delete_spec hrep hp hw hwp
  have hbottom : procs L' 0 = q.1.erase p := by
    rw [filter_procs hrep.toOrdered inLevels_zero (hL 0 inLevels_zero), hq]
  refine ⟨t', by simp only [skipQueue, hok, ok_bind], ?_, ?_, ?_, ?_⟩
  · exact hbottom ▸ hrep'.represents
  · exact reported_erase hrep hrep' hL hmax h.reported
  · intro x hx
    by_cases hxp : x = p
    · subst hxp
      rw [hmax, Function.update_self, if_pos (h.seen x (hq ▸ hp))]
    · rw [hmax, Function.update_of_ne hxp]
      exact h.absent x (fun hm ↦ hx ((List.mem_erase_of_ne hxp).mpr hm))
  · exact fun x hx ↦ h.seen x (List.mem_of_mem_erase hx)

end Queue

theorem skipQueue_marks (env : Env) : QueueSim Marks (skipQueue env) edfSeen where
  insert vd p t q h := by
    simp only [edfSeen, edf]
    split
    · rename_i hc
      obtain ⟨t', hok, h'⟩ := h.insert env hc.1 hc.2
      rw [hok]
      exact .ok h'
    · exact .undef _ rfl
  delete vd p t q h := by
    simp only [edfSeen, edf]
    split
    · rename_i hc
      by_cases hw : env.wild = none ∨ env.wild = some (some p)
      · obtain ⟨L, hrep, -⟩ := h.queue.rep hc.2
        simp only [skipQueue, delete_fault hrep hw]
        exact .lost _ ((searchEnd_cases vd (vd p) L).imp (congrArg _) (congrArg _))
      · obtain ⟨w, hw'⟩ : ∃ w, env.wild = some w := Option.ne_none_iff_exists'.mp (by tauto)
        obtain ⟨t', hok, h'⟩ := h.delete hc.1 hc.2 hw' (by rintro rfl; exact hw (.inr hw'))
        rw [hok]
        exact .ok h'
    · exact .undef _ rfl
  first t q h := by
    obtain ⟨l, ⟨vd, L, hrep, rfl⟩, hl, -⟩ := h.queue
    simp only [skipQueue, edfSeen, edf, first_spec hrep, ← hl]
    exact .ok rfl

theorem edfSeen_edf : QueueSim (fun q l ↦ q.1 = l) edfSeen edf where
  insert vd p q l h := by
    subst h
    simp only [edfSeen]
    cases edf.insert vd p q.1 with
    | ok l => exact .ok rfl
    | error e => exact .error e
  delete vd p q l h := by
    subst h
    simp only [edfSeen]
    cases edf.delete vd p q.1 with
    | ok l => exact .ok rfl
    | error e => exact .error e
  first q l h := by
    subst h
    exact .ok rfl

def Logged (s : Machine (List ProcId × List ProcId)) : Prop :=
  ∀ p, p ∈ s.queue.2 ↔ .inserted p ∈ s.log

theorem logged_allows : Machine.Allows edfSeen (fun s s' ↦ Logged s → Logged s') where
  refl _ := id
  trans _ _ _ h h' := h' ∘ h
  on s f hf h p := (h p).trans (hf.inserted p).symm
  insert s p := by
    simp only [Machine.insert, edfSeen]
    cases edf.insert s.deadline p s.queue.1 with
    | error e => trivial
    | ok l =>
      intro h q
      have := h q
      simp only [List.mem_cons, Core.emit, Event.inserted.injEq]
      tauto
  delete s p := by
    simp only [Machine.delete, edfSeen]
    cases edf.delete s.deadline p s.queue.1 with
    | error e => trivial
    | ok l => exact fun h ↦ h

theorem timer_logged (s : Machine (List ProcId × List ProcId)) (user : Bool) :
    Ensures (fun s' ↦ Logged s → Logged s') (fun _ ↦ True) (s.timer edfSeen user) := by
  refine logged_allows.first (Calm.refl _).tick
    (logged_allows.seq (logged_allows.wakeup1 _ .ticks) (fun s ↦ ?_))
  split
  · exact id
  · rename_i p _
    split
    · exact logged_allows.exit s p
    · split
      · dsimp only
        split
        · exact logged_allows.yield _ p
        · exact id
      · exact id

theorem step_logged (s : Machine (List ProcId × List ProcId)) (op : Op) :
    Ensures (fun s' ↦ Logged s → Logged s') (fun _ ↦ True) (s.step edfSeen op) := by
  by_cases hs : op = .scheduler
  · subst hs
    rw [Machine.step]
    split
    · refine (logged_allows.scheduler s).mono (fun s' hs' h ↦ ?_)
      rcases hs' with ⟨-, hs'⟩ | ⟨p, -, hs'⟩
      · exact hs' h
      · refine hs' (fun q ↦ (h q).trans ?_)
        simp [Machine.dispatch]
    · trivial
  · by_cases ht : ∃ user, op = .timer user
    · obtain ⟨user, rfl⟩ := ht
      cases user with
      | false =>
        rw [Machine.step]
        split
        · exact timer_logged s false
        · trivial
      | true =>
        exact Machine.Allows.bind_any (R := fun s s' ↦ Logged s → Logged s')
          (fun _ ↦ timer_logged s true)
    · exact logged_allows.step s op hs (fun user hu ↦ ht ⟨user, hu⟩)

def Recorded (s : Kernel) : Prop :=
  ∃ (b : Machine (List ProcId × List ProcId)) (a : EdfKernel), Agrees Marks s b ∧
    Agrees (fun q l ↦ q.1 = l) b a ∧ Inv .stable a ∧ Logged b

theorem boot_recorded (seed : BitVec 32) : Recorded (boot seed) := by
  refine ⟨{ Core.bss with queue := ([], []) }, EdfKernel.boot, ⟨rfl, ?_⟩, ⟨rfl, rfl⟩, boot_inv,
    fun p ↦ by simp [Core.bss]⟩
  have hrep : Rep (fun _ ↦ 0) (boot seed).queue (fun _ ↦ []) := pinit_rep _ seed
  refine ⟨hrep.represents, fun p hp ↦ ?_, fun p _ ↦ rfl, by simp⟩
  rw [hrep.levelsOf_pos] at hp
  cases hp

theorem Recorded.step {s s' : Kernel} {act : Op × Env} (h : Recorded s)
    (he : Kernel.step act s = .ok s') : Recorded s' := by
  obtain ⟨b, a, hsb, hba, hi, hlog⟩ := h
  have hab := hba.step edfSeen_edf act.1
  have hlegal : Ensures (fun b ↦ Moves False False (.stable, a) (.stable, b)) act.1.Expected
      (EdfKernel.step act.1 a) := EdfKernel.step_ensures hi act.1 False.elim False.elim
  have hb := (hsb.step (skipQueue_marks act.2) act.1).ensures
    ((hab.ensures hlegal ?_).and (step_logged b act.1)) ?_
  · obtain ⟨b', hsb', ⟨a', hba', hm⟩, hlog'⟩ := hb.of_ok he
    exact ⟨b', a', hsb', hba', hm.inv hi, hlog' hlog⟩
  · rintro e rfl he
    cases hop : act.1 <;> rw [hop] at he <;> exact he
  · rintro e rfl ⟨hl | he, -⟩
    · exact not_lostRead_contract _ rfl hl
    · cases hop : act.1 <;> rw [hop] at he <;> exact he

theorem Reachable.recorded {s : Kernel} (h : Reachable s) : Recorded s := by
  obtain ⟨seed, l, he⟩ := h
  exact exec_invariant (fun _ _ _ hs he ↦ hs.step he) (boot_recorded seed) he

def Entered (c : Core) : Prop :=
  ∀ p, (c.proc p).state ≠ .UNUSED → (c.proc p).state ≠ .EMBRYO → .inserted p ∈ c.log

theorem Move.entered {x y : Flux} {a b : EdfKernel} (h : Move False False (x, a) (y, b))
    (hi : Inv x a) (he : Entered a.toCore) : Entered b.toCore := by
  intro q
  have hq := he q
  have hleave := hi.thread.leaving
  cases h with
  | sched h =>
    cases h with
    | dispatch p hc hp =>
      have hmem := (hi.queue.mem p).mp (List.mem_of_mem_head? hp)
      grind
    | tick | wake | idle | touch | yield | block | fault | kill | killNone => grind
  | fork h => cases h <;> grind
  | exit h => cases h <;> grind

theorem Reachable.entered {s : Kernel} (h : Reachable s) : Entered s.toCore := by
  obtain ⟨a, hag, -, he⟩ := h.tracks (I := fun s ↦ Entered s.2.toCore)
    (fun hm hi he ↦ Move.entered hm hi he) (fun p hp ↦ absurd rfl hp)
  exact hag.1 ▸ he

/-- What the scheduler log prints of a process: `[pid]name:state:nice(max_level)(deadline)(left)`. -/
structure SchedlogEntry where
  pid : ℤ
  state : ProcState
  nice : ℤ
  maxSkiplistLevel : ℤ
  virtDeadline : ℤ
  ticksLeft : ℤ
  deriving DecidableEq

def schedlog (s : Kernel) : List (Option SchedlogEntry) :=
  ((List.finRange NPROC).rdropWhile (fun k ↦ (s.proc k).state = .UNUSED)).map (fun k ↦
    if (s.proc k).state = .UNUSED then none
    else some ⟨(s.proc k).pid, (s.proc k).state, (s.proc k).nice, s.queue.maxSkiplistLevel k,
      (s.proc k).virtDeadline, (s.proc k).ticksLeft⟩)

variable {s : Kernel} {p : ProcId}

theorem schedlog_maxSkiplistLevel {e : SchedlogEntry} (he : (schedlog s)[p.val]? = some (some e)) :
    e.maxSkiplistLevel = s.queue.maxSkiplistLevel p := by
  rw [schedlog, List.getElem?_map, Option.map_eq_some_iff] at he
  obtain ⟨k, hk, he⟩ := he
  obtain ⟨rest, hrest⟩ := List.rdropWhile_prefix (fun k ↦ decide ((s.proc k).state = .UNUSED))
    (List.finRange NPROC)
  have hkp : (List.finRange NPROC)[p.val]? = some k := by
    rw [← hrest]
    exact List.getElem?_append_left (List.getElem?_eq_some_iff.mp hk).1 ▸ hk
  have hkk : k = p := by simpa using hkp.symm
  split at he
  · cases he
  · cases he
    rw [hkk]

/-- `max_skiplist_level` is -1 for a process on no level list, and the number of these lists
for any other. -/
def SkipList.Reports (t : SkipList) (p : ProcId) : Prop :=
  (t.maxSkiplistLevel p = -1 ↔ ∀ k, InLevels k → p ∉ t.levelProcs k) ∧
  ((∃ k, InLevels k ∧ p ∈ t.levelProcs k) → t.maxSkiplistLevel p = t.levelsOf p ∧
    1 ≤ t.maxSkiplistLevel p ∧ t.maxSkiplistLevel p ≤ LEVELS)

theorem SkipList.reports_of_mem {vd : ProcId → ℤ} {t : SkipList} {L : ℤ → List Entry}
    (h : Rep vd t L) (hr : t.Reported) (hp : p ∈ procs L 0) : t.Reports p := by
  have hpos := h.levelsOf_pos.mpr hp
  have hmax := hr p hpos
  have hle := t.levelsOf_le p
  refine ⟨⟨fun hneg ↦ by omega, fun hout ↦ ?_⟩, fun _ ↦ ⟨hmax, by omega, by omega⟩⟩
  exact absurd ((h.mem_levelProcs inLevels_zero).mpr hp) (hout 0 inLevels_zero)

theorem SkipList.reports_of_not_mem {vd : ProcId → ℤ} {t : SkipList} {L : ℤ → List Entry}
    (h : Rep vd t L) (hp : p ∉ procs L 0) : t.Reports p ↔ t.maxSkiplistLevel p = -1 := by
  have hout (k : ℤ) (hk : InLevels k) := h.not_mem_levelProcs hp hk
  refine ⟨fun hr ↦ hr.1.mpr hout, fun hneg ↦ ⟨⟨fun _ ↦ hout, fun _ ↦ hneg⟩, ?_⟩⟩
  rintro ⟨k, hk, hm⟩
  exact absurd hm (hout k hk)

/-- The field tells the levels of a process, except while a slot that has never been
inserted is an EMBRYO. -/
theorem maxSkiplistLevel_reports_iff (h : Reachable s) (hp : (s.proc p).state ≠ .UNUSED) :
    (s.queue.Reports p ↔ (s.proc p).state ≠ .EMBRYO ∨ .inserted p ∈ s.log) ∧
    ∀ q e, (schedlog (s.dispatch q))[p.val]? = some (some e) →
      e.maxSkiplistLevel = s.queue.maxSkiplistLevel p := by
  refine ⟨?_, fun q e he ↦ schedlog_maxSkiplistLevel (s := s.dispatch q) he⟩
  obtain ⟨b, a, ⟨hcore, hmarks⟩, ⟨hcore', hqueue⟩, hi, hlog⟩ := h.recorded
  have hsorted := hi.queue.sorted
  rw [← hqueue] at hsorted
  obtain ⟨L, hrep, hL⟩ := hmarks.queue.rep hsorted
  have hseen : p ∈ b.queue.2 ↔ .inserted p ∈ s.log := by
    rw [hcore]
    exact hlog p
  by_cases hin : p ∈ procs L 0
  · have hins := hseen.mp (hmarks.seen p (hL ▸ hin))
    exact iff_of_true (reports_of_mem hrep hmarks.reported hin) (.inr hins)
  · rw [reports_of_not_mem hrep hin, hmarks.absent p (hL ▸ hin)]
    by_cases hins : .inserted p ∈ s.log
    · simp [hseen.mpr hins, hins]
    · have hembryo : (s.proc p).state = .EMBRYO := by
        by_contra hne
        exact hins (h.entered p hp hne)
      simp [mt hseen.mp hins, hins, hembryo]

theorem maxSkiplistLevel_reports_iff_forked : ∃ s : Kernel, Reachable s ∧
    (s.proc 1).state = .RUNNABLE ∧ s.queue.Reports 1 := by
  obtain ⟨s, hs, -, h1⟩ := exists_forked
  refine ⟨s, hs, h1, ?_⟩
  exact (maxSkiplistLevel_reports_iff hs (by simp [h1])).1.mpr (.inl (by simp [h1]))

/-- Init calls `nicefork` and is preempted between `allocproc` and `insert`. The next line of
the scheduler log prints level 0 for the child, which is on no list. -/
theorem embryo_reports_level_zero : ∃ s : Kernel, Reachable s ∧ (s.proc 1).state = .EMBRYO ∧
    ¬ s.queue.Reports 1 ∧
    (schedlog (s.dispatch 0))[1]? = some (some ⟨2, .EMBRYO, 0, 0, 0, 0⟩) := by
  obtain ⟨s, hs, h1, hmax, hlog⟩ : ∃ s, Reachable s ∧ (s.proc 1).state = .EMBRYO ∧
      s.queue.maxSkiplistLevel 1 = 0 ∧
      (schedlog (s.dispatch 0))[1]? = some (some ⟨2, .EMBRYO, 0, 0, 0, 0⟩) := exists_reachable
    (startOps ++ .nicefork 0 :: List.replicate 50 (.timer false)) (by decide +kernel)
  refine ⟨s, hs, h1, ?_, hlog⟩
  obtain ⟨L, hL, hmem⟩ := hs.rep
  have hout : 1 ∉ procs L 0 := by
    rw [hmem, h1]
    simp [ProcState.Queued]
  rw [reports_of_not_mem hL hout, hmax]
  decide

end Xv6Bfs.Sched

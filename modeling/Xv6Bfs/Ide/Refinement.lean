import Mathlib.Data.Option.Basic
import Xv6Bfs.Ide.Program
import Xv6Bfs.Lib.History

namespace Xv6Bfs.Ide

open Lib.Execution Lib.History Lib.Monitor Lib.PointerQueue Function

variable {P B α : Type}

def submitted : List (Event P B α) → List B
  | [] => []
  | .submit b :: l => submitted l ++ [b]
  | _ :: l => submitted l

def served : List (Event P B α) → List B
  | [] => []
  | .serve b :: l => served l ++ [b]
  | _ :: l => served l

def queue : List (Event P B α) → List B
  | [] => []
  | .submit b :: l => queue l ++ [b]
  | .serve _ :: l => (queue l).tail
  | _ :: l => queue l

def Event.Valid : Event P B α → Prop
  | .call _ dev blockno => dev = 1 ∧ blockno < FSSIZE
  | _ => True

instance : DecidablePred (Event.Valid : Event P B α → Prop)
  | .call .. => inferInstanceAs (Decidable (_ ∧ _))
  | .take .. | .drop .. | .modify .. | .submit .. | .serve .. | .ret .. => isTrue trivial

def InScope (l : List (Event P B α)) : Prop := ∀ e ∈ l, e.Valid

instance (l : List (Event P B α)) : Decidable (InScope l) :=
  inferInstanceAs (Decidable (∀ e ∈ l, e.Valid))

theorem InScope.tail {e : Event P B α} {l : List (Event P B α)} (h : InScope (e :: l)) : InScope l :=
  fun _ hm ↦ h _ (List.mem_cons_of_mem _ hm)

def Cmd.run (c : Cmd α) (disk : ℕ → α) : ℕ → α :=
  match c.data with
  | some x => if c.disk1 then update disk c.sector x else disk
  | none => disk

theorem lba_eq {n : ℕ} (h : n < FSSIZE) : lba (n * (Disk.BSIZE / SECTOR_SIZE)) = n := by
  have hs : Disk.BSIZE / SECTOR_SIZE = 1 := by decide
  have : n < 2000 := h
  rw [hs, lba]
  omega

theorem complete_frame (d : Mem P B α) (c : Cmd α) :
    (d.complete c).store.buf = d.store.buf ∧ (d.complete c).log = d.log ∧
    (d.complete c).link = d.link ∧ (d.complete c).cmd = d.cmd ∧ (d.complete c).done = true := by
  unfold Mem.complete
  split
  · split <;> simp
  · simp

theorem complete_disk (d : Mem P B α) (c : Cmd α) :
    (d.complete c).store.disk = c.run d.store.disk := by
  cases hc : c.data with
  | none => simp [Mem.complete, Cmd.run, hc]
  | some x =>
    simp only [Mem.complete, Cmd.run, hc]
    split <;> rfl

theorem complete_reg (d : Mem P B α) {c : Cmd α} (hn : c.data = none) (h1 : c.disk1 = true) :
    (d.complete c).reg = d.store.disk c.sector := by
  simp [Mem.complete, hn, h1]

variable [DecidableEq B]

/-- What has to have happened before an event: the calls for a buffer come one after the other,
each submits its request once, the first of the queue is served, and a call returns when its request
is served. -/
def Event.Justified (l : List (Event P B α)) : Event P B α → Prop
  | .call b _ _ => phase b l = .idle
  | .submit b => phase b l = .called
  | .serve b => phase b l = .submitted ∧ (queue l).head? = some b
  | .ret b => phase b l = .served
  | _ => True

theorem submitted_eq {l : List (Event P B α)} (h : Orderly Event.Justified l) :
    submitted l = served l ++ queue l := by
  induction l with
  | nil => rfl
  | cons e l ih =>
    have hl := ih h.2
    cases e with
    | submit b => simp [submitted, served, queue, hl]
    | serve b =>
      obtain ⟨q, hq⟩ := List.head?_eq_some_iff.mp h.1.2
      simp [submitted, served, queue, hl, hq]
    | _ => exact hl

variable [DecidableEq P]

/-- What an event does to the buffers and the disk if a request is carried out by `iderw` of
`memide.c` when it is served. -/
def Event.apply (s : Store P B α) : Event P B α → Except Panic (Store P B α)
  | .take p b => .ok (s.setBuf b { s.buf b with lock := some p })
  | .drop b => .ok (s.setBuf b { s.buf b with lock := none })
  | .modify b v => .ok (s.setBuf b v)
  | .serve b =>
    match (s.buf b).lock with
    | some p => memiderw s p b
    | none => .error .bufNotLocked
  | _ => .ok s

/-- The events, carried out one after the other with the driver of `memide.c`. -/
def replay (s₀ : Store P B α) : List (Event P B α) → Except Panic (Store P B α)
  | [] => .ok s₀
  | e :: l => replay s₀ l >>= e.apply

theorem memiderw_eq {s : Store P B α} {p : P} {b : B} {reg : α} (hlock : (s.buf b).lock = some p)
    (hs : (s.buf b).synced = false) (hdev : (s.buf b).dev = 1) (hno : (s.buf b).blockno < FSSIZE)
    (hreg : (s.buf b).dirty = false → reg = s.disk (s.buf b).blockno) :
    memiderw s p b = .ok ⟨update s.buf b { s.buf b with
      data := if (s.buf b).dirty then (s.buf b).data else reg, valid := true, dirty := false },
      (command (s.buf b)).run s.disk⟩ := by
  have hlba := lba_eq hno
  cases hd : (s.buf b).dirty with
  | true => simp [memiderw, hlock, hs, hdev, hno, hd, command, Cmd.run, hlba, Store.setBuf]
  | false => simp [memiderw, hlock, hs, hdev, hno, hd, command, Cmd.run, Store.setBuf, hreg hd]

/-- What is known of the buffers, the queue and the device. The device has a command exactly if there
is a `head`, and then for it. What `memide.c` makes of the events differs only by a command that is
carried out and whose interrupt is not yet handled. -/
structure Sound (s₀ : Store P B α) (d : Mem P B α) (head : Option B) : Prop where
  chain : Chained d.link none (queue d.log)
  nodup : (queue d.log).Nodup
  orderly : Orderly Event.Justified d.log
  queued : ∀ b ∈ queue d.log, phase b d.log = .submitted ∧ (d.store.buf b).synced = false ∧
    (d.store.buf b).dev = 1 ∧ (d.store.buf b).blockno < FSSIZE ∧ (d.store.buf b).lock ≠ none
  first : ∀ b, head = some b → (queue d.log).head? = some b
  cmd : d.cmd = head.map fun b ↦ command (d.store.buf b)
  done : d.done = true → head ≠ none
  refines : ∃ disk, replay s₀ d.log = .ok ⟨d.store.buf, disk⟩ ∧
    (d.done = false → d.store.disk = disk) ∧
    ∀ c, d.done = true → d.cmd = some c → d.store.disk = c.run disk ∧
      (c.data = none → c.disk1 = true → d.reg = disk c.sector)

namespace Sound

variable {s₀ : Store P B α} {d : Mem P B α} {head : Option B} {b : B}

section

variable (h : Sound s₀ d head)
include h

theorem not_mem (hb : phase b d.log ≠ .submitted) : b ∉ queue d.log :=
  fun hm ↦ hb (h.queued b hm).1

theorem event (hb : b ∉ queue d.log) {e : Event P B α} {d' : Mem P B α}
    (hlink : ∀ pp, pp ≠ some b → d'.link pp = d.link pp)
    (hbuf : ∀ c, c ≠ b → d'.store.buf c = d.store.buf c) (hdisk : d'.store.disk = d.store.disk)
    (hcmd : d'.cmd = d.cmd) (hdone : d'.done = d.done) (hreg : d'.reg = d.reg)
    (hlog : d'.log = e :: d.log) (hq : queue (e :: d.log) = queue d.log)
    (hph : ∀ c, c ≠ b → phase c (e :: d.log) = phase c d.log) (he : e.Justified d.log)
    (hr : ∀ disk, e.apply ⟨d.store.buf, disk⟩ = .ok ⟨d'.store.buf, disk⟩) : Sound s₀ d' head := by
  have hne : ∀ c ∈ queue d.log, c ≠ b := fun c hc hcb ↦ hb (hcb ▸ hc)
  refine ⟨?_, ?_, ?_, fun c hc ↦ ?_, fun c hc ↦ ?_, ?_, ?_, ?_⟩
  · rw [hlog, hq]
    refine h.chain.congr (fun pp hpp ↦ hlink pp ?_)
    rintro rfl
    simp only [List.mem_cons, reduceCtorEq, List.mem_map, Option.some.injEq, exists_eq_right,
      false_or] at hpp
    exact hb hpp
  · rw [hlog, hq]
    exact h.nodup
  · rw [hlog]
    exact ⟨he, h.orderly⟩
  · rw [hlog, hq] at hc
    rw [hlog, hph c (hne c hc), hbuf c (hne c hc)]
    exact h.queued c hc
  · rw [hlog, hq]
    exact h.first c hc
  · rw [hcmd, h.cmd]
    cases hh : head with
    | none => rfl
    | some c => simp [hbuf c (hne c (List.mem_of_mem_head? (h.first c hh)))]
  · rw [hdone]
    exact h.done
  · obtain ⟨disk, hrep, hd, hc⟩ := h.refines
    refine ⟨disk, ?_, by rw [hdone, hdisk]; exact hd, by rw [hdone, hcmd, hdisk, hreg]; exact hc⟩
    rw [hlog, replay, hrep, ok_bind, hr]

theorem call (hb : phase b d.log = .idle) (dev blockno : ℕ) :
    Sound s₀ ((d.setLink (some b) none).emit (.call b dev blockno)) head :=
  h.event (h.not_mem (by simp [hb])) (fun _ hpp ↦ update_of_ne hpp _ _) (fun _ _ ↦ rfl) rfl rfl rfl
    rfl rfl rfl (fun c hc ↦ by simp [phase, hc.symm]) hb (fun _ ↦ rfl)

theorem ret (hb : phase b d.log = .served) : Sound s₀ (d.emit (.ret b)) head :=
  h.event (b := b) (h.not_mem (by simp [hb])) (fun _ _ ↦ rfl) (fun _ _ ↦ rfl) rfl rfl rfl
    rfl rfl rfl (fun c hc ↦ by simp [phase, hc.symm]) hb (fun _ ↦ rfl)

theorem setBuf (hb : phase b d.log = .idle) {v : Buf P α} {e : Event P B α}
    (hq : queue (e :: d.log) = queue d.log) (hph : ∀ c, phase c (e :: d.log) = phase c d.log)
    (he : e.Justified d.log) (hr : ∀ s : Store P B α, s.buf = d.store.buf → e.apply s = .ok (s.setBuf b v)) :
    Sound s₀ ((d.setBuf b v).emit e) head :=
  h.event (h.not_mem (by simp [hb])) (fun _ _ ↦ rfl) (fun _ hc ↦ update_of_ne hc _ _) rfl rfl rfl
    rfl rfl hq (fun c _ ↦ hph c) he (fun _ ↦ hr _ rfl)

theorem submit (hb : phase b d.log = .called) (hl : d.link (some b) = none)
    (hs : (d.store.buf b).synced = false) (hdev : (d.store.buf b).dev = 1)
    (hno : (d.store.buf b).blockno < FSSIZE) (hlock : (d.store.buf b).lock ≠ none) :
    Sound s₀ ((d.setLink (lastPtr none (queue d.log)) (some b)).emit (.submit b)) head := by
  have hnm : b ∉ queue d.log := h.not_mem (by simp [hb])
  refine ⟨?_, ?_, ⟨hb, h.orderly⟩, fun c hc ↦ ?_, fun c hc ↦ ?_, h.cmd, h.done, ?_⟩
  · refine h.chain.enqueue ?_ (by simpa using hnm) hl
    exact List.nodup_cons.mpr ⟨by simp, h.nodup.map (Option.some_injective _)⟩
  · exact List.nodup_append_comm.mp (List.nodup_cons.mpr ⟨hnm, h.nodup⟩)
  · rcases List.mem_append.mp hc with hc | hc
    · have hne : b ≠ c := fun he ↦ hnm (he ▸ hc)
      have hph : phase c (.submit b :: d.log) = phase c d.log := by simp [phase, hne]
      exact hph ▸ h.queued c hc
    · cases List.mem_singleton.mp hc
      exact ⟨by simp [Mem.emit, phase], hs, hdev, hno, hlock⟩
  · have := h.first c hc
    change (queue d.log ++ [b]).head? = some c
    rw [List.head?_append, this, Option.some_or]
  · obtain ⟨disk, hrep, hd, hc⟩ := h.refines
    refine ⟨disk, ?_, hd, hc⟩
    change replay s₀ d.log >>= _ = _
    rw [hrep]
    rfl

end

theorem send (h : Sound s₀ d none) (hb : (queue d.log).head? = some b) :
    Sound s₀ (d.send b) (some b) := by
  refine ⟨h.chain, h.nodup, h.orderly, h.queued, fun c hc ↦ hc ▸ hb, rfl, by simp, ?_⟩
  obtain ⟨disk, hrep, hd, -⟩ := h.refines
  have hdone : d.done = false := by
    by_contra hne
    exact h.done (by simpa using hne) rfl
  exact ⟨disk, hrep, fun _ ↦ hd hdone, nofun⟩

theorem complete (h : Sound s₀ d head) {c : Cmd α} (hc : d.cmd = some c) (hd : d.done = false) :
    Sound s₀ (d.complete c) head := by
  have hhead : head ≠ none := by
    rintro rfl
    simp [h.cmd] at hc
  obtain ⟨disk, hrep, hdisk, -⟩ := h.refines
  obtain ⟨hbuf, hlog, hlink, hcmd, hdone⟩ := complete_frame d c
  refine ⟨?_, ?_, ?_, ?_, ?_, ?_, fun _ ↦ hhead, disk, ?_, ?_, ?_⟩
  · rw [hlink, hlog]
    exact h.chain
  · rw [hlog]
    exact h.nodup
  · rw [hlog]
    exact h.orderly
  · rw [hbuf, hlog]
    exact h.queued
  · rw [hlog]
    exact h.first
  · rw [hcmd, hbuf]
    exact h.cmd
  · rw [hlog, hbuf]
    exact hrep
  · rw [hdone]
    nofun
  · intro c' _ hc'
    rw [hcmd, hc] at hc'
    cases hc'
    rw [complete_disk, hdisk hd]
    exact ⟨rfl, fun hn h1 ↦ by rw [complete_reg _ hn h1, hdisk hd]⟩

theorem serve (h : Sound s₀ d head) (hd : d.done = true) (hb : (queue d.log).head? = some b)
    (hh : head = some b) : Sound s₀ (d.serve b) none := by
  subst hh
  obtain ⟨q, hq⟩ := List.head?_eq_some_iff.mp hb
  have hbq : b ∈ queue d.log := by simp [hq]
  obtain ⟨hph, hs, hdev, hno, hlock⟩ := h.queued b hbq
  have hcons : (b :: q).Nodup := hq ▸ h.nodup
  have hqueue : queue (.serve b :: d.log) = q := by simp [queue, hq]
  refine ⟨?_, ?_, ⟨⟨hph, hb⟩, h.orderly⟩, fun c hc ↦ ?_, nofun, rfl, nofun, ?_⟩
  · change Chained _ none (queue (.serve b :: d.log))
    rw [hqueue]
    exact (hq ▸ h.chain).dequeue
  · change (queue (.serve b :: d.log)).Nodup
    rw [hqueue]
    exact (List.nodup_cons.mp hcons).2
  · change c ∈ queue (.serve b :: d.log) at hc
    rw [hqueue] at hc
    have hne : c ≠ b := fun he ↦ (List.nodup_cons.mp hcons).1 (he ▸ hc)
    have hbuf : (d.serve b).store.buf c = d.store.buf c := update_of_ne hne _ _
    have hphc : phase c (d.serve b).log = phase c d.log := by
      change phase c (.serve b :: d.log) = _
      simp [phase, hne.symm]
    rw [hbuf, hphc]
    exact h.queued c (by simp [hq, hc])
  · obtain ⟨disk, hrep, -, hc⟩ := h.refines
    obtain ⟨hdisk, hreg⟩ := hc (command (d.store.buf b)) hd h.cmd
    obtain ⟨r, hr⟩ := Option.ne_none_iff_exists'.mp hlock
    have hreg' : (d.store.buf b).dirty = false → d.reg = disk (d.store.buf b).blockno := by
      intro hclean
      have := hreg (by simp [command, hclean]) (by simp [command, hdev])
      rwa [command, lba_eq hno] at this
    refine ⟨d.store.disk, ?_, fun _ ↦ rfl, nofun⟩
    change (replay s₀ d.log >>= _) = _
    rw [hrep, ok_bind, hdisk]
    simp only [Event.apply, hr]
    exact memiderw_eq (s := ⟨d.store.buf, disk⟩) hr hs hdev hno hreg'

end Sound

end Xv6Bfs.Ide

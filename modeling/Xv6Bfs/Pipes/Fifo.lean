import Xv6Bfs.Lib.History
import Xv6Bfs.Pipes.Program

namespace Xv6Bfs.Pipes

open Lib.Execution Lib.History Lib.RingBuffer Lib.Monitor Function

variable {P : Type}

def Pipe.buffered (s : Pipe) : List UInt8 := window PIPESIZE s.data s.nread s.nwrite

def stores : List (Event P) → List UInt8
  | [] => []
  | .store _ b :: l => stores l ++ [b]
  | _ :: l => stores l

def delivers : List (Event P) → List UInt8
  | [] => []
  | .deliver _ b :: l => delivers l ++ [b]
  | _ :: l => delivers l

def bytes (addr : ℕ → UInt8) (n : ℤ) : List UInt8 := (List.range n.toNat).map addr

variable [DecidableEq P] {p q : P} {d d' : Mem P} {addr : ℕ → UInt8} {n : ℤ}

def lastWrite (p : P) : List (Event P) → Option ((ℕ → UInt8) × ℤ)
  | [] => none
  | .writeCall q addr n :: l => if q = p then some (addr, n) else lastWrite p l
  | _ :: l => lastWrite p l

def storesBy (p : P) : List (Event P) → List UInt8
  | [] => []
  | .writeCall q _ _ :: l => if q = p then [] else storesBy p l
  | .store q b :: l => if q = p then storesBy p l ++ [b] else storesBy p l
  | _ :: l => storesBy p l

def Event.Justified (l : List (Event P)) : Event P → Prop
  | .store p b => ∃ addr n, lastWrite p l = some (addr, n) ∧
      storesBy p l ++ [b] <+: bytes addr n
  | .writeRet p r => ∃ addr n, lastWrite p l = some (addr, n) ∧ (r = n → storesBy p l = bytes addr n)
  | .readRet _ n r => 0 < n → r = 0 → delivers l = stores l ∧ .close true ∈ l
  | _ => True

theorem storesBy_isPrefix {l : List (Event P)} (h : Orderly Event.Justified l)
    (hl : lastWrite p l = some (addr, n)) : storesBy p l <+: bytes addr n := by
  induction l with
  | nil => simp [lastWrite] at hl
  | cons e l ih =>
    cases e with
    | writeCall q addr' n' =>
      simp only [lastWrite, storesBy] at hl ⊢
      split
      · exact List.nil_prefix
      · rw [if_neg ‹_›] at hl
        exact ih h.2 hl
    | store q b =>
      simp only [lastWrite, storesBy] at hl ⊢
      split
      · rename_i hq
        obtain ⟨addr', n', hl', hb⟩ := h.1
        rw [hq, hl] at hl'
        cases hl'
        exact hq ▸ hb
      · exact ih h.2 hl
    | writeRet | deliver | readRet | close => exact ih h.2 hl

structure Sound (d : Mem P) : Prop where
  bound : (d.pipe.nwrite - d.pipe.nread).toNat ≤ PIPESIZE
  fifo : delivers d.log ++ d.pipe.buffered = stores d.log
  closed : d.pipe.writeopen = false → .close true ∈ d.log
  orderly : Orderly Event.Justified d.log

def Wrote (p : P) (log : List (Event P)) (addr : ℕ → UInt8) (n : ℤ) (i : ℕ) : Prop :=
  lastWrite p log = some (addr, n) ∧ i ≤ n.toNat ∧ storesBy p log = (List.range i).map addr

def own (p : P) (pc : Pc) (d : Mem P) : Prop :=
  match pc with
  | .write addr n i | .writeSleep addr n i => Wrote p d.log addr n i
  | .writeDone n => ∃ addr, Wrote p d.log addr n n.toNat
  | _ => True

def held (pc : Pc) (d : Mem P) : Prop :=
  match pc with
  | .writeSleep .. => d.pipe.full = true ∧ d.pipe.readopen = true
  | .readCopy _ i => i = 0 → d.pipe.nread ≠ d.pipe.nwrite ∨ d.pipe.writeopen = false
  | .readDone n i => 0 < n → i = 0 → d.pipe.nread = d.pipe.nwrite ∧ d.pipe.writeopen = false
  | _ => True

theorem Sound.emit {e : Event P} (h : Sound d) (he : e.Justified d.log)
    (hs : stores (e :: d.log) = stores d.log) (hd : delivers (e :: d.log) = delivers d.log) :
    Sound (d.emit e) where
  bound := h.bound
  fifo := by
    simp only [Mem.emit, hs, hd]
    exact h.fifo
  closed := fun hc ↦ List.mem_cons_of_mem _ (h.closed hc)
  orderly := ⟨he, h.orderly⟩

theorem full_iff (s : Pipe) : s.full = true ↔ (s.nwrite - s.nread).toNat = PIPESIZE := by
  rw [Pipe.full, beq_iff_eq, eq_add_iff (by decide)]

theorem Sound.store {b : UInt8} (h : Sound d) (hf : d.pipe.full = false)
    (he : (Event.store p b).Justified d.log) :
    Sound ({ d with pipe := d.pipe.store b }.emit (.store p b)) := by
  have hlt : (d.pipe.nwrite - d.pipe.nread).toNat < PIPESIZE := by
    have := h.bound
    have := full_iff d.pipe
    grind
  refine ⟨?_, ?_, fun hc ↦ List.mem_cons_of_mem _ (h.closed hc), ⟨he, h.orderly⟩⟩
  · change (d.pipe.nwrite + 1 - d.pipe.nread).toNat ≤ PIPESIZE
    rw [sub_toNat_succ (by have : PIPESIZE < 2 ^ 32 := by decide
                           omega)]
    exact hlt
  · change delivers d.log ++ window PIPESIZE (update d.pipe.data _ b) d.pipe.nread (d.pipe.nwrite + 1)
      = stores d.log ++ [b]
    rw [window_push hlt (by decide) (by decide), ← h.fifo, List.append_assoc]
    rfl

theorem Sound.fetch (h : Sound d) (hne : d.pipe.nread ≠ d.pipe.nwrite) :
    Sound ({ d with pipe := d.pipe.fetch.2 }.emit (.deliver p d.pipe.fetch.1)) := by
  refine ⟨?_, ?_, fun hc ↦ List.mem_cons_of_mem _ (h.closed hc), ⟨trivial, h.orderly⟩⟩
  · change (d.pipe.nwrite - (d.pipe.nread + 1)).toNat ≤ PIPESIZE
    have := h.bound
    have := sub_succ_toNat hne
    omega
  · have hw := h.fifo
    rw [Pipe.buffered, window_pop hne (by decide)] at hw
    change (delivers d.log ++ [_]) ++ window PIPESIZE d.pipe.data (d.pipe.nread + 1) d.pipe.nwrite = _
    rw [List.append_assoc]
    exact hw

theorem Sound.pipeclose (h : Sound d) (w : Bool) : Sound ((pipeclose d w).emit (.close w)) := by
  have hp : (Pipes.pipeclose d w).pipe.buffered = d.pipe.buffered := by
    cases w <;> rfl
  refine ⟨?_, ?_, fun hc ↦ ?_, ⟨trivial, h.orderly⟩⟩
  · cases w <;> exact h.bound
  · change delivers d.log ++ (Pipes.pipeclose d w).pipe.buffered = stores d.log
    rw [hp]
    exact h.fifo
  · cases w with
    | false => exact List.mem_cons_of_mem _ (h.closed hc)
    | true => exact List.mem_cons_self

theorem Sound.pipefree (h : Sound d) : Sound (pipefree d) := by
  unfold Pipes.pipefree
  split
  · exact ⟨h.bound, h.fifo, h.closed, h.orderly⟩
  · exact h

theorem own_emit {pc : Pc} (h : own q pc d)
    (hl : lastWrite q d'.log = lastWrite q d.log) (hs : storesBy q d'.log = storesBy q d.log) :
    own q pc d' := by
  cases pc <;> simp only [own, Wrote, hl, hs] at h ⊢ <;> exact h

theorem Wrote.store {log : List (Event P)} {i : ℕ}
    (h : Wrote p log addr n i) (hi : i < n) : Wrote p (.store p (addr i) :: log) addr n (i + 1) := by
  obtain ⟨hl, hle, hs⟩ := h
  refine ⟨by simpa [lastWrite] using hl, by omega, ?_⟩
  simp [storesBy, hs, List.range_succ]

theorem Wrote.justified {log : List (Event P)} {i : ℕ}
    (h : Wrote p log addr n i) (hi : i < n) : (Event.store p (addr i)).Justified log := by
  obtain ⟨hl, hle, hs⟩ := h
  refine ⟨addr, n, hl, ?_⟩
  rw [hs, bytes]
  obtain ⟨k, hk⟩ := Nat.exists_eq_add_of_lt (show i < n.toNat by omega)
  refine ⟨(List.range k).map (fun j ↦ addr (i + 1 + j)), ?_⟩
  rw [hk, show i + k + 1 = (i + 1) + k by omega, List.range_add, List.range_succ]
  simp

def outline (P : Type) [DecidableEq P] : Outline (program P) where
  free := Sound
  own := own
  held _ pc d := Sound d ∧ held pc d
  resumes pc := match pc with
    | .read _ | .write .. => True
    | _ => False
  resume := by
    intro p pc d hr _ hf
    cases pc <;> first | exact ⟨hf, trivial⟩ | exact hr.elim
  kill_free := fun p d h ↦ ⟨h.bound, h.fifo, h.closed, h.orderly⟩
  kill_own := by
    intro p q pc d h
    cases pc <;> exact h
  kill_held := by
    rintro p q pc d ⟨h, hh⟩
    refine ⟨⟨h.bound, h.fifo, h.closed, h.orderly⟩, ?_⟩
    cases pc <;> exact hh
  env_free := nofun
  env_own := nofun
  env_held := nofun
  acquire := by
    intro p call pc d d' pc' h ho hf
    cases Move.of_next h with
    | callWrite addr n =>
      refine ⟨⟨?_, by omega, ?_⟩, ⟨hf.emit trivial rfl rfl, trivial⟩, fun q m hq hm ↦ own_emit hm ?_ ?_⟩
      · simp [Mem.emit, lastWrite]
      · simp [Mem.emit, storesBy]
      · simp [Mem.emit, lastWrite, hq.symm]
      · simp [Mem.emit, storesBy, hq.symm]
    | callRead | callClose | exit => exact ⟨trivial, ⟨hf, trivial⟩, fun _ _ _ hm ↦ hm⟩
  act := by
    intro p call pc d d' pc' h ho hh
    cases Move.of_next h with
    | store addr n i hi hfull =>
      refine ⟨ho.store hi, ⟨hh.1.store hfull (ho.justified hi), trivial⟩, fun q m hq hm ↦ own_emit hm ?_ ?_⟩
      · simp [Mem.emit, lastWrite]
      · simp [Mem.emit, storesBy, hq.symm]
    | readReady n hr => exact ⟨trivial, ⟨hh.1, fun _ ↦ hr⟩, fun _ _ _ hm ↦ hm⟩
    | fetch n i hi hne =>
      exact ⟨trivial, ⟨hh.1.fetch hne, nofun⟩, fun _ _ _ hm ↦ own_emit hm rfl rfl⟩
    | close w rest => exact ⟨trivial, ⟨hh.1.pipeclose w, trivial⟩, fun _ _ _ hm ↦ own_emit hm rfl rfl⟩
  sleep := by
    intro p call pc d c pc' h ho hh
    cases Move.of_next h with
    | writeSleep addr n i => exact ⟨ho, hh.1, trivial⟩
    | readSleep n => exact ⟨trivial, hh.1, trivial⟩
  wakeup := by
    intro p call pc d c pc' h ho hh
    cases Move.of_next h with
    | full addr n i hi hf hr => exact ⟨ho, hh.1, hf, hr⟩
    | written addr n i hi =>
      refine ⟨⟨addr, ?_⟩, hh.1, trivial⟩
      have hn : i = n.toNat := by
        have := ho.2.1
        omega
      exact hn ▸ ho
    | copied n i he =>
      refine ⟨trivial, hh.1, ?_⟩
      intro hn hi
      subst hi
      have he' := he.resolve_left (by omega)
      exact ⟨he', (hh.2 rfl).resolve_left (fun hne ↦ hne he')⟩
    | closeWakeup => exact ⟨trivial, hh.1, trivial⟩
  release := by
    intro p call pc d d' pc' h ho hh
    cases Move.of_next h with
    | giveUp addr n i hi =>
      refine ⟨trivial, hh.1.emit ⟨addr, n, ho.1, ?_⟩ rfl rfl, fun _ _ _ hm ↦ own_emit hm rfl rfl⟩
      omega
    | writeDone n =>
      obtain ⟨addr, hl, -, hs⟩ := ho
      exact ⟨trivial, hh.1.emit ⟨addr, n, hl, fun _ ↦ hs⟩ rfl rfl,
        fun _ _ _ hm ↦ own_emit hm rfl rfl⟩
    | readKilled n =>
      exact ⟨trivial, hh.1.emit (fun _ h0 ↦ by omega) rfl rfl, fun _ _ _ hm ↦ own_emit hm rfl rfl⟩
    | readDone n i =>
      refine ⟨trivial, hh.1.emit (fun hn h0 ↦ ?_) rfl rfl, fun _ _ _ hm ↦ own_emit hm rfl rfl⟩
      obtain ⟨he, hc⟩ := hh.2 hn (by omega)
      have hf := hh.1.fifo
      rw [Pipe.buffered, he, window_self, List.append_nil] at hf
      exact ⟨hf, hh.1.closed hc⟩
    | closed rest =>
      refine ⟨by cases rest <;> trivial, hh.1.pipefree, fun q m _ hm ↦ own_emit hm ?_ ?_⟩
      · unfold pipefree; split <;> rfl
      · unfold pipefree; split <;> rfl

theorem init_inv (page : ℕ → UInt8) (killed : P → Bool) : (outline P).Inv (init page killed) :=
  .init id ⟨by simp [Pipe.alloc], window_self, nofun, trivial⟩ (fun _ ↦ trivial)

/-- A pipe is a lossless bounded queue. In every state that can be reached the counters differ by
at most the size of the buffer, and what was delivered and what is buffered is what was stored. At
every moment up to then a writer had stored the first bytes of the buffer of its last call.
`piperead` returned 0 only on an empty pipe with its write end closed, and `pipewrite` returned
its argument only with everything stored. -/
theorem pipe_fifo {page : ℕ → UInt8} {killed : P → Bool} {acts : List (Act P Call Empty)}
    {s : State P (Mem P) Pc Chan} (h : exec (program P).step acts (init page killed) = .ok s) :
    (s.data.pipe.nwrite - s.data.pipe.nread).toNat ≤ PIPESIZE ∧
    delivers s.data.log ++ s.data.pipe.buffered = stores s.data.log ∧
    (∀ l, l <:+ s.data.log → ∀ p addr n, lastWrite p l = some (addr, n) →
      storesBy p l <+: bytes addr n) ∧
    (∀ p n l, .readRet p n 0 :: l <:+ s.data.log → 0 < n → delivers l = stores l ∧ .close true ∈ l) ∧
    (∀ p n addr l, .writeRet p n :: l <:+ s.data.log → lastWrite p l = some (addr, n) →
      storesBy p l = bytes addr n) := by
  have hs : Sound s.data := ((init_inv page killed).run h).always (fun _ ↦ id) (fun _ _ _ _ hd ↦ hd.1)
  refine ⟨hs.bound, hs.fifo, ?_, ?_, ?_⟩
  · intro l hl p addr n hp
    exact storesBy_isPrefix (hs.orderly.suffix hl) hp
  · intro p n l hl hn
    exact hs.orderly.justified hl hn rfl
  · intro p n addr l hl hp
    obtain ⟨addr', n', hp', hret⟩ := hs.orderly.justified hl
    rw [hp] at hp'
    cases hp'
    exact hret rfl

/-- One process writes two bytes, and another one reads one of them. -/
theorem pipe_fifo_two : ∃ s : State (Fin 2) (Mem (Fin 2)) Pc Chan,
    exec (program (Fin 2)).step
      (List.replicate 8 (.step 0 (.pipewrite (fun i ↦ if i = 0 then 7 else 8) 2)) ++
        List.replicate 8 (.step 1 (.piperead 1))) (init (fun _ ↦ 0) fun _ ↦ false) = .ok s ∧
    s.lock = none ∧ delivers s.data.log = [7] ∧ s.data.pipe.buffered = [8] ∧
    delivers s.data.log ++ s.data.pipe.buffered = stores s.data.log := by
  refine Ensures.exists_ok_and (fun s ↦ s.lock = none ∧ delivers s.data.log = [7] ∧
    s.data.pipe.buffered = [8]) (by decide +kernel) ?_
  rintro s he ⟨hl, hd, hb⟩
  exact ⟨hl, hd, hb, (pipe_fifo he).2.1⟩

end Xv6Bfs.Pipes

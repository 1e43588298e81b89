import Xv6Bfs.Sched.Kernel
import Xv6Bfs.Sched.Delete

namespace Xv6Bfs.Sched

open Lib.Execution Lib.KeyedQueue

def edf : RunQueue (List ProcId) where
  insert vd p q := if p ∉ q ∧ q.Pairwise (fun x y ↦ vd x ≤ vd y) then .ok (enqueue vd p q)
    else .error .contract
  delete vd p q := if p ∈ q ∧ q.Pairwise (fun x y ↦ vd x ≤ vd y) then .ok (q.erase p)
    else .error .contract
  first q := .ok q.head?

/-- The bottom level of the skip list: the same queue, with the slots of the nodes. -/
def bottomQueue : RunQueue (List Entry) where
  insert vd p l := if p ∉ l.map Prod.snd ∧ (l.map Prod.snd).Pairwise (fun x y ↦ vd x ≤ vd y) then
      .ok (enqueue (fun e : Entry ↦ vd e.2)
        (SkipList.firstFree (l.map Prod.fst) (NPROC + 1) 1, p) l)
    else .error .contract
  delete vd p l := if p ∈ l.map Prod.snd ∧ (l.map Prod.snd).Pairwise (fun x y ↦ vd x ≤ vd y) then
      .ok (l.filter (fun e ↦ e.2 ≠ p))
    else .error .contract
  first l := .ok (l.map Prod.snd).head?

/-- The first test of the second loop of `delete` has trapped, or it has come out equal. -/
def LostRead (e : Stop) : Prop := e = .fault (.cell (-1) 0) ∨ e = .fault .null

structure QueueSim {Q Q' : Type} (rel : Q → Q' → Prop) (rq : RunQueue Q) (rq' : RunQueue Q') :
    Prop where
  insert : ∀ vd p t q, rel t q →
    Simulates LostRead (· = .contract) rel (rq.insert vd p t) (rq'.insert vd p q)
  delete : ∀ vd p t q, rel t q →
    Simulates LostRead (· = .contract) rel (rq.delete vd p t) (rq'.delete vd p q)
  first : ∀ t q, rel t q → Simulates LostRead (· = .contract) Eq (rq.first t) (rq'.first q)

def Agrees {Q Q' : Type} (rel : Q → Q' → Prop) (s : Machine Q) (a : Machine Q') : Prop :=
  s.toCore = a.toCore ∧ rel s.queue a.queue

abbrev Refines {Q Q' : Type} (rel : Q → Q' → Prop) :
    Except Stop (Machine Q) → Except Stop (Machine Q') → Prop :=
  Simulates LostRead (· = .contract) (Agrees rel)

namespace Agrees

variable {Q Q' : Type} {rel : Q → Q' → Prop} {s : Machine Q} {a : Machine Q'}
  {rq : RunQueue Q} {rq' : RunQueue Q'} {p : ProcId}

theorem bind_same {x : Except Stop ProcId} {f : ProcId → Except Stop (Machine Q)}
    {g : ProcId → Except Stop (Machine Q')} (hf : ∀ p, Refines rel (f p) (g p)) :
    Refines rel (x >>= f) (x >>= g) := by
  cases x with
  | error e => exact .error e
  | ok p => exact hf p

variable (h : Agrees rel s a)
include h

theorem on (f : Core → Core) : Agrees rel (s.on f) (a.on f) :=
  ⟨congrArg f h.1, h.2⟩

theorem sched (ctx : Context) (p : ProcId) : Refines rel (s.sched ctx p) (a.sched ctx p) := by
  rw [Machine.sched, Machine.sched, h.1]
  exact .ite (fun _ ↦ .error _) (fun _ ↦ .ok (h.on _))

theorem exit (p : ProcId) : Refines rel (s.exit p) (a.exit p) := by
  rw [Machine.exit, Machine.exit, h.1]
  exact .ite (fun _ ↦ .error _) (fun _ ↦ .ok (h.on _))

theorem exitSched (p : ProcId) : Refines rel (s.exitSched p) (a.exitSched p) :=
  (h.sched .exit p).bind (fun _ _ h ↦ .ok (h.on _))

theorem allocproc (p : ProcId) : Agrees rel (s.allocproc p) (a.allocproc p) :=
  h.on _

theorem userinit (kalloc : Bool) : Refines rel (s.userinit kalloc) (a.userinit kalloc) := by
  rw [Machine.userinit, Machine.userinit, h.1]
  cases a.unusedSlot with
  | none => exact .error _
  | some p => exact .ite (fun _ ↦ .ok ((h.allocproc p).on _)) (fun _ ↦ .error _)

theorem nicefork (niceValue : ℤ) (p : ProcId) :
    Refines rel (s.nicefork niceValue p) (a.nicefork niceValue p) := by
  rw [Machine.nicefork, Machine.nicefork, h.1]
  refine .ite (fun _ ↦ ?_) (fun _ ↦ .error _)
  cases a.unusedSlot with
  | none => exact .ok (h.on _)
  | some np => exact .ok ((h.allocproc np).on _)

variable (hq : QueueSim rel rq rq')
include hq

theorem insert (p : ProcId) : Refines rel (s.insert rq p) (a.insert rq' p) := by
  rw [Machine.insert, Machine.insert, h.1]
  exact (hq.insert _ p _ _ h.2).bind (fun _ _ h' ↦ .ok ⟨rfl, h'⟩)

theorem delete (p : ProcId) : Refines rel (s.delete rq p) (a.delete rq' p) := by
  rw [Machine.delete, Machine.delete, h.1]
  exact (hq.delete _ p _ _ h.2).bind (fun _ _ h' ↦ .ok ⟨rfl, h'⟩)

theorem ready (p : ProcId) : Refines rel (s.ready rq p) (a.ready rq' p) :=
  (h.on _).insert hq p

theorem dequeue (p : ProcId) : Refines rel (s.dequeue rq p) (a.dequeue rq' p) := by
  rw [Machine.dequeue, Machine.dequeue, h.1]
  exact .ite (fun _ ↦ h.delete hq p) (fun _ ↦ .ok h)

theorem wakeup1 (chan : Chan) : Refines rel (s.wakeup1 rq chan) (a.wakeup1 rq' chan) := by
  refine Simulates.exec (fun p s a h ↦ ?_) _ h
  rw [Machine.wakeOne, Machine.wakeOne, h.1]
  exact .ite (fun _ ↦ h.ready hq p) (fun _ ↦ .ok h)

theorem yield (p : ProcId) : Refines rel (s.yield rq p) (a.yield rq' p) :=
  ((h.on _).delete hq p).bind (fun _ _ h ↦ ((h.on _).insert hq p).bind (fun _ _ h ↦ h.sched _ p))

theorem sleep (ctx : Context) (chan : Chan) (p : ProcId) :
    Refines rel (s.sleep rq ctx chan p) (a.sleep rq' ctx chan p) :=
  ((h.on _).dequeue hq p).bind (fun _ _ h ↦ (h.on _).sched ctx p)

theorem wait (p : ProcId) : Refines rel (s.wait rq p) (a.wait rq' p) := by
  rw [Machine.wait, Machine.wait, h.1]
  cases a.zombieChild p with
  | some q => exact .ok (h.on _)
  | none =>
    exact .ite (fun _ ↦ .ok (h.on _)) (fun _ ↦ h.sleep hq _ _ p)

theorem resume (p : ProcId) : Refines rel (s.resume rq p) (a.resume rq' p) := by
  rw [Machine.resume, Machine.resume, h.1]
  cases (a.proc p).context with
  | null => exact .error _
  | forkret => exact .ok h
  | yield => exact .ok h
  | sleep => exact .ok (h.on _)
  | wait => exact (h.on _).wait hq p
  | exit => exact .error _

theorem scheduler : Refines rel (s.scheduler rq) (a.scheduler rq') := by
  refine (hq.first _ _ h.2).bind (fun t q htq ↦ ?_)
  cases htq
  cases t with
  | none => exact .ok (h.on _)
  | some p => exact (h.on _).resume hq p

theorem exitZombie (p : ProcId) : Refines rel (s.exitZombie rq p) (a.exitZombie rq' p) := by
  refine (h.dequeue hq p).bind (fun s a h ↦ ?_)
  rw [h.1]
  refine (h.wakeup1 hq _).bind (fun s a h ↦ ?_)
  refine Simulates.bind (Simulates.exec (fun q s a h ↦ ?_) _ h) (fun _ _ h ↦ .ok (h.on _))
  have h₁ := h.on (fun c ↦ c.upd q (fun x ↦ { x with parent := c.initproc }))
  simp only [Machine.reparentOne, h₁.1]
  rw [h.1]
  exact .ite (fun _ ↦ .ite (fun _ ↦ h₁.wakeup1 hq _) (fun _ ↦ .ok h₁)) (fun _ ↦ .ok h)

theorem userinitRun (setupkvm : Bool) (p : ProcId) :
    Refines rel (s.userinitRun rq setupkvm p) (a.userinitRun rq' setupkvm p) :=
  .ite (fun _ ↦ ((h.on _).on _).ready hq p) (fun _ ↦ .error _)

theorem niceforkStep (mem : Bool) (p np : ProcId) (niceValue : ℤ)
    (stage : Stage) :
    Refines rel (s.niceforkStep rq mem p np niceValue stage)
      (a.niceforkStep rq' mem p np niceValue stage) := by
  cases stage with
  | kstack | copyuvm => exact .ite (fun _ ↦ .ok (h.on _)) (fun _ ↦ .ok (h.on _))
  | parent => exact .ok (h.on _)
  | pid => exact .ok (h.on _)
  | nice pid => exact .ok (h.on _)
  | deadline pid => exact .ok (h.on _)
  | insert pid => exact (h.ready hq np).bind (fun _ _ h ↦ .ok (h.on _))

theorem kill (pid : ℤ) : Refines rel (s.kill rq pid) (a.kill rq' pid) := by
  rw [Machine.kill, Machine.kill, h.1]
  cases a.slotOf pid with
  | none => exact .ok (h.on _)
  | some p =>
    have h₁ := h.on (fun c ↦ (c.upd p (fun x ↦ { x with killed := true })).emit (.killRet pid 0))
    simp only [h₁.1]
    exact .ite (fun _ ↦ h₁.ready hq p) (fun _ ↦ .ok h₁)

theorem timer (user : Bool) : Refines rel (s.timer rq user) (a.timer rq' user) := by
  refine ((h.on _).wakeup1 hq _).bind (fun s a h ↦ ?_)
  rw [h.1]
  cases a.cpuProc with
  | none => exact .ok h
  | some p =>
    have h₁ := h.on (·.upd p (fun x ↦ { x with ticksLeft := x.ticksLeft - 1 }))
    simp only [h₁.1]
    exact .ite (fun _ ↦ h.exit p)
      (fun _ ↦ .ite (fun _ ↦ .ite (fun _ ↦ h₁.yield hq p) (fun _ ↦ .ok h₁)) (fun _ ↦ .ok h))

theorem step (op : Op) : Refines rel (s.step rq op) (a.step rq' op) := by
  cases op
  case timer user =>
    cases user <;> rw [Machine.step, Machine.step, h.1]
    · exact .ite (fun _ ↦ h.timer hq false) (fun _ ↦ .error _)
    · exact bind_same (fun _ ↦ h.timer hq true)
  all_goals rw [Machine.step, Machine.step, h.1]
  case userinit kalloc => exact .ite (fun _ ↦ h.userinit kalloc) (fun _ ↦ .error _)
  case userinitRun setupkvm =>
    cases a.phase with
    | main => exact .error _
    | userinit p => exact h.userinitRun hq setupkvm p
    | running => exact .error _
  case scheduler => exact .ite (fun _ ↦ h.scheduler hq) (fun _ ↦ .error _)
  case fault => exact bind_same (fun p ↦ (h.on _).exit p)
  case nicefork niceValue => exact bind_same (fun p ↦ h.nicefork niceValue p)
  case niceforkStep mem =>
    refine bind_same (fun p ↦ ?_)
    cases a.thread p with
    | nicefork np niceValue stage => exact h.niceforkStep hq mem p np niceValue stage
    | other => exact .error _
    | closing => exact .error _
    | zombie => exact .error _
  case yield => exact bind_same (fun p ↦ h.yield hq p)
  case sleep chan =>
    exact bind_same (fun p ↦ .ite (fun _ ↦ h.sleep hq _ chan p) (fun _ ↦ .error _))
  case wakeup chan => exact .ite (fun _ ↦ h.wakeup1 hq chan) (fun _ ↦ .error _)
  case kill pid => exact bind_same (fun _ ↦ h.kill hq pid)
  case exit => exact bind_same (fun p ↦ h.exit p)
  case exitZombie => exact bind_same (fun p ↦ h.exitZombie hq p)
  case exitSched =>
    cases a.cpuProc with
    | none => exact .error _
    | some p => exact .ite (fun _ ↦ h.exitSched p) (fun _ ↦ .error _)
  case wait => exact bind_same (fun p ↦ h.wait hq p)

end Agrees

def Bottom (t : SkipList) (l : List Entry) : Prop := ∃ vd L, SkipList.Rep vd t L ∧ L 0 = l

theorem Bottom.rep {t : SkipList} {l : List Entry} (h : Bottom t l) {vd : ProcId → ℤ}
    (hs : (l.map Prod.snd).Pairwise (fun x y ↦ vd x ≤ vd y)) :
    ∃ L, SkipList.Rep vd t L ∧ L 0 = l := by
  obtain ⟨vd₀, L, hrep, rfl⟩ := h
  exact ⟨L, { hrep with sorted := hs }, rfl⟩

def Lists (l : List Entry) (q : List ProcId) : Prop := l.map Prod.snd = q ∧ q.Nodup

def Represents (t : SkipList) (q : List ProcId) : Prop := ∃ l, Bottom t l ∧ Lists l q

theorem Represents.rep {t : SkipList} {q : List ProcId} (h : Represents t q) {vd : ProcId → ℤ}
    (hs : q.Pairwise (fun x y ↦ vd x ≤ vd y)) : ∃ L, SkipList.Rep vd t L ∧ procs L 0 = q := by
  obtain ⟨l, hl, rfl, -⟩ := h
  obtain ⟨L, hrep, rfl⟩ := hl.rep hs
  exact ⟨L, hrep, rfl⟩

namespace SkipList

theorem first_spec {vd : ProcId → ℤ} {t : SkipList} {L : ℤ → List Entry} (h : Rep vd t L) :
    t.first = .ok (procs L 0).head? := by
  have hlev := h.level 0 inLevels_zero
  have hn := hlev.linked.next_eq
  rw [first, load_of_valid (valid_head inLevels_zero), ok_bind]
  cases hL : L 0 with
  | nil =>
    rw [hL] at hn
    simp only [List.map_nil, List.headD_nil] at hn
    simp [hn, procs, hL]
  | cons e l =>
    rw [hL] at hn hlev
    simp only [List.map_cons, List.headD_cons] at hn
    have he : e ∈ e :: l := List.mem_cons_self
    have hnull : ptr 0 e ≠ .null := by simp [ptr]
    simp [hn, hnull, load_of_valid (hlev.valid inLevels_zero he), hlev.holds e he, procs, hL]

end SkipList

theorem skipQueue_bottom (env : Env) : QueueSim Bottom (skipQueue env) bottomQueue where
  insert vd p t l h := by
    simp only [bottomQueue]
    split
    · rename_i hc
      obtain ⟨L, hrep, rfl⟩ := h.rep hc.2
      obtain ⟨t', L', r, hok, hrep', hr, hins, -⟩ := SkipList.insert_spec env hrep hc.1
      simp only [skipQueue, hok, ok_bind]
      exact .ok ⟨vd, L', hrep', hins.bottom hrep hr⟩
    · exact .undef _ rfl
  delete vd p t l h := by
    simp only [bottomQueue]
    split
    · rename_i hc
      obtain ⟨L, hrep, rfl⟩ := h.rep hc.2
      simp only [skipQueue]
      by_cases hw : env.wild = none ∨ env.wild = some (some p)
      · rw [SkipList.delete_fault hrep hw]
        exact .lost _ ((SkipList.searchEnd_cases vd (vd p) L).imp (congrArg _) (congrArg _))
      · obtain ⟨w, hw'⟩ : ∃ w, env.wild = some w := Option.ne_none_iff_exists'.mp (by tauto)
        obtain ⟨t', L', hdel, hrep', hfilter, -⟩ := SkipList.delete_spec hrep hc.1 hw'
          (by rintro rfl; exact hw (.inr hw'))
        simp only [hdel, ok_bind]
        exact .ok ⟨vd, L', hrep', hfilter 0 inLevels_zero⟩
    · exact .undef _ rfl
  first t l h := by
    obtain ⟨vd, L, hrep, rfl⟩ := h
    simp only [skipQueue, bottomQueue, SkipList.first_spec hrep]
    exact .ok rfl

theorem bottomQueue_edf : QueueSim Lists bottomQueue edf where
  insert vd p l q h := by
    obtain ⟨rfl, hnd⟩ := h
    refine .ite (fun hc ↦ .ok ⟨map_enqueue vd Prod.snd _ l, nodup_enqueue vd hc.1 hnd⟩)
      (fun _ ↦ .error _)
  delete vd p l q h := by
    obtain ⟨rfl, hnd⟩ := h
    refine .ite (fun _ ↦ .ok ⟨?_, hnd.erase p⟩) (fun _ ↦ .error _)
    rw [hnd.erase_eq_filter, List.filter_map]
    congr 1
    exact List.filter_congr (fun e _ ↦ by simp [bne, Bool.beq_eq_decide_eq, decide_not])
  first l q h := by
    obtain ⟨rfl, -⟩ := h
    exact .ok rfl

theorem not_lostRead_contract (e : Stop) (h : e = .contract) : ¬ LostRead e := by
  rintro (hl | hl) <;> rw [h] at hl <;> cases hl

theorem skipQueue_sim (env : Env) : QueueSim Represents (skipQueue env) edf where
  insert vd p t q h := by
    obtain ⟨l, hl, hq⟩ := h
    exact ((skipQueue_bottom env).insert vd p t l hl).trans not_lostRead_contract
      (bottomQueue_edf.insert vd p l q hq)
  delete vd p t q h := by
    obtain ⟨l, hl, hq⟩ := h
    exact ((skipQueue_bottom env).delete vd p t l hl).trans not_lostRead_contract
      (bottomQueue_edf.delete vd p l q hq)
  first t q h := by
    obtain ⟨l, ⟨vd, L, hrep, rfl⟩, rfl, -⟩ := h
    simp only [skipQueue, edf, SkipList.first_spec hrep]
    exact .ok rfl

/-- The kernel over the abstract run queue. -/
abbrev EdfKernel := Machine (List ProcId)

namespace EdfKernel

def step (op : Op) (s : EdfKernel) : Except Stop EdfKernel := Machine.step edf op s

def boot : EdfKernel := { Core.bss with queue := [] }

end EdfKernel

theorem boot_bottom (seed : BitVec 32) : Bottom (boot seed).queue [] :=
  ⟨fun _ ↦ 0, fun _ ↦ [], SkipList.pinit_rep _ seed, rfl⟩

theorem boot_agrees (seed : BitVec 32) : Agrees Represents (boot seed) EdfKernel.boot :=
  ⟨rfl, [], boot_bottom seed, rfl, List.nodup_nil⟩

theorem step_refines {s : Kernel} {a : EdfKernel} (h : Agrees Represents s a) (act : Op × Env) :
    Refines Represents (Kernel.step act s) (EdfKernel.step act.1 a) :=
  h.step (skipQueue_sim act.2) act.1

def bottomStep (op : Op) (s : Machine (List Entry)) : Except Stop (Machine (List Entry)) :=
  Machine.step bottomQueue op s

def bottomBoot : Machine (List Entry) := { Core.bss with queue := [] }

theorem run_bottom (seed : BitVec 32) (l : List (Op × Env)) :
    Refines Bottom (exec Kernel.step l (boot seed)) (exec bottomStep (l.map Prod.fst) bottomBoot) := by
  rw [exec_map]
  exact Simulates.exec (fun act _ _ h ↦ h.step (skipQueue_bottom act.2) act.1) l
    ⟨rfl, boot_bottom seed⟩

theorem bottom_run_edf (ops : List Op) :
    Refines Lists (exec bottomStep ops bottomBoot) (exec EdfKernel.step ops EdfKernel.boot) :=
  Simulates.exec (fun op _ _ h ↦ h.step bottomQueue_edf op) ops ⟨rfl, rfl, List.nodup_nil⟩

end Xv6Bfs.Sched

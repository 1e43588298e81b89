import Xv6Bfs.Memory.Ownership

namespace Xv6Bfs.Memory

open Lib.Execution Function Vm
open Sched (ProcState ProcId)

variable {M : Machine} {data q : ℕ} {s s' : System} {i j : ProcId} {t : Task} {m m' : Mem} {p : Slot}

/-- How a call of the process `i` can stop the kernel: `init` exits, a process that has given back
all its memory forks, or the arguments of `exec` are longer than a page. -/
def Excused (i : ProcId) (t : Task) (s : System) : Call → Stop → Prop
  | .exit, e => e = .initExiting ∧ i = s.initproc
  | .fork, e => e = .vm .copyuvm ∧ ∃ v, v < pages t.sz ∧ t.pgdir.tr v = none
  | .exec _ _ argv, e => e = .vm .nullPte ∧ 4095 < (argv.map List.length).sum + 4 * argv.length
  | _, _ => False

/-- What every call keeps: the account of all pages, and the memory of the others. -/
def Keeps (M : Machine) (data : ℕ) (i : ProcId) (s s' : System) : Prop :=
  Sound M data s' ∧ Undisturbed i s s'

theorem conserves_kalloc (held : ℕ → ℕ) {a : ℕ} (hk : m.kalloc M = (some a, m')) :
    Conserves held m (fun q ↦ held q + holding (some a) q) m' := by
  have h : Conserves held m _ _ := conserves_kalloc_some (f := m'.phys a) hk
  rwa [update_eq_self] at h

theorem allocproc_cases (s : System) :
    (∃ s', s.allocproc M = (none, s') ∧ (s' = s ∧ (∀ j, (s.proc j).state ≠ .UNUSED) ∨
      ∃ j m, (s.proc j).state = .UNUSED ∧ s.mem.kalloc M = (none, m) ∧
        s' = s.set j { s.proc j with kstack := none } m)) ∨
    ∃ j a m, (s.proc j).state = .UNUSED ∧ s.mem.kalloc M = (some a, m) ∧
      s.allocproc M = (some j, s.set j { s.proc j with state := .EMBRYO, kstack := some a } m) := by
  rw [System.allocproc]
  cases hf : (List.finRange NPROC).find? (fun i ↦ decide ((s.proc i).state = .UNUSED)) with
  | none =>
    refine .inl ⟨s, rfl, .inl ⟨rfl, fun j ↦ ?_⟩⟩
    simpa using List.find?_eq_none.mp hf j (List.mem_finRange j)
  | some j =>
    have hj : (s.proc j).state = .UNUSED := by simpa using List.find?_some hf
    dsimp only
    cases hk : s.mem.kalloc M with
    | mk r m =>
      cases r with
      | none => exact .inl ⟨_, rfl, .inr ⟨j, m, hj, rfl, rfl⟩⟩
      | some a => exact .inr ⟨j, a, m, hj, rfl, rfl⟩

theorem count_eraseP {pipes : List Pipe} {page : ℕ} {p : Pipe}
    (hf : pipes.find? (fun p ↦ p.page = page) = some p) : p.page = page ∧ ∀ q,
      (pipes.map Pipe.page).count q =
        ((pipes.eraseP (fun p ↦ p.page = page)).map Pipe.page).count q + holding (some page) q := by
  obtain ⟨hp, l₁, l₂, rfl, hno⟩ := List.find?_eq_some_iff_append.mp hf
  have hpage : p.page = page := of_decide_eq_true hp
  refine ⟨hpage, fun q ↦ ?_⟩
  rw [List.eraseP_append_right _ (by simpa using hno), List.eraseP_cons, hp]
  simp only [List.map_append, List.map_cons, List.count_append, count_cons_holding, hpage, cond_true]
  omega

namespace Sound

variable (h : Sound M data s)
include h

theorem keeps : Keeps M data i s s := ⟨h, fun _ _ _ ↦ ⟨.refl, fun _ _ ↦ rfl⟩⟩

section

variable (hu : (s.proc i).state ≠ .UNUSED) (ht : (s.proc i).task = some t)
include hu ht

theorem setTask (t' : Task) (hc : t'.pgdir.Confined data t'.sz)
    (hcons : Conserves t.pgdir.holds s.mem t'.pgdir.holds m) :
    Keeps M data i s (s.set i { s.proc i with task := some t' } m) := by
  obtain ⟨hembryo, hstack, -⟩ := h.slot i hu
  refine h.set ?_ (fun _ ↦ ⟨hembryo, hstack, t', rfl, hc⟩) (.inl rfl)
  refine hcons.of_part (fun q ↦ ?_) (fun q ↦ ?_)
  · rw [Slot.holds_used hu ht]
    omega
  · have hnew : Slot.holds { s.proc i with task := some t' } q =
        holding (s.proc i).kstack q + t'.pgdir.holds q :=
      Slot.holds_used (p := { s.proc i with task := some t' }) hu rfl
    rw [hnew, Slot.holds_used hu ht]
    omega

theorem sbrk (n : ℤ) : Ensures (Keeps M data i s) (fun _ ↦ False) (s.sbrk M i t n) := by
  refine ((growproc_ensures n (h.confined hu ht) (fun _ ↦ h.free)
    (fun q hq ↦ ((h.kept hu ht).held q hq).1)).mapError (fun _ he ↦ he)).bind ?_
  rintro ⟨grown, p, m⟩ ⟨hc, hcons⟩
  exact h.setTask hu ht { t with toProc := p } hc hcons

theorem exec (hl : Linked data) (namei : List UInt8 → Option Inode) (path : List UInt8)
    (argv : List (List UInt8)) :
    Ensures (Keeps M data i s)
      (fun e ↦ e = .vm .nullPte ∧ 4095 < (argv.map List.length).sum + 4 * argv.length)
      (s.exec M data namei path argv i t) := by
  have hkept := h.kept hu ht
  refine (((exec_conserves namei path argv hl hkept (h.confined hu ht)).and
    (exec_ensures namei path argv hl hkept)).mapError ?_).bind ?_
  · rintro e ⟨-, rfl, ip, img, m', -, -, hlong⟩
    exact ⟨rfl, by omega⟩
  rintro ⟨r, t', m⟩ ⟨⟨hc, hcons⟩, -⟩
  exact h.setTask hu ht t' hc hcons

theorem store (a : ℕ) (c : UInt8) : Keeps M data i s (s.store t a c) := by
  rw [System.store]
  split
  · split
    · rename_i e he huw
      have hv : a / PGSIZE % 2 ^ 20 < 2 ^ 19 := by
        by_contra hno
        rw [(h.confined hu ht).kernel _ (by omega) (Nat.mod_lt _ (by decide))] at he
        have := kernelEntry_user he
        simp_all
      rw [← System.set_self]
      refine h.set ?_ (h.slot i) (.inl rfl)
      refine (conserves_write hv he).of_part (fun q ↦ ?_) (fun q ↦ rfl)
      rw [Slot.holds_used hu ht]
      omega
    · exact h.keeps
  · exact h.keeps

end

theorem owns_of_kalloc {a : ℕ} (hu : (s.proc i).state ≠ .UNUSED) (ht : (s.proc i).task = some t)
    (hk : s.mem.kalloc M = (some a, m)) : Owns M t.pgdir m ∧ m.freelist.Nodup := by
  have hkept := h.kept hu ht
  have hnd := h.nodup
  obtain ⟨hfree, -⟩ := kalloc_eq_some hk
  have hsub {q : ℕ} (hq : q ∈ m.freelist) : q ∈ s.mem.freelist := by
    rw [hfree]
    exact List.mem_cons_of_mem _ hq
  rw [hfree] at hnd
  refine ⟨⟨fun q hq ↦ h.free (hsub hq), fun v e hv he ↦ ?_⟩, hnd.of_cons⟩
  have hheld := hkept.held _ (Pgdir.holds_pos (user_page.mp hv) he)
  exact ⟨hheld.1, fun hq ↦ hheld.2 (hsub hq)⟩

theorem setUnused (hj : (s.proc j).state = .UNUSED) (hp : p.Sound data)
    (hcons : Conserves (fun _ ↦ 0) s.mem p.holds m) : Keeps M data i s (s.set j p m) := by
  refine h.set ?_ hp (.inr (fun hactive ↦ hactive.1 hj))
  rwa [show (s.proc j).holds = fun _ ↦ 0 from funext fun q ↦ Slot.holds_unused hj]

theorem fork (hl : Linked data) (hu : (s.proc i).state ≠ .UNUSED) (ht : (s.proc i).task = some t) :
    Ensures (fun r ↦ Keeps M data i s r.2)
      (fun e ↦ e = .vm .copyuvm ∧ ∃ v, v < pages t.sz ∧ t.pgdir.tr v = none)
      (s.fork M data i t) := by
  rw [System.fork]
  obtain ⟨s', hs', hcase⟩ | ⟨j, a, m, hj, hk, hs'⟩ := allocproc_cases (M := M) s
  · rw [hs']
    rcases hcase with ⟨rfl, -⟩ | ⟨j, m, hj, hk, rfl⟩
    · exact h.keeps
    · exact h.setUnused hj (fun hno ↦ absurd hj hno)
        ((conserves_kalloc_none hk).congr (fun q ↦ Slot.holds_unused hj))
  · have hc := h.confined hu ht
    obtain ⟨howns, hnodup⟩ := h.owns_of_kalloc hu ht hk
    have hfree : a ∈ s.mem.freelist := by
      rw [(kalloc_eq_some hk).1]
      exact List.mem_cons_self
    have hstack := conserves_kalloc (fun _ ↦ 0) hk
    rw [hs']
    dsimp only
    rw [System.set_proc]
    refine ((copyuvm_ensures hl (Nat.le_of_lt hc.lt) howns hnodup).mapError
      (fun e he ↦ ⟨by rw [he.1], he.2⟩)).bind ?_
    rintro ⟨d, m₁⟩ hd
    cases d with
    | none =>
      have hheld := hstack.trans (hd.1.frame (holding (some a)))
      refine ((kfree_ensures (fun _ ↦ 0) (h.free hfree)).mapError (fun _ ↦ False.elim)).bind
        (fun m₂ hm₂ ↦ ?_)
      rw [System.set_set]
      exact h.setUnused hj (fun hno ↦ absurd rfl hno)
        ((hheld.trans hm₂).congr (fun q ↦ Slot.holds_unused rfl))
    | some d =>
      have hcopy : CopiedTo data t.pgdir m (pages t.sz) d m₁ := hd
      dsimp only
      rw [System.set_set]
      refine h.setUnused hj (fun _ ↦ ⟨nofun, nofun, _, rfl, hcopy.confined hl hc.lt⟩) ?_
      refine (hstack.trans (hcopy.conserves.frame (holding (some a)))).congr (fun q ↦ ?_)
      rw [Slot.holds_used (t := { t with pgdir := d }) ProcState.noConfusion rfl, Nat.add_comm]

theorem wait : Ensures (fun r ↦ Keeps M data i s r.2) (fun _ ↦ False) (s.wait M i) := by
  rw [System.wait]
  cases hf : (List.finRange NPROC).find?
      (fun j ↦ decide ((s.proc j).parent = some i ∧ (s.proc j).state = .ZOMBIE)) with
  | none => exact h.keeps
  | some j =>
    have hz : (s.proc j).state = .ZOMBIE := by
      have := List.find?_some hf
      simp only [decide_eq_true_eq] at this
      exact this.2
    have hu : (s.proc j).state ≠ .UNUSED := by rw [hz]; exact ProcState.noConfusion
    obtain ⟨-, hstack, t, ht, -⟩ := h.slot j hu
    obtain ⟨a, ha⟩ := Option.ne_none_iff_exists'.mp hstack
    have hholds (q : ℕ) : (s.proc j).holds q = t.pgdir.holds q + holding (some a) q := by
      rw [Slot.holds_used hu ht, ha, Nat.add_comm]
    have hpos (q : ℕ) (hq : 0 < (s.proc j).holds q) : Mem.Valid M q :=
      h.valid (Nat.lt_of_lt_of_le hq System.slot_le)
    have hvalid : Mem.Valid M a := hpos a (by rw [hholds, holding_self]; omega)
    dsimp only
    rw [ha, ht]
    refine ((kfree_ensures t.pgdir.holds hvalid).mapError (fun _ ↦ False.elim)).bind (fun m hm ↦ ?_)
    refine ((Pgdir.freevm_ensures (fun q hq ↦ hpos q (by rw [hholds]; omega))).mapError
      (fun _ ↦ False.elim)).bind (fun m' hm' ↦ ?_)
    refine h.set ?_ (fun hno ↦ absurd rfl hno) (.inr (fun hactive ↦ hactive.2.2 hz))
    rw [show (s.proc j).holds = _ from funext hholds]
    exact (hm.trans hm').congr (fun q ↦ Slot.holds_unused rfl)

theorem exit (ha : (s.proc i).Active) :
    Ensures (Keeps M data i s) (fun e ↦ e = .initExiting ∧ i = s.initproc) (s.exit i) := by
  rw [System.exit]
  split
  · exact ⟨rfl, ‹_›⟩
  have hstate (k : ProcId) : ((if k = i then ProcState.ZOMBIE else (s.proc k).state) = .UNUSED) ↔
      (s.proc k).state = .UNUSED := by
    split
    · rename_i hk
      rw [hk]
      exact ⟨ProcState.noConfusion, fun hno ↦ absurd hno ha.1⟩
    · rfl
  have hmem : Conserves (fun _ ↦ 0) s.mem (fun _ ↦ 0) s.mem := .refl
  refine ⟨h.of_conserves hmem (fun q ↦ Nat.zero_le _) (fun q ↦ ?_) rfl (fun k hk ↦ ?_),
    fun k hk hactive ↦ ⟨⟨if_neg hk, rfl, rfl⟩, fun _ _ ↦ rfl⟩⟩
  · simp only [System.holds, Slot.holds, hstate]
  · obtain ⟨hembryo, hrest⟩ := h.slot k (fun hno ↦ hk ((hstate k).mpr hno))
    refine ⟨?_, hrest⟩
    dsimp only
    split
    · exact ProcState.noConfusion
    · exact hembryo

theorem of_part {a a' : ℕ → ℕ} (hcons : Conserves a s.mem a' s'.mem)
    (hle : ∀ q, a q + ∑ i, (s.proc i).holds q ≤ s.holds q)
    (hsum : ∀ q, s'.holds q + a q = s.holds q + a' q) (hkernel : s'.kpgdir = s.kpgdir)
    (hproc : s'.proc = s.proc) : Keeps M data i s s' := by
  have hslot (k : ProcId) (q : ℕ) : (s.proc k).holds q ≤ ∑ i, (s.proc i).holds q :=
    Finset.single_le_sum (f := fun i ↦ (s.proc i).holds q) (fun _ _ ↦ Nat.zero_le _)
      (Finset.mem_univ k)
  refine ⟨h.of_conserves hcons (fun q ↦ (Nat.le_add_right _ _).trans (hle q)) hsum hkernel
    (fun k ↦ hproc ▸ h.slot k), h.undisturbed hcons (fun k _ _ ↦ ⟨hproc ▸ .refl, fun q ↦ ?_⟩)⟩
  exact (Nat.add_le_add_left (hslot k q) _).trans (hle q)

theorem pipealloc : Keeps M data i s (s.pipealloc M) := by
  have hprocs (q : ℕ) : 0 + ∑ i, (s.proc i).holds q ≤ s.holds q := by
    rw [System.holds]
    omega
  rw [System.pipealloc]
  split
  · exact h.of_part (conserves_kalloc_none ‹_›) hprocs (fun q ↦ rfl) rfl rfl
  · refine h.of_part (conserves_kalloc (fun _ ↦ 0) ‹_›) hprocs (fun q ↦ ?_) rfl rfl
    simp only [System.holds, List.map_cons, count_cons_holding]
    omega

theorem pipeclose (page : ℕ) (writable : Bool) :
    Ensures (Keeps M data i s) (fun _ ↦ False) (s.pipeclose M page writable) := by
  rw [System.pipeclose]
  cases hf : s.pipes.find? (fun p ↦ decide (p.page = page)) with
  | none => exact h.keeps
  | some p =>
    obtain ⟨hpage, hcount⟩ := count_eraseP hf
    have hle (q : ℕ) : holding (some page) q + ∑ i, (s.proc i).holds q ≤ s.holds q := by
      have := hcount q
      rw [System.holds]
      omega
    dsimp only
    split
    · have hvalid : Mem.Valid M page := h.valid (by
        have := hle page
        rw [holding_self] at this
        omega)
      refine ((kfree_ensures (fun _ ↦ 0) hvalid).mapError (fun _ ↦ False.elim)).bind (fun m hm ↦ ?_)
      refine h.of_part hm (fun q ↦ ?_) (fun q ↦ ?_) rfl rfl
      · have := hle q
        omega
      · have := hcount q
        simp only [System.holds]
        omega
    · have hmem : Conserves (fun _ ↦ 0) s.mem (fun _ ↦ 0) s.mem := .refl
      refine h.of_part hmem (fun q ↦ ?_) (fun q ↦ ?_) rfl rfl
      · have := hle q
        omega
      · have := hcount q
        have hnew : (p.close writable).page = page := by
          cases writable <;> exact hpage
        simp only [System.holds, List.map_cons, count_cons_holding, hnew]
        omega

theorem call (hl : Linked data) (ha : (s.proc i).Active) (ht : (s.proc i).task = some t) (c : Call) :
    Ensures (Keeps M data i s) (Excused i t s c) (s.call M data i t c) := by
  cases c with
  | fork => exact (h.fork hl ha.1 ht).bind (fun r hr ↦ hr)
  | sbrk n => exact h.sbrk ha.1 ht n
  | exec namei path argv => exact h.exec ha.1 ht hl namei path argv
  | exit => exact h.exit ha
  | wait => exact h.wait.bind (fun r hr ↦ hr)
  | pipealloc => exact h.pipealloc
  | pipeclose page writable => exact h.pipeclose page writable
  | store a c => exact h.store ha.1 ht a c

theorem step (hl : Linked data) {c : ProcId × Call} (hs : step M data c s = .ok s') :
    Keeps M data c.1 s s' := by
  rw [Memory.step] at hs
  split at hs
  · split at hs
    · exact (h.call hl ‹_› ‹_› c.2).of_ok hs
    · cases hs
      exact h.keeps
  · cases hs
    exact h.keeps

end Sound

end Xv6Bfs.Memory

import Xv6Bfs.Files.Books
import Xv6Bfs.Files.System

namespace Xv6Bfs.Files

open Lib.Execution Lib.FiniteSum Fs Sysfile Function

variable {H Q S R : Type} {I : Inodes H S} {A : Ledger I} {t t' : System H Q S}
  {m : Multiset (Fin NFILE)} {n n' k : Multiset H} {p : Fin NPROC} {fd : Fin NOFILE} {f : Fin NFILE}
  {cwd ip : H}

def Proc.files (v : Proc H) : Multiset (Fin NFILE) := ∑ fd, target (v.ofile fd)

def Proc.dir (v : Proc H) : Multiset H := target v.cwd

def Proc.WellFormed (v : Proc H) : Prop :=
  if v.state = .live then v.cwd ≠ none else (∀ fd, v.ofile fd = none) ∧ v.cwd = none

namespace System

def files (t : System H Q S) : Multiset (Fin NFILE) := ∑ p, (t.proc p).files

def cwds (t : System H Q S) : Multiset H := ∑ p, (t.proc p).dir

@[simp] theorem proc_setProc_self (t : System H Q S) (p : Fin NPROC) (v : Proc H) :
    (t.setProc p v).proc p = v := update_self ..

@[simp] theorem proc_setProc_of_ne {p' : Fin NPROC} (h : p' ≠ p) (v : Proc H) :
    (t.setProc p v).proc p' = t.proc p' := update_of_ne h ..

@[simp] theorem proc_setFd_self (t : System H Q S) (p : Fin NPROC) (fd : Fin NOFILE)
    (x : Option (Fin NFILE)) : (t.setFd p fd x).proc p =
      { t.proc p with ofile := update (t.proc p).ofile fd x } := proc_setProc_self ..

@[simp] theorem proc_setFd_of_ne {p' : Fin NPROC} (h : p' ≠ p) (x : Option (Fin NFILE)) :
    (t.setFd p fd x).proc p' = t.proc p' := proc_setProc_of_ne h _

theorem files_setProc (t : System H Q S) (p : Fin NPROC) (v : Proc H) :
    (t.setProc p v).files + (t.proc p).files = t.files + v.files :=
  sum_update_add (Finset.mem_univ p) Proc.files t.proc v

theorem cwds_setProc (t : System H Q S) (p : Fin NPROC) (v : Proc H) :
    (t.setProc p v).cwds + (t.proc p).dir = t.cwds + v.dir :=
  sum_update_add (Finset.mem_univ p) Proc.dir t.proc v

theorem files_setFd (t : System H Q S) (p : Fin NPROC) (fd : Fin NOFILE) (x : Option (Fin NFILE)) :
    (t.setFd p fd x).files + target ((t.proc p).ofile fd) = t.files + target x := by
  have hproc := t.files_setProc p { t.proc p with ofile := update (t.proc p).ofile fd x }
  have hfd : ({ t.proc p with ofile := update (t.proc p).ofile fd x } : Proc H).files +
      target ((t.proc p).ofile fd) = (t.proc p).files + target x :=
    sum_update_add (Finset.mem_univ fd) target (t.proc p).ofile x
  apply add_right_cancel (b := (t.proc p).files)
  rw [add_right_comm, setFd, hproc, add_assoc, hfd, add_assoc, add_comm (target x)]

theorem files_setFd_some (h : (t.proc p).ofile fd = none) :
    (t.setFd p fd (some f)).files = f ::ₘ t.files := by
  have := t.files_setFd p fd (some f)
  rw [h, target, target, add_zero, add_comm, Multiset.singleton_add] at this
  exact this

theorem files_setFd_none (h : (t.proc p).ofile fd = some f) :
    t.files = f ::ₘ (t.setFd p fd none).files := by
  have := t.files_setFd p fd none
  rw [h, target, target, add_zero, add_comm, Multiset.singleton_add] at this
  exact this.symm

theorem mem_files (h : (t.proc p).ofile fd = some f) : f ∈ t.files := by
  rw [files_setFd_none h]
  exact Multiset.mem_cons_self _ _

theorem cwds_setFd (t : System H Q S) (p : Fin NPROC) (fd : Fin NOFILE) (x : Option (Fin NFILE)) :
    (t.setFd p fd x).cwds = t.cwds :=
  add_right_cancel (t.cwds_setProc p { t.proc p with ofile := update (t.proc p).ofile fd x })

theorem files_congr (h : ∀ p, (t'.proc p).ofile = (t.proc p).ofile) : t'.files = t.files :=
  Finset.sum_congr rfl fun p _ ↦ by rw [Proc.files, h, Proc.files]

theorem cwds_congr (h : ∀ p, (t'.proc p).cwd = (t.proc p).cwd) : t'.cwds = t.cwds :=
  Finset.sum_congr rfl fun p _ ↦ by rw [Proc.dir, h, Proc.dir]

theorem files_setProc_same {v : Proc H} (hv : v.ofile = (t.proc p).ofile) :
    (t.setProc p v).files = t.files := by
  apply add_right_cancel (b := (t.proc p).files)
  rw [files_setProc, Proc.files, hv, Proc.files]

theorem cwds_setProc_some {v : Proc H} (h : (t.proc p).cwd = some cwd) (hv : v.cwd = some ip) :
    cwd ::ₘ (t.setProc p v).cwds = ip ::ₘ t.cwds := by
  have := t.cwds_setProc p v
  rw [Proc.dir, Proc.dir, h, hv, target, target, add_comm, add_comm t.cwds] at this
  exact this

theorem cwds_setProc_none {v : Proc H} (h : (t.proc p).cwd = some cwd) (hv : v.cwd = none) :
    t.cwds = cwd ::ₘ (t.setProc p v).cwds := by
  have := t.cwds_setProc p v
  rw [Proc.dir, Proc.dir, h, hv, target, target, add_zero, add_comm] at this
  exact this.symm

theorem cwds_setProc_new {v : Proc H} (h : (t.proc p).cwd = none) (hv : v.cwd = some cwd) :
    (t.setProc p v).cwds = cwd ::ₘ t.cwds := by
  have := t.cwds_setProc p v
  rw [Proc.dir, Proc.dir, h, hv, target, target, add_zero, add_comm] at this
  exact this

theorem mem_cwds (h : (t.proc p).cwd = some cwd) : cwd ∈ t.cwds := by
  refine Multiset.mem_sum.mpr ⟨p, Finset.mem_univ p, ?_⟩
  rw [Proc.dir, h]
  exact Multiset.mem_singleton_self cwd

theorem fdalloc_eq (h : t.fdalloc p f = some (fd, t')) :
    (t.proc p).ofile fd = none ∧ t' = t.setFd p fd (some f) := by
  obtain ⟨fd', hfind, he⟩ := Option.map_eq_some_iff.mp h
  cases he
  exact ⟨by simpa using List.find?_some hfind, rfl⟩

theorem runTab_ensures {post : Table H Q S → Prop} {err : Error → Prop}
    {x : Table H Q S → Except Error (Table H Q S)} (h : Ensures post err (x t.tab)) :
    Ensures (fun t' ↦ t'.proc = t.proc ∧ post t'.tab) err (t.runTab x) :=
  h.bind (fun _ hpost ↦ ⟨rfl, hpost⟩)

theorem onTab_ensures {post : R × Table H Q S → Prop} {err : Error → Prop}
    {x : Table H Q S → Except Error (R × Table H Q S)} (h : Ensures post err (x t.tab)) :
    Ensures (fun r ↦ r.2.proc = t.proc ∧ post (r.1, r.2.tab)) err (t.onTab x) :=
  h.bind (fun _ hpost ↦ ⟨rfl, hpost⟩)

theorem files_eq (h : t'.proc = t.proc) : t'.files = t.files := by rw [files, h, files]

theorem cwds_eq (h : t'.proc = t.proc) : t'.cwds = t.cwds := by rw [cwds, h, cwds]

end System

open Files.System

structure Inv (A : Ledger I) (t : System H Q S) : Prop where
  books : Books A t.files t.cwds 0 t.tab
  procs : ∀ p, (t.proc p).WellFormed

namespace Inv

theorem init (initproc : Fin NPROC) {fs : S} {root : H} (h : A.holds {root} 0 fs) :
    Inv A (boot initproc fs root : System H Q S) := by
  have hfiles : (boot initproc fs root : System H Q S).files = 0 := by
    refine Finset.sum_eq_zero fun p _ ↦ Finset.sum_eq_zero fun fd _ ↦ ?_
    simp only [boot]
    split <;> rfl
  have hcwds : (boot initproc fs root : System H Q S).cwds = {root} := by
    refine (Finset.sum_eq_single initproc (fun p _ hp ↦ ?_) (by simp)).trans ?_
    · simp [boot, hp, Proc.dir, target]
    · simp [boot, Proc.dir, target]
  have hnone : ∀ f, ((boot initproc fs root : System H Q S).tab.file f).type = .FD_NONE := fun _ ↦ rfl
  refine ⟨⟨⟨fun f ↦ ?_, fun f _ ↦ rfl, by simp [hnone], by simp [hnone]⟩, ⟨fun q w ↦ ?_, ?_, by simp [boot]⟩,
    fun q ↦ rfl, ?_⟩, fun p ↦ ?_⟩
  · rw [hfiles, Multiset.count_zero]
    rfl
  · refine iff_of_false ?_ (by simp [boot])
    rintro ⟨f, hf⟩
    rw [File.pipeEnd_of_ne (by simp [hnone])] at hf
    cases hf
  · intro f f' e hf
    rw [File.pipeEnd_of_ne (by simp [hnone])] at hf
    cases hf
  · rw [hcwds, Finset.sum_eq_zero fun f _ ↦ File.inode_of_ne (by simp [hnone]), zero_add]
    exact h
  · simp only [boot, Proc.WellFormed]
    split <;> simp_all

theorem onFs {x : S → Except Panic (ℤ × S)} (h : Inv A t)
    (hx : Ensures (fun r ↦ A.holds (∑ f, (t.tab.file f).inode + t.cwds) 0 r.2) A.err (x t.tab.fs)) :
    Ensures (Inv A) (Error.Outside A.err) (do
      let (_, t) ← t.onTab (·.onFs x)
      .ok t) := by
  apply (onTab_ensures (onFs_ensures hx)).bind
  rintro ⟨r, t'⟩ ⟨hproc, s, hs, htab⟩
  refine ⟨?_, fun p ↦ hproc ▸ h.procs p⟩
  dsimp only at htab
  rw [files_eq hproc, cwds_eq hproc, htab]
  exact h.books.setFs hs

theorem procs_setFd (hprocs : ∀ p, (t.proc p).WellFormed) (hp : (t.proc p).state = .live)
    (x : Option (Fin NFILE)) (p' : Fin NPROC) : ((t.setFd p fd x).proc p').WellFormed := by
  rcases eq_or_ne p' p with rfl | hp'
  · have := hprocs p'
    simpa only [proc_setFd_self, Proc.WellFormed, hp, if_true] using this
  · simpa only [proc_setFd_of_ne hp'] using hprocs p'

theorem of_proc (hproc : t'.proc = t.proc) (hprocs : ∀ p, (t.proc p).WellFormed)
    (h : Books A t.files t.cwds 0 t'.tab) : Inv A t' :=
  ⟨by rwa [files_eq hproc, cwds_eq hproc], fun p ↦ hproc ▸ hprocs p⟩

theorem setProc {v : Proc H} (hv : v.ofile = (t.proc p).ofile) (hwf : v.WellFormed)
    (hprocs : ∀ p', p' ≠ p → (t.proc p').WellFormed)
    (hn : (t.setProc p v).cwds = n) (h : Books A t.files n 0 t.tab) : Inv A (t.setProc p v) := by
  refine ⟨?_, fun p' ↦ ?_⟩
  · rw [files_setProc_same hv, hn]
    exact h
  · rcases eq_or_ne p' p with rfl | hp'
    · rwa [proc_setProc_self]
    · rw [proc_setProc_of_ne hp']
      exact hprocs p' hp'

theorem iunlockput (hprocs : ∀ p, (t.proc p).WellFormed)
    (h : Books A t.files (ip ::ₘ t.cwds) {ip} t.tab) :
    Ensures (Inv A) (Error.Outside A.err) (t.runTab (·.runFs (Sysfile.iunlockput I ip))) := by
  have hrun : Ensures (Books A t.files t.cwds 0) (Error.Outside A.err)
      (t.tab.runFs (Sysfile.iunlockput I ip)) := by
    apply h.runFs
    intro l s hs
    rw [Multiset.add_cons] at hs
    exact A.iunlockput hs
  exact (runTab_ensures hrun).mono fun t' ⟨hproc, htab⟩ ↦ of_proc hproc hprocs htab

theorem mem_cwd (hcwd : (t.proc p).cwd = some cwd) (l : Multiset H) : cwd ∈ l + t.cwds :=
  Multiset.mem_add.mpr (.inr (mem_cwds hcwd))

theorem chdir {path : Path} (h : Inv A t) (hc : A.Serves cwd t.tab.fs (.chdir path : Call Q))
    (hp : (t.proc p).state = .live) (hcwd : (t.proc p).cwd = some cwd) :
    Ensures (Inv A) (Error.Outside A.err) (t.chdir I p cwd path) := by
  have hdir := hc _ h.books.inodes (mem_cwd hcwd _)
  apply (onTab_ensures (onFs_ensures hdir)).bind
  rintro ⟨r, t₁⟩ ⟨hproc, s, hs, htab⟩
  dsimp only at hproc hs htab
  cases r with
  | none => exact of_proc hproc h.procs (htab ▸ h.books.setFs hs)
  | some ip =>
    have hswap := cwds_setProc_some (t := t) (v := { t.proc p with cwd := some ip }) hcwd rfl
    have h₁ : Books A t.files (cwd ::ₘ (t.setProc p { t.proc p with cwd := some ip }).cwds) 0 t₁.tab := by
      rw [htab, hswap]
      refine h.books.setFs ?_
      rw [Multiset.add_cons]
      exact hs
    apply (runTab_ensures h₁.iput).bind
    rintro t₂ ⟨hproc₂, h₂⟩
    have hproc₂ := hproc₂.trans hproc
    rw [← files_eq hproc₂] at h₂
    refine setProc rfl (by simp [Proc.WellFormed, hproc₂, hp]) (fun p' _ ↦ hproc₂ ▸ h.procs p') ?_ h₂
    exact cwds_eq (by rw [System.setProc, System.setProc, hproc₂])

theorem dup (fd : Fin NOFILE) (h : Inv A t) (hp : (t.proc p).state = .live) :
    Ensures (Inv A) (Error.Outside A.err) (t.dup p fd) := by
  unfold System.dup
  split
  · exact h
  rename_i f hf
  split
  · exact h
  rename_i fd' t₁ hfd
  obtain ⟨hfree, rfl⟩ := fdalloc_eq hfd
  refine (runTab_ensures (t := t.setFd p fd' (some f)) (h.books.filedup (mem_files hf))).mono ?_
  rintro t' ⟨hproc, htab⟩
  refine of_proc hproc (procs_setFd h.procs hp _) ?_
  rwa [files_setFd_some hfree, cwds_setFd]

theorem notMem_of_split {l₁ l₂ : List (Fin NOFILE)} (h : List.finRange NOFILE = l₁ ++ fd :: l₂) :
    fd ∉ l₁ := by
  have hnodup := List.nodup_finRange NOFILE
  rw [h] at hnodup
  intro hmem
  exact (List.nodup_append.mp hnodup).2.2 fd hmem fd (by simp) rfl

structure Forking (A : Ledger I) (t : System H Q S) (np : Fin NPROC) (l : List (Fin NOFILE))
    (t' : System H Q S) : Prop where
  books : Books A t'.files t.cwds 0 t'.tab
  other : ∀ p, p ≠ np → t'.proc p = t.proc p
  state : (t'.proc np).state = .UNUSED
  cwd : ∀ p, (t'.proc p).cwd = (t.proc p).cwd
  rest : ∀ fd, fd ∉ l → (t'.proc np).ofile fd = none

theorem Forking.dupFile {np : Fin NPROC} {l : List (Fin NOFILE)} (h : Forking A t np l t')
    (hp : p ≠ np) (hfd : fd ∉ l) :
    Ensures (Forking A t np (l ++ [fd])) (Error.Outside A.err) (t'.dupFile p np fd) := by
  have hmono : ∀ fd', fd' ∉ l ++ [fd] → fd' ∉ l := fun fd' hn hl ↦ hn (List.mem_append_left _ hl)
  unfold System.dupFile
  split
  · exact ⟨h.books, h.other, h.state, h.cwd, fun fd' hfd' ↦ h.rest fd' (hmono fd' hfd')⟩
  rename_i f hf
  apply (runTab_ensures (h.books.filedup (mem_files hf))).bind
  rintro t₁ ⟨hproc, h₁⟩
  refine ⟨?_, fun p' hp' ↦ ?_, ?_, fun p' ↦ ?_, fun fd' hfd' ↦ ?_⟩
  · rw [files_setFd_some (by rw [hproc]; exact h.rest fd hfd), files_eq hproc]
    exact h₁
  · rw [proc_setFd_of_ne hp', hproc, h.other p' hp']
  · rw [proc_setFd_self, hproc, h.state]
  · rcases eq_or_ne p' np with rfl | hp'
    · rw [proc_setFd_self, hproc, h.cwd]
    · rw [proc_setFd_of_ne hp', hproc, h.cwd]
  · have hne : fd' ≠ fd := by
      rintro rfl
      exact hfd' (by simp)
    rw [proc_setFd_self, hproc]
    exact (update_of_ne hne _ _).trans (h.rest fd' (hmono fd' hfd'))

theorem nicefork (kstack copyuvm : Bool) (h : Inv A t) (hp : (t.proc p).state = .live)
    (hcwd : (t.proc p).cwd = some cwd) :
    Ensures (Inv A) (Error.Outside A.err) (t.nicefork I p cwd kstack copyuvm) := by
  unfold System.nicefork
  split
  · exact h
  rename_i np hnp
  have hunused : (t.proc np).state = .UNUSED := by simpa using List.find?_some hnp
  have hidle : (∀ fd, (t.proc np).ofile fd = none) ∧ (t.proc np).cwd = none := by
    have := h.procs np
    rwa [Proc.WellFormed, if_neg (by simp [hunused])] at this
  have hne : p ≠ np := by
    rintro rfl
    rw [hp] at hunused
    cases hunused
  split
  · exact h
  have hstart : Forking A t np [] (t.setProc np { t.proc np with parent := some p }) := by
    refine ⟨?_, fun p' hp' ↦ ?_, ?_, fun p' ↦ ?_, fun fd _ ↦ ?_⟩
    · rw [files_setProc_same (v := { t.proc np with parent := some p }) rfl]
      exact h.books
    · rw [proc_setProc_of_ne hp']
    · rw [proc_setProc_self, hunused]
    · rcases eq_or_ne p' np with rfl | hp'
      · rw [proc_setProc_self]
      · rw [proc_setProc_of_ne hp']
    · rw [proc_setProc_self, hidle.1]
  have hloop := Ensures.exec_prefix (Forking A t np)
    (fun l₁ fd l₂ hl t' ht' ↦ ht'.dupFile hne (notMem_of_split hl)) hstart
  apply hloop.bind
  intro t₁ h₁
  have hcwd₁ : (t₁.proc np).cwd = none := (h₁.cwd np).trans hidle.2
  have hdup := A.idup h₁.books.inodes (mem_cwd hcwd _)
  rw [← Multiset.add_cons, ← cwds_congr h₁.cwd] at hdup
  exact setProc (t := { t₁ with tab := _ }) rfl (by simp [Proc.WellFormed])
    (fun p' hp' ↦ (h₁.other p' hp').symm ▸ h.procs p') (cwds_setProc_new hcwd₁ rfl)
    (h₁.books.setFs hdup)

theorem wait (h : Inv A t) (p : Fin NPROC) : Inv A (t.wait p) := by
  unfold System.wait
  split
  · exact h
  rename_i c hc
  have hzombie : (t.proc c).parent = some p ∧ (t.proc c).state = .ZOMBIE := by
    simpa using List.find?_some hc
  have hidle := h.procs c
  rw [Proc.WellFormed, if_neg (by simp [hzombie.2])] at hidle
  refine setProc rfl (by simpa [Proc.WellFormed] using hidle) (fun p' _ ↦ h.procs p') ?_ h.books
  refine cwds_congr fun p' ↦ ?_
  rcases eq_or_ne p' c with rfl | hp'
  · rw [proc_setProc_self]
  · rw [proc_setProc_of_ne hp']

variable [DecidableEq Q]

theorem openFile (omode : ℕ) (hprocs : ∀ p, (t.proc p).WellFormed) (hp : (t.proc p).state = .live)
    (h : Books A t.files (ip ::ₘ t.cwds) {ip} t.tab) :
    Ensures (Inv A) (Error.Outside A.err) (t.openFile I p ip omode) := by
  unfold System.openFile
  split
  · exact iunlockput hprocs h
  rename_i f tab ha
  obtain ⟨hm, h₁, ht, -⟩ := h.filealloc ha
  split
  · apply (runTab_ensures (t := { t with tab := tab }) h₁.fileclose).bind
    intro t₂ ⟨hproc, h₂⟩
    refine iunlockput (fun p ↦ hproc ▸ hprocs p) ?_
    rwa [files_eq (t := t) hproc, cwds_eq (t := t) hproc]
  · rename_i fd t₂ hfd
    obtain ⟨hfree, rfl⟩ := fdalloc_eq hfd
    have hfiles : ({ t with tab := tab }.setFd p fd (some f)).files = f ::ₘ t.files :=
      files_setFd_some hfree
    have hcwds : ({ t with tab := tab }.setFd p fd (some f)).cwds = t.cwds := cwds_setFd _ _ _ _
    have hinodes := h₁.inodes
    rw [Multiset.add_cons] at hinodes
    apply (runTab_ensures (runFs_ensures (A.iunlock (k := 0) hinodes))).bind
    intro t₂ ⟨hproc, s, hs, htab⟩
    rw [← Multiset.add_cons] at hs
    have h₂ : Books A (f ::ₘ t.files) (ip ::ₘ t.cwds) 0 t₂.tab := htab ▸ h₁.setFs hs
    have ht₂ : (t₂.tab.file f).type = .FD_NONE := htab ▸ ht
    refine ⟨?_, fun p' ↦ ?_⟩
    · change Books A t₂.files t₂.cwds 0 _
      rw [files_eq hproc, cwds_eq hproc, hfiles, hcwds]
      exact h₂.setInode _ _ (Multiset.mem_cons_self f _) ht₂
    · exact (congrFun hproc p').symm ▸ procs_setFd (t := { t with tab := tab }) hprocs hp _ p'

theorem open_ {path : Path} {omode : ℕ} (h : Inv A t)
    (hc : A.Serves cwd t.tab.fs (.open path omode : Call Q)) (hp : (t.proc p).state = .live)
    (hcwd : (t.proc p).cwd = some cwd) :
    Ensures (Inv A) (Error.Outside A.err) (t.open_ I p cwd path omode) := by
  have hopen := hc _ h.books.inodes (mem_cwd hcwd _)
  apply (onTab_ensures (onFs_ensures hopen)).bind
  rintro ⟨r, t₁⟩ ⟨hproc, s, hs, htab⟩
  dsimp only at hproc hs htab
  cases r with
  | none => exact of_proc hproc h.procs (htab ▸ h.books.setFs hs)
  | some ip =>
    refine openFile omode (fun p ↦ hproc ▸ h.procs p) (hproc ▸ hp) ?_
    rw [files_eq hproc, cwds_eq hproc, htab]
    refine h.books.setFs ?_
    rw [Multiset.add_cons]
    exact hs

theorem close (fd : Fin NOFILE) (h : Inv A t) (hp : (t.proc p).state = .live) :
    Ensures (Inv A) (Error.Outside A.err) (t.close I p fd) := by
  unfold System.close
  split
  · exact h
  rename_i f hf
  have hbooks := h.books
  rw [files_setFd_none hf, ← cwds_setFd t p fd none] at hbooks
  refine (runTab_ensures (t := t.setFd p fd none) hbooks.fileclose).mono ?_
  rintro t' ⟨hproc, htab⟩
  exact of_proc hproc (procs_setFd h.procs hp none) htab

theorem pipeBad {rf wf : Fin NFILE} (hprocs : ∀ p, (t.proc p).WellFormed)
    (h : Books A (rf ::ₘ wf ::ₘ t.files) t.cwds 0 t.tab) :
    Ensures (Inv A) (Error.Outside A.err) (t.pipeBad I rf wf) := by
  apply (runTab_ensures h.fileclose).bind
  intro t₁ ⟨hproc₁, h₁⟩
  refine (runTab_ensures h₁.fileclose).mono ?_
  intro t₂ ⟨hproc₂, h₂⟩
  exact of_proc (hproc₂.trans hproc₁) hprocs h₂

theorem pipe (page : Option Q) (h : Inv A t) (hp : (t.proc p).state = .live) :
    Ensures (Inv A) (Error.Outside A.err) (t.pipe I p page) := by
  apply (onTab_ensures (h.books.pipealloc page)).bind
  rintro ⟨r, t₁⟩ ⟨hproc, h₁⟩
  dsimp only at hproc h₁
  have hprocs : ∀ p, (t₁.proc p).WellFormed := fun p ↦ hproc ▸ h.procs p
  match r with
  | none => exact of_proc hproc h.procs h₁
  | some (rf, wf) =>
    simp only [Books.Allocated, ← files_eq hproc, ← cwds_eq hproc] at h₁
    dsimp only
    split
    · exact pipeBad hprocs h₁
    rename_i fd0 t₂ hfd0
    obtain ⟨hfree0, rfl⟩ := fdalloc_eq hfd0
    have hfiles0 := files_setFd_some (f := rf) hfree0
    have hself : ((t₁.setFd p fd0 (some rf)).proc p).ofile fd0 = some rf := by simp
    have hprocs0 : ∀ p', ((t₁.setFd p fd0 (some rf)).proc p').WellFormed :=
      procs_setFd hprocs (hproc ▸ hp) (some rf)
    have hp0 : ((t₁.setFd p fd0 (some rf)).proc p).state = .live := by simp [hproc, hp]
    split
    · refine pipeBad (procs_setFd hprocs0 hp0 none) ?_
      rwa [cwds_setFd, cwds_setFd,
        (Multiset.cons_inj_right rf).mp ((files_setFd_none hself).symm.trans hfiles0)]
    rename_i fd1 t₃ hfd1
    obtain ⟨hfree1, rfl⟩ := fdalloc_eq hfd1
    refine ⟨?_, procs_setFd hprocs0 hp0 (some wf)⟩
    rwa [files_setFd_some hfree1, hfiles0, cwds_setFd, cwds_setFd, Multiset.cons_swap]

structure Exiting (A : Ledger I) (t : System H Q S) (p : Fin NPROC) (t' : System H Q S) : Prop where
  books : Books A t'.files t.cwds 0 t'.tab
  other : ∀ p', p' ≠ p → t'.proc p' = t.proc p'
  cwd : ∀ p', (t'.proc p').cwd = (t.proc p').cwd

theorem Exiting.closeFile (h : Exiting A t p t') (fd : Fin NOFILE) :
    Ensures (fun t'' ↦ Exiting A t p t'' ∧ (t''.proc p).ofile fd = none ∧
      ∀ fd', (t'.proc p).ofile fd' = none → (t''.proc p).ofile fd' = none) (Error.Outside A.err)
      (t'.closeFile I p fd) := by
  unfold System.closeFile
  split
  · rename_i hf
    exact ⟨h, hf, fun _ ↦ id⟩
  rename_i f hf
  have hbooks := h.books
  rw [files_setFd_none hf] at hbooks
  apply (runTab_ensures hbooks.fileclose).bind
  rintro t₁ ⟨hproc, h₁⟩
  refine ⟨⟨?_, fun p' hp' ↦ ?_, fun p' ↦ ?_⟩, ?_, fun fd' hfd' ↦ ?_⟩
  · rw [files_eq (t := t'.setFd p fd none) (by rw [setFd, System.setProc, hproc]; rfl)]
    exact h₁
  · rw [proc_setFd_of_ne hp', hproc, h.other p' hp']
  · rcases eq_or_ne p' p with rfl | hp'
    · rw [proc_setFd_self, hproc, h.cwd]
    · rw [proc_setFd_of_ne hp', hproc, h.cwd]
  · rw [proc_setFd_self]
    exact update_self ..
  · rw [proc_setFd_self, hproc]
    rcases eq_or_ne fd' fd with rfl | hne
    · exact update_self ..
    · exact (update_of_ne hne _ _).trans hfd'

theorem exit (initproc : Fin NPROC) (h : Inv A t) (hcwd : (t.proc p).cwd = some cwd) :
    Ensures (Inv A) (Error.Outside A.err) (t.exit I p initproc cwd) := by
  unfold System.exit
  split
  · trivial
  have hloop := Ensures.exec (Exiting A t p)
    (fun fd t' ↦ (t'.proc p).ofile fd = none) (fun fd t' ht' ↦ ht'.closeFile fd)
    (List.finRange NOFILE) (s := t) ⟨h.books, fun _ _ ↦ rfl, fun _ ↦ rfl⟩
  apply hloop.bind
  rintro t₁ ⟨h₁, hfd, -⟩
  have hcwd₁ : (t₁.proc p).cwd = some cwd := (h₁.cwd p).trans hcwd
  have hbooks := h₁.books
  rw [← cwds_congr h₁.cwd, cwds_setProc_none (v := { t₁.proc p with cwd := none }) hcwd₁ rfl] at hbooks
  apply (runTab_ensures hbooks.iput).bind
  rintro t₂ ⟨hproc₂, h₂⟩
  have hwf : ∀ p', p' ≠ p → (t₁.proc p').WellFormed := fun p' hp' ↦ (h₁.other p' hp').symm ▸ h.procs p'
  refine ⟨?_, fun p' ↦ ?_⟩
  · rw [files_congr (t := t₁) (fun p' ↦ ?_),
      cwds_congr (t := t₁.setProc p { t₁.proc p with cwd := none }) (fun p' ↦ ?_)]
    · exact h₂
    all_goals rcases eq_or_ne p' p with rfl | hp'
    · simp only [proc_setProc_self, hproc₂]
      split <;> rfl
    · simp only [proc_setProc_of_ne hp', hproc₂]
      split <;> rfl
    · simp only [proc_setProc_self, hproc₂]
      split <;> rfl
    · simp only [proc_setProc_of_ne hp', hproc₂]
      split <;> rfl
  · rcases eq_or_ne p' p with rfl | hp'
    · simp only [proc_setProc_self, hproc₂, Proc.WellFormed, reduceCtorEq, if_false]
      split <;> exact ⟨fun fd ↦ hfd fd (List.mem_finRange fd), rfl⟩
    · have := hwf p' hp'
      simp only [proc_setProc_of_ne hp', hproc₂]
      split <;> exact this

theorem step (initproc : Fin NPROC) (c : Fin NPROC × Call Q) (h : Inv A t)
    (hc : ∀ cwd, (t.proc c.1).cwd = some cwd → A.Serves cwd t.tab.fs c.2) :
    Ensures (Inv A) (Error.Outside A.err) (Call.step I initproc c t) := by
  obtain ⟨p, c⟩ := c
  unfold Call.step
  split
  · trivial
  rename_i hlive
  have hp : (t.proc p).state = .live := not_not.mp hlive
  split
  · rename_i hcwd
    have := h.procs p
    rw [Proc.WellFormed, if_pos hp] at this
    exact absurd hcwd this
  rename_i cwd hcwd
  have hserve := hc cwd hcwd
  have hfs := hserve _ h.books.inodes (mem_cwd hcwd _)
  cases c with
  | «open» path omode => exact h.open_ hserve hp hcwd
  | mkdir path => exact h.onFs hfs
  | mknod path major minor => exact h.onFs hfs
  | link old new => exact h.onFs hfs
  | unlink path => exact h.onFs hfs
  | chdir path => exact h.chdir hserve hp hcwd
  | exec path =>
    refine (runTab_ensures (runFs_ensures hfs)).mono ?_
    rintro t' ⟨hproc, s, hs, htab⟩
    exact of_proc hproc h.procs (htab ▸ h.books.setFs hs)
  | close fd => exact h.close _ hp
  | dup fd => exact h.dup _ hp
  | pipe page => exact h.pipe _ hp
  | nicefork kstack copyuvm => exact h.nicefork _ _ hp hcwd
  | exit => exact h.exit initproc hcwd
  | wait => exact h.wait p

theorem run (initproc : Fin NPROC) (calls : List (Fin NPROC × Call Q)) (h : Inv A t)
    (hc : ∀ cwd s (c : Call Q), A.Serves cwd s c) :
    Ensures (Inv A) (Error.Outside A.err) (Lib.Execution.exec (Call.step I initproc) calls t) :=
  Ensures.exec_prefix (fun _ ↦ Inv A) (fun _ c _ _ _ ht ↦ ht.step initproc c fun _ _ ↦ hc _ _ _) h

end Inv

def Ledger.unknown (I : Inodes H S) : Ledger I where
  holds _ _ _ := True
  err _ := True
  idup _ _ := trivial
  iunlock _ := ensures_true _
  iput _ := ensures_true _

theorem Ledger.unknown_serves (cwd : H) (s : S) (c : Call Q) : (Ledger.unknown I).Serves cwd s c := by
  intro n _ _
  cases c with
  | «open» | chdir =>
    refine (ensures_true _).mono fun r _ ↦ ?_
    obtain ⟨_ | _, _⟩ := r <;> trivial
  | _ => first | trivial | exact ensures_true _

/-- The file table agrees with the descriptors, and the pipes agree with the file table. -/
structure FilesExact (t : System H Q S) : Prop where
  ref : ∀ f, (t.tab.file f).ref =
    (Finset.univ.filter fun x : Fin NPROC × Fin NOFILE ↦ (t.proc x.1).ofile x.2 = some f).card
  unused : ∀ f, (t.tab.file f).ref = 0 → (t.tab.file f).type = .FD_NONE
  readopen : ∀ q p, t.tab.pipe q = some p →
    (p.readopen = true ↔ ∃ f, 0 < (t.tab.file f).ref ∧ (t.tab.file f).IsEnd q false)
  writeopen : ∀ q p, t.tab.pipe q = some p →
    (p.writeopen = true ↔ ∃ f, 0 < (t.tab.file f).ref ∧ (t.tab.file f).IsEnd q true)
  unique : ∀ q w f f', (t.tab.file f).IsEnd q w → (t.tab.file f').IsEnd q w → f = f'
  live : ∀ q w f, (t.tab.file f).IsEnd q w → (t.tab.pipe q).isSome
  freed : ∀ q p, t.tab.pipe q = some p → p.readopen = true ∨ p.writeopen = true
  once : ∀ q, t.tab.kallocs q = t.tab.kfrees q + if (t.tab.pipe q).isSome then 1 else 0

theorem count_files (t : System H Q S) (f : Fin NFILE) : t.files.count f =
    (Finset.univ.filter fun x : Fin NPROC × Fin NOFILE ↦ (t.proc x.1).ofile x.2 = some f).card := by
  rw [Finset.card_filter, ← Finset.univ_product_univ, Finset.sum_product, System.files,
    Multiset.count_sum']
  refine Finset.sum_congr rfl fun p _ ↦ ?_
  rw [Proc.files, Multiset.count_sum']
  exact Finset.sum_congr rfl fun fd _ ↦ count_target _ _

theorem Inv.filesExact (h : Inv A t) : FilesExact t := by
  have hend : ∀ q w, (∃ f, 0 < (t.tab.file f).ref ∧ (t.tab.file f).IsEnd q w) ↔
      ∃ f, (t.tab.file f).pipeEnd = some (q, w) := by
    intro q w
    refine exists_congr fun f ↦ ?_
    rw [File.pipeEnd_eq_some, and_iff_right_iff_imp]
    rintro ⟨ht, -⟩
    by_contra hr
    rw [h.books.unused f (by omega)] at ht
    cases ht
  refine ⟨fun f ↦ (h.books.ref f).trans (count_files t f), h.books.unused, fun q p hq ↦ ?_,
    fun q p hq ↦ ?_, fun q w f f' hf hf' ↦ ?_, fun q w f hf ↦ ?_, h.books.pipes.used, h.books.pages⟩
  · rw [hend, h.books.pipes.isOpen]
    simp [hq, Pipe.isOpen]
  · rw [hend, h.books.pipes.isOpen]
    simp [hq, Pipe.isOpen]
  · exact h.books.pipes.unique f f' (q, w) (File.pipeEnd_eq_some.mpr hf) (File.pipeEnd_eq_some.mpr hf')
  · obtain ⟨p, hp, -⟩ := h.books.pipes.pipe_of_end (f := f) (File.pipeEnd_eq_some.mpr hf)
    rw [hp]
    rfl

/-- In every run the reference counts of the files are exact, and every page of a pipe is freed when
its ends are closed, and not again. -/
theorem file_refs_exact [DecidableEq Q] (I : Inodes H S) (initproc : Fin NPROC) (fs : S) (root : H)
    (calls : List (Fin NPROC × Call Q)) :
    Ensures FilesExact (fun e ↦ e ≠ .filedup ∧ e ≠ .fileclose ∧ e ≠ .null ∧ e ≠ .freed)
      (Lib.Execution.exec (Call.step I initproc) calls (boot initproc fs root)) := by
  have hinit : Inv (.unknown I) (boot initproc fs root : System H Q S) := Inv.init initproc trivial
  have hrun := hinit.run initproc calls Ledger.unknown_serves
  refine (hrun.mono fun t ht ↦ ht.filesExact).weaken fun e he ↦ ?_
  cases e <;> simp_all [Error.Outside]

end Xv6Bfs.Files

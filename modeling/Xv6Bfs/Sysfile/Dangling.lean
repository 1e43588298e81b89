import Xv6Bfs.Sysfile.LinkCounts

namespace Xv6Bfs.Sysfile

open Lib.Execution Files Fs

variable {Q : Type} {files : List Name} {d : ℕ} {t t' : Files.System ℕ Q Store}
  {c : Fin NPROC × Files.Call Q} {calls : List (Fin NPROC × Files.Call Q)}

/-- The inodes that a process can get to. -/
inductive Reachable (t : Files.System ℕ Q Store) : ℕ → Prop
  | root : Reachable t ROOTINO
  | cwd {p : Fin NPROC} {i : ℕ} : (t.proc p).cwd = some i → Reachable t i
  | file {f : Fin NFILE} {i : ℕ} : 0 < (t.tab.file f).ref → (t.tab.file f).type = .FD_INODE →
      (t.tab.file f).ip = some i → Reachable t i
  | entry {d : ℕ} {de : Dirent} : Reachable t d → (t.tab.fs.ino d).type = T_DIR →
      de ∈ (t.tab.fs.ino d).entries → de.inum ≠ 0 → Reachable t de.inum

theorem Tree.sound {n : ℕ} {ino : ℕ → Ino} (h : Tree n ino) (hdead : ∀ j, ¬ Dead (ino j)) : Sound ino := by
  intro d hd de hde hne
  have hlive : Live (ino d) := ⟨hd, Nat.pos_of_ne_zero fun hl ↦ hdead d ⟨hd, hl⟩⟩
  rw [(h.dir d hd).entries] at hde
  rcases List.mem_cons.mp hde with rfl | hde
  · exact hlive.type_ne_zero
  rcases List.mem_cons.mp hde with rfl | hde
  · exact (h.up d hlive).type_ne_zero
  · refine h.named d _ hne ?_
    have hpos : 0 < cnt (rest (ino d)) de.inum := List.countP_pos_iff.mpr ⟨de, hde, by simp⟩
    rw [contrib_of_live hlive]
    omega

def UnlinksUnused (c : Fin NPROC × Files.Call Q) (t : Files.System ℕ Q Store) : Prop :=
  ∀ i ∈ unlinks c t, (t.tab.fs.ino i).type = T_DIR → t.tab.fs.ref i = 0

instance (c : Fin NPROC × Files.Call Q) (t : Files.System ℕ Q Store) : Decidable (UnlinksUnused c t) :=
  inferInstanceAs (Decidable (∀ i ∈ unlinks c t, (t.tab.fs.ino i).type = T_DIR → t.tab.fs.ref i = 0))

theorem entered_dir {ino : ℕ → Ino} {cwd : ℕ} {path : Path} (h : entered ino cwd path = some d) :
    (ino d).type = T_DIR := by
  simp only [entered, Option.bind_eq_bind, Option.bind_eq_some_iff] at h
  obtain ⟨⟨dp, name⟩, hres, hd⟩ := h
  obtain ⟨-, rfl⟩ : _ ∧ dp = d := by simpa using hd
  exact resolve_dir hres

theorem makesIn_dir (h : makesIn c t = some d) : (t.tab.fs.ino d).type = T_DIR := by
  simp only [makesIn, Option.bind_eq_bind, Option.bind_eq_some_iff] at h
  obtain ⟨cwd, -, h⟩ := h
  split at h
  · split at h
    · exact entered_dir h
    · cases h
  · exact entered_dir h
  · exact entered_dir h
  · obtain ⟨ip, -, h⟩ := Option.bind_eq_some_iff.mp h
    split at h
    · cases h
    · exact entered_dir h
  · cases h

structure Attached (t : Files.System ℕ Q Store) : Prop where
  consistent : Consistent t
  live : ∀ j, ¬ Dead (t.tab.fs.ino j)

namespace Attached

theorem sound (h : Attached t) : Sound t.tab.fs.ino := by
  obtain ⟨n, hinv, -⟩ := h.consistent.inv
  exact hinv.tree.sound h.live

theorem parentLinked (h : Attached t) (c : Fin NPROC × Files.Call Q) : ParentLinked c t :=
  fun dp hdp hl ↦ h.live dp ⟨makesIn_dir hdp, hl⟩

theorem step [DecidableEq Q] (initproc : Fin NPROC) (h : Attached t) (hc : UnlinksUnused c t)
    (hs : Files.Call.step store initproc c t = .ok t') : Attached t' := by
  obtain ⟨hcons, hdead⟩ := (h.consistent.step initproc c (h.parentLinked c)).of_ok hs
  refine ⟨hcons, fun j hj ↦ ?_⟩
  rcases hdead j hj with hj | ⟨hu, ht, hr⟩
  · exact h.live j hj
  · exact hr.ne' (hc j hu ht)

theorem init (initproc : Fin NPROC) (hfiles : ∀ name ∈ files, name ≠ dot ∧ name ≠ dotdot)
    (hlen : files.length + 2 ≤ NINODES) :
    Attached (boot initproc (mounted files) ROOTINO : Files.System ℕ Q Store) := by
  refine ⟨consistent_boot hfiles hlen initproc, fun j (hj : Dead (mkfs files j)) ↦ ?_⟩
  have hlink : (mkfs files j).nlink = 1 := mkfs_nlink (by rw [hj.1]; decide)
  exact absurd (hlink.symm.trans hj.2) Nat.one_ne_zero

end Attached

/-- In every run in which no directory is unlinked while it is in use, the entries of the directories
that can be reached are inodes that exist, and no lookup ends in the panic of `ilock`. -/
theorem lookup_finds_no_freed_inode [DecidableEq Q] (initproc : Fin NPROC)
    (hfiles : ∀ name ∈ files, name ≠ dot ∧ name ≠ dotdot) (hlen : files.length + 2 ≤ NINODES)
    (hcond : Meets (Files.Call.step store initproc) UnlinksUnused calls
      (boot initproc (mounted files) ROOTINO)) :
    exec (Files.Call.step store initproc) calls (boot initproc (mounted files) ROOTINO) ≠
        .error (.fs .ilockNoType) ∧
      ∀ t, exec (Files.Call.step store initproc) calls (boot initproc (mounted files) ROOTINO) = .ok t →
        (∀ d, Reachable t d → (t.tab.fs.ino d).type = T_DIR → ∀ de ∈ (t.tab.fs.ino d).entries,
          de.inum ≠ 0 → (t.tab.fs.ino de.inum).type ≠ 0) ∧
        ∀ p cwd path parent, (t.proc p).cwd = some cwd →
          namex store cwd path parent t.tab.fs ≠ .error .ilockNoType := by
  have hboot := Attached.init (Q := Q) initproc hfiles hlen
  constructor
  · refine exec_ne_error_of_meets (I := Attached) (fun c t t' h hc hs ↦ h.step initproc hc hs)
      (fun c t h _ hs ↦ ?_) hboot hcond
    exact (h.consistent.step initproc c (h.parentLinked c)).of_error hs rfl h.sound
  · intro t hrun
    have ht : Attached t :=
      exec_invariant_of_meets (I := Attached) (fun c t t' h hc hs ↦ h.step initproc hc hs) hboot hcond hrun
    refine ⟨fun d _ ↦ ht.sound d, fun p cwd path parent hp he ↦ ?_⟩
    obtain ⟨n, hinv, hcwd⟩ := ht.consistent.inv
    exact ((namex_ensures path parent hinv.refs hinv.root (hcwd p cwd hp)).of_error he).2 rfl ht.sound

def removeRun : List (Fin NPROC × Files.Call (Fin 1)) :=
  [(0, .mkdir pathA), (0, .mkdir ⟨[97, 47, 98], by decide⟩), (0, .chdir ⟨[97, 47, 98], by decide⟩),
    (0, .nicefork true true), (1, .chdir ⟨[46, 46], by decide⟩), (0, .chdir ⟨[46, 46], by decide⟩),
    (1, .unlink ⟨[98], by decide⟩)]

theorem removeRun_ensures : Ensures (fun t : Files.System ℕ (Fin 1) Store ↦
    (t.tab.fs.ino 2).type = T_DIR ∧ (t.tab.fs.ino 3).type = 0) (fun _ ↦ False)
    (exec (Files.Call.step store 0) removeRun (boot 0 (mounted []) ROOTINO)) := by
  decide +kernel

theorem removeRun_meets :
    Meets (Files.Call.step store 0) UnlinksUnused removeRun (boot 0 (mounted []) ROOTINO) := by
  decide +kernel

theorem lookup_finds_no_freed_inode_remove :
    ∃ t, exec (Files.Call.step store 0) removeRun (boot 0 (mounted []) ROOTINO) = .ok t ∧
    (t.tab.fs.ino 3).type = 0 ∧ ∀ d, Reachable t d → (t.tab.fs.ino d).type = T_DIR →
      ∀ de ∈ (t.tab.fs.ino d).entries, de.inum ≠ 0 → (t.tab.fs.ino de.inum).type ≠ 0 := by
  obtain ⟨t, ht, -, hfree⟩ := removeRun_ensures.exists_ok
  exact ⟨t, ht, hfree, ((lookup_finds_no_freed_inode 0 (by simp) (by decide) removeRun_meets).2 t ht).1⟩

def strandedRun : List (Fin NPROC × Files.Call (Fin 1)) :=
  [(0, .mkdir pathA), (0, .mkdir ⟨[97, 47, 98], by decide⟩), (0, .chdir ⟨[97, 47, 98], by decide⟩),
    (0, .unlink ⟨[47, 97, 47, 98], by decide⟩), (0, .unlink ⟨[47, 97], by decide⟩)]

theorem strandedRun_ensures : Ensures (fun t : Files.System ℕ (Fin 1) Store ↦
    (t.proc 0).cwd = some 3 ∧ (t.tab.fs.ino 3).type = T_DIR ∧ ⟨2, dotdot⟩ ∈ (t.tab.fs.ino 3).entries ∧
    (t.tab.fs.ino 2).type = 0 ∧ Ensures (fun _ ↦ False) (· = .fs .ilockNoType)
      (Files.Call.step store 0 (0, .chdir ⟨[46, 46], by decide⟩) t))
    (fun _ ↦ False) (exec (Files.Call.step store 0) strandedRun (boot 0 (mounted []) ROOTINO)) := by
  decide +kernel

/-- The current directory has an entry `..` whose inode is free, and `cd ..` ends in the panic. -/
theorem parent_of_removed_directory :
    ∃ t, exec (Files.Call.step store 0) strandedRun (boot 0 (mounted []) ROOTINO) = .ok t ∧
    (∃ d, Reachable t d ∧ (t.tab.fs.ino d).type = T_DIR ∧ ∃ de ∈ (t.tab.fs.ino d).entries,
      de.inum ≠ 0 ∧ (t.tab.fs.ino de.inum).type = 0) ∧
    Files.Call.step store 0 (0, .chdir ⟨[46, 46], by decide⟩) t = .error (.fs .ilockNoType) := by
  obtain ⟨t, ht, hcwd, hdir, hmem, hfree, hstep⟩ := strandedRun_ensures.exists_ok
  obtain ⟨e, he, rfl⟩ := hstep.exists_error
  exact ⟨t, ht, ⟨3, .cwd hcwd, hdir, _, hmem, by decide, hfree⟩, he⟩

end Xv6Bfs.Sysfile

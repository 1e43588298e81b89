import Xv6Bfs.Sysfile.Holders

namespace Xv6Bfs.Sysfile

open Lib.Execution Files Disk Fs Function

variable {files : List Name} {i d : ℕ}

section Boot

theorem cnt_mapIdx (files : List Name) (i : ℕ) :
    cnt (files.mapIdx fun k name ↦ (⟨k + 2, name⟩ : Dirent)) i =
      if 2 ≤ i ∧ i < files.length + 2 then 1 else 0 := by
  induction files using List.reverseRecOn with
  | nil =>
    rw [if_neg (by simp only [List.length_nil]; omega)]
    rfl
  | append_singleton l name ih =>
    rw [List.mapIdx_concat, cnt, List.countP_append, ← cnt, ih]
    simp only [List.countP_singleton, List.length_append, List.length_singleton, decide_eq_true_eq]
    split_ifs <;> omega

theorem rest_root : rest (mkfs files ROOTINO) = (files.mapIdx fun k name ↦ ⟨k + 2, name⟩) ++
    List.replicate ((((files.length + 2) * DIRENT / 512 + 1) * 512) / DIRENT - (files.length + 2))
      emptyEntry := by
  simp [rest, mkfs, rootEntries]

theorem cnt_rest_root (hi : i ≠ 0) :
    cnt (rest (mkfs files ROOTINO)) i = if 2 ≤ i ∧ i < files.length + 2 then 1 else 0 := by
  rw [rest_root, cnt, List.countP_append, ← cnt, cnt_mapIdx]
  simp [List.countP_replicate, emptyEntry, hi.symm]

theorem parentOf_root : parentOf (mkfs files ROOTINO) = ROOTINO := by
  simp [parentOf, mkfs, rootEntries]

theorem live_root : Live (mkfs files ROOTINO) := ⟨rfl, Nat.one_pos⟩

theorem eq_root_of_dir (h : (mkfs files d).type = T_DIR) : d = ROOTINO := by
  by_contra hd
  simp only [mkfs, if_neg hd] at h
  split at h <;> simp [T_FILE, T_DIR] at h

theorem mkfs_type (h : (mkfs files i).type ≠ 0) : i = ROOTINO ∨ 2 ≤ i ∧ i < files.length + 2 := by
  by_contra hi
  simp only [not_or] at hi
  refine h ?_
  rw [mkfs, if_neg hi.1, if_neg fun h ↦ hi.2 ⟨h.1, h.2⟩]

theorem mkfs_contrib (hi : i ≠ 0) (d : ℕ) : contrib (mkfs files d) i =
    if d = ROOTINO ∧ (i = ROOTINO ∨ 2 ≤ i ∧ i < files.length + 2) then 1 else 0 := by
  by_cases hd : d = ROOTINO
  · subst hd
    rw [contrib_of_live live_root, parentOf_root, cnt_rest_root hi]
    by_cases h₁ : i = ROOTINO
    · subst h₁
      simp [ROOTINO]
    · simp [h₁, Ne.symm h₁]
  · rw [contrib_of_not_live fun h ↦ hd (eq_root_of_dir h.1), if_neg fun h ↦ hd h.1]

theorem mkfs_nlink (h : (mkfs files i).type ≠ 0) : (mkfs files i).nlink = 1 := by
  rcases mkfs_type h with rfl | hi
  · rfl
  · have hne : i ≠ ROOTINO := by
      simp only [ROOTINO]
      omega
    rw [mkfs, if_neg hne, if_pos ⟨hi.1, hi.2⟩]

variable (hfiles : ∀ name ∈ files, name ≠ dot ∧ name ≠ dotdot) (hlen : files.length + 2 ≤ NINODES)
include hfiles hlen

theorem tree_mkfs : Tree NINODES (mkfs files) := by
  refine ⟨fun i hi ↦ ?_, ⟨live_root, parentOf_root⟩, fun d hd ↦ ?_, fun i hi ↦ ?_, fun d i hi hc ↦ ?_,
    fun d i hd hl hi ↦ ?_, fun c hc ↦ ?_, fun c d hc hd ↦ ?_⟩
  · rcases mkfs_type hi with rfl | hi
    · decide
    · omega
  · rw [eq_root_of_dir hd]
    refine ⟨?_, by rw [parentOf_root]; decide, ?_⟩
    · rw [rest_root, parentOf_root]
      simp [mkfs, rootEntries]
    intro e he hne
    rw [rest_root, List.mem_append] at he
    rcases he with he | he
    · obtain ⟨k, hk, rfl⟩ := List.mem_mapIdx.mp he
      exact hfiles _ (List.getElem_mem hk)
    · rw [List.eq_of_mem_replicate he] at hne
      exact absurd rfl hne
  · have hi' := mkfs_type hi
    have hi0 : i ≠ 0 := by
      simp only [ROOTINO] at hi'
      omega
    rw [mkfs_nlink hi, Finset.sum_eq_single ROOTINO]
    · rw [mkfs_contrib hi0, if_pos ⟨rfl, hi'⟩]
    · intro d _ hd
      rw [mkfs_contrib hi0, if_neg fun h ↦ hd h.1]
    · exact fun h ↦ absurd (Finset.mem_range.mpr (by decide)) h
  · rw [mkfs_contrib hi] at hc
    have hi' : i = ROOTINO ∨ 2 ≤ i ∧ i < files.length + 2 := by
      by_contra h
      exact hc (if_neg fun h' ↦ h h'.2)
    rcases hi' with rfl | hi'
    · exact live_root.type_ne_zero
    · have hne : i ≠ ROOTINO := by
        simp only [ROOTINO]
        omega
      rw [mkfs, if_neg hne, if_pos ⟨hi'.1, hi'.2⟩]
      decide
  · rw [eq_root_of_dir hd] at hl
    exact absurd hl live_root.2.ne'
  · rw [eq_root_of_dir hc.1, parentOf_root]
    exact live_root
  · rw [eq_root_of_dir hc.1, eq_root_of_dir hd.1, cnt_rest_root (by decide), if_neg (by simp [ROOTINO]),
      if_neg (by simp)]

theorem inv_mounted : Sysfile.Inv (update (fun _ ↦ 0) ROOTINO 1) [] [] (mounted files) := by
  refine ⟨⟨fun j ↦ rfl, fun j ↦ by simp [mounted], .nil, nofun,
    fun j _ hv ↦ by simp [mounted] at hv, fun j hj ↦ ?_, fun j ht hl ↦ ?_⟩, tree_mkfs hfiles hlen,
    (by decide : NINODES ≤ 2 ^ 16), le_rfl, ?_⟩
  · by_cases hj' : j = ROOTINO
    · rw [hj']
      exact live_root.type_ne_zero
    · rw [update_of_ne hj'] at hj
      exact absurd hj (lt_irrefl 0)
  · have : (mkfs files j).nlink = 1 := mkfs_nlink ht
    exact absurd (this.symm.trans hl) Nat.one_ne_zero
  · have hused : (mounted files).used = DIRENT * (mkfs files ROOTINO).entries.length := by
      refine Finset.sum_eq_single ROOTINO (fun d _ hd ↦ ?_) fun h ↦
        absurd (Finset.mem_range.mpr (by decide : ROOTINO < NINODES)) h
      simp only [mounted, mkfs, if_neg hd]
      split <;> rfl
    have hlength : (mkfs files ROOTINO).entries.length ≤ 224 := by
      simp [mkfs, rootEntries, DIRENT, NINODES] at hlen ⊢
      omega
    rw [hused]
    simp only [mounted, FSSIZE, DIRENT, BSIZE]
    omega

theorem consistent_boot {Q : Type} (initproc : Fin NPROC) :
    Consistent (boot initproc (mounted files) ROOTINO : Files.System ℕ Q Store) := by
  refine Files.Inv.init initproc ⟨⟨[], rfl, ?_⟩, fun _ hj ↦ .inl hj⟩
  rw [← Multiset.cons_zero, count_cons_eq]
  simpa only [Multiset.count_zero] using inv_mounted hfiles hlen

end Boot

theorem Inv.links {base : ℕ → ℕ} {s : Store} (h : Sysfile.Inv base [] [] s) (hi : i ≠ 0) :
    ((s.ino i).type ≠ 0 → (s.ino i).nlink = links s.ninodes s.ino i) ∧
      (links s.ninodes s.ino i = 0 → s.ref i = 0 → (s.ino i).type = 0) ∧
      (0 < links s.ninodes s.ino i → (s.ino i).type ≠ 0) := by
  rw [h.tree.links_eq hi]
  refine ⟨h.tree.nlink i, fun hl hr ↦ ?_, fun hl ↦ ?_⟩
  · by_contra ht
    have hpos := (h.refs.orphan i ht ((h.tree.nlink i ht).trans hl)).1
    have := h.refs.ref i
    omega
  · obtain ⟨d, -, hd⟩ := Finset.exists_ne_zero_of_sum_ne_zero hl.ne'
    exact h.tree.named d i hi hd

variable {Q : Type} {t : Files.System ℕ Q Store} {calls : List (Fin NPROC × Files.Call Q)}

def ParentLinked (c : Fin NPROC × Files.Call Q) (t : Files.System ℕ Q Store) : Prop :=
  ∀ dp ∈ makesIn c t, (t.tab.fs.ino dp).nlink ≠ 0

instance (c : Fin NPROC × Files.Call Q) (t : Files.System ℕ Q Store) : Decidable (ParentLinked c t) :=
  inferInstanceAs (Decidable (∀ dp ∈ makesIn c t, (t.tab.fs.ino dp).nlink ≠ 0))

/-- The link counts are exact in every run in which no entry is made in a directory that has been
unlinked. -/
theorem link_counts_exact [DecidableEq Q] (initproc : Fin NPROC)
    (hfiles : ∀ name ∈ files, name ≠ dot ∧ name ≠ dotdot) (hlen : files.length + 2 ≤ NINODES)
    (hcond : Meets (Files.Call.step store initproc) ParentLinked calls (boot initproc (mounted files) ROOTINO))
    (hrun : exec (Files.Call.step store initproc) calls (boot initproc (mounted files) ROOTINO) = .ok t)
    (hi : i ≠ 0) :
    ((t.tab.fs.ino i).type ≠ 0 → (t.tab.fs.ino i).nlink = links t.tab.fs.ninodes t.tab.fs.ino i) ∧
      (links t.tab.fs.ninodes t.tab.fs.ino i = 0 → t.tab.fs.ref i = 0 → (t.tab.fs.ino i).type = 0) ∧
      (0 < links t.tab.fs.ninodes t.tab.fs.ino i → (t.tab.fs.ino i).type ≠ 0) := by
  have hcons : Consistent t := exec_invariant_of_meets
    (fun c t t' h hc hs ↦ ((h.step initproc c hc).of_ok hs).1) (consistent_boot hfiles hlen initproc) hcond hrun
  obtain ⟨n, hinv, -⟩ := hcons.inv
  exact hinv.links hi

def pathA : Path := ⟨[97], by decide⟩

def moveRun : List (Fin NPROC × Files.Call (Fin 1)) :=
  [(0, .mkdir pathA), (0, .open ⟨[97, 47, 102], by decide⟩ O_CREATE),
    (0, .link ⟨[97, 47, 102], by decide⟩ ⟨[103], by decide⟩), (0, .unlink ⟨[97, 47, 102], by decide⟩)]

theorem moveRun_ensures : Ensures (fun t : Files.System ℕ (Fin 1) Store ↦
    (t.tab.fs.ino 3).type ≠ 0 ∧ (t.tab.fs.ino 3).nlink = 1) (fun _ ↦ False)
    (exec (Files.Call.step store 0) moveRun (boot 0 (mounted []) ROOTINO)) := by
  decide +kernel

theorem moveRun_meets :
    Meets (Files.Call.step store 0) ParentLinked moveRun (boot 0 (mounted []) ROOTINO) := by
  decide +kernel

theorem link_counts_exact_move :
    ∃ t, exec (Files.Call.step store 0) moveRun (boot 0 (mounted []) ROOTINO) = .ok t ∧
    (t.tab.fs.ino 3).nlink = 1 ∧ (t.tab.fs.ino 3).nlink = links t.tab.fs.ninodes t.tab.fs.ino 3 := by
  obtain ⟨t, ht, htype, hlink⟩ := moveRun_ensures.exists_ok
  exact ⟨t, ht, hlink,
    (link_counts_exact 0 (by simp) (by decide) moveRun_meets ht (by decide)).1 htype⟩

def orphanRun : List (Fin NPROC × Files.Call (Fin 1)) :=
  [(0, .mkdir pathA), (0, .chdir pathA), (0, .unlink ⟨[46, 46, 47, 97], by decide⟩),
    (0, .open ⟨[102], by decide⟩ O_CREATE)]

theorem orphanRun_ensures : Ensures (fun t : Files.System ℕ (Fin 1) Store ↦ (t.tab.fs.ino 3).type ≠ 0 ∧
    (t.tab.fs.ino 3).nlink = 1 ∧ links t.tab.fs.ninodes t.tab.fs.ino 3 = 0) (fun _ ↦ False)
    (exec (Files.Call.step store 0) orphanRun (boot 0 (mounted []) ROOTINO)) := by
  decide +kernel

/-- The file `f` has a link, and there is no name for it. -/
theorem file_in_removed_directory :
    ∃ t, exec (Files.Call.step store 0) orphanRun (boot 0 (mounted []) ROOTINO) = .ok t ∧
    (t.tab.fs.ino 3).type ≠ 0 ∧ (t.tab.fs.ino 3).nlink = 1 ∧
      links t.tab.fs.ninodes t.tab.fs.ino 3 = 0 :=
  orphanRun_ensures.exists_ok

end Xv6Bfs.Sysfile

import Xv6Bfs.Paths.FailedCalls
import Xv6Bfs.Vm.ProgramImage

namespace Xv6Bfs.Exec

open Lib.Execution Disk Fs Fs.State Sysfile Paths Vm

/-- What stops `exec` in the file system or in the virtual memory. -/
inductive Fault
  | fs (e : Fs.Panic)
  | vm (e : Vm.Panic)
  deriving DecidableEq, Repr

/-- The fields of `struct proc` that `exec` may write, and those for the file system. -/
structure Process extends Task where
  cwd : Fin NINODE
  ofile : Fin NOFILE → Option (Fin NFILE)

/-- The file system, the memory, and how often `begin_op` and `end_op` were called. -/
structure World where
  fs : State
  mem : Mem
  begun : ℕ
  ended : ℕ

def World.beginOp (w : World) : World := { w with begun := w.begun + 1 }

def World.endOp (w : World) : World := { w with ended := w.ended + 1 }

section

variable (sb : Superblock) (devsw : Devsw)

def file (s : State) (k : Fin NINODE) : Vm.Inode where
  readi off n := match s.readi sb devsw k off n with
    | .ok (some l, _) => l.take n
    | _ => []
  readi_le off n := by
    split
    · exact List.length_take_le _ _
    · exact Nat.zero_le n

variable (M : Machine) (data : ℕ)

def freeNew (pgdir : Option Pgdir) (m : Mem) : Except Vm.Panic Mem :=
  match pgdir with
  | none => .ok m
  | some pgdir => pgdir.freevm M m

def bad (pgdir : Option Pgdir) (ip : Option (Fin NINODE)) (p : Process) (w : World) :
    Except Fault (ℤ × Process × World) := do
  let mem ← (freeNew M pgdir w.mem).mapError .vm
  let w := { w with mem }
  match ip with
  | none => .ok (-1, p, w)
  | some ip => do
    let fs ← (iunlockput (Files.icache sb devsw) ip w.fs).mapError .fs
    .ok (-1, p, { w with fs }.endOp)

/-- The part of `exec` after the file has been closed: the stack, and the commit. -/
def execStack (path : Path) (argv : List (List UInt8)) (entry sz : ℕ) (pgdir : Pgdir) (p : Process)
    (w : World) : Except Fault (ℤ × Process × World) := do
  let sz := PGROUNDUP sz
  let (sz, pgdir, mem) ← (pgdir.allocuvm M sz ((sz + 2 * PGSIZE) % 2 ^ 32) w.mem).mapError .vm
  if sz = 0 then bad sb devsw M (some pgdir) none p { w with mem }
  else do
    let pgdir ← (pgdir.clearpteu (sub32 sz (2 * PGSIZE))).mapError .vm
    let (pushed, st) ← (pushStack pgdir sz argv mem).mapError .vm
    if pushed then do
      let mem ← (p.pgdir.freevm M st.mem).mapError .vm
      .ok (0, { p with
        sz, pgdir, name := (lastName path.1 path.1).take 15, eip := entry, esp := st.sp }, { w with mem })
    else bad sb devsw M (some pgdir) none p { w with mem := st.mem }

/-- The part of `exec` that has the inode locked. -/
def execLoad (path : Path) (argv : List (List UInt8)) (ip : Fin NINODE) (p : Process) (w : World) :
    Except Fault (ℤ × Process × World) :=
  let f := file sb devsw w.fs ip
  let l := f.readi 0 sizeofElfhdr
  if l.length ≠ sizeofElfhdr then bad sb devsw M none (some ip) p w
  else
    let elf := elfhdr l
    if elf.magic ≠ ELF_MAGIC then bad sb devsw M none (some ip) p w
    else do
      let (pgdir, mem) ← (Pgdir.setupkvm M data w.mem).mapError .vm
      match pgdir with
      | none => bad sb devsw M none (some ip) p { w with mem }
      | some pgdir => do
        let (sz, pgdir, mem) ← (loadSegments M f elf.phnum elf.phoff 0 pgdir mem).mapError .vm
        match sz with
        | none => bad sb devsw M (some pgdir) (some ip) p { w with mem }
        | some sz => do
          let fs ← (iunlockput (Files.icache sb devsw) ip w.fs).mapError .fs
          execStack sb devsw M path argv elf.entry sz pgdir p { w with fs, mem }.endOp

def exec (path : Path) (argv : List (List UInt8)) (p : Process) (w : World) :
    Except Fault (ℤ × Process × World) := do
  let w := w.beginOp
  let (r, fs) ← (namei (Files.icache sb devsw) p.cwd path w.fs).mapError .fs
  match r with
  | none => .ok (-1, p, { w with fs }.endOp)
  | some (ip, _) => do
    let fs ← (fs.ilock sb ip).mapError .fs
    execLoad sb devsw M data path argv ip p { w with fs }

end

variable {sb : Superblock} {devsw : Devsw} {M : Machine} {data : ℕ} {p p' : Process} {w w' : World}
  {path : Path} {argv : List (List UInt8)} {r : ℤ} {ip : Fin NINODE} {pgdir : Pgdir}

/-- A call is `x` on the memory and `y` on the file system, with `n` calls of `end_op`. -/
structure Splits (x : Except Vm.Panic (ℤ × Task × Mem)) (y : Except Fs.Panic State) (n : ℕ)
    (p : Process) (w : World) (r : ℤ) (p' : Process) (w' : World) : Prop where
  vm : x = .ok (r, p'.toTask, w'.mem)
  process : p' = { p with toTask := p'.toTask }
  fs : y = .ok w'.fs
  begun : w'.begun = w.begun
  ended : w'.ended = w.ended + n

theorem bad_vm (hbad : bad sb devsw M (some pgdir) none p w = .ok (r, p', w')) :
    pgdir.freevm M w.mem = .ok w'.mem ∧ r = -1 ∧ p' = p ∧ w' = { w with mem := w'.mem } := by
  obtain ⟨mem, hfree, hr⟩ := bind_eq_ok.mp hbad
  cases hr
  exact ⟨mapError_eq_ok.mp hfree, rfl, rfl, rfl⟩

def addStack (M : Machine) (entry sz : ℕ) (pgdir : Pgdir) (m : Mem) :
    Except Vm.Panic (Option Vm.Image × Mem) := do
  let sz := PGROUNDUP sz
  let (sz, pgdir, m) ← pgdir.allocuvm M sz ((sz + 2 * PGSIZE) % 2 ^ 32) m
  if sz = 0 then Vm.bad M pgdir m
  else do
    let pgdir ← pgdir.clearpteu (sub32 sz (2 * PGSIZE))
    .ok (some ⟨entry, sz, pgdir⟩, m)

theorem execStack_splits {entry sz : ℕ} {m₀ : Mem} {f : Vm.Inode}
    (hload : loadImage M data f m₀ = addStack M entry sz pgdir w.mem)
    (hexec : execStack sb devsw M path argv entry sz pgdir p w = .ok (r, p', w')) :
    Splits (Vm.exec M data (fun _ ↦ some f) path.1 argv p.toTask m₀) (.ok w.fs) 0 p w r p' w' := by
  rw [Vm.exec]
  dsimp only
  rw [hload, addStack]
  obtain ⟨⟨sz₁, pgdir₁, m₁⟩, halloc, hexec⟩ := bind_eq_ok.mp hexec
  dsimp only at hexec ⊢
  rw [mapError_eq_ok.mp halloc, ok_bind]
  dsimp only
  split at hexec
  · rename_i h0
    obtain ⟨hfree, rfl, rfl, hw⟩ := bad_vm hexec
    dsimp only at hfree
    rw [if_pos h0, Vm.bad, hfree, hw]
    exact ⟨rfl, rfl, rfl, rfl, rfl⟩
  · rename_i h0
    obtain ⟨pgdir₂, hclear, hexec⟩ := bind_eq_ok.mp hexec
    obtain ⟨⟨pushed, st⟩, hpush, hexec⟩ := bind_eq_ok.mp hexec
    rw [if_neg h0, mapError_eq_ok.mp hclear, ok_bind, ok_bind]
    dsimp only
    rw [mapError_eq_ok.mp hpush, ok_bind]
    cases pushed with
    | true =>
      obtain ⟨m₂, hfree, hr⟩ := bind_eq_ok.mp hexec
      cases hr
      dsimp only
      rw [if_pos rfl, mapError_eq_ok.mp hfree]
      exact ⟨rfl, rfl, rfl, rfl, rfl⟩
    | false =>
      rw [if_neg Bool.false_ne_true] at hexec
      obtain ⟨hfree, rfl, rfl, hw⟩ := bad_vm hexec
      dsimp only at hfree ⊢
      rw [if_neg Bool.false_ne_true, hfree, hw]
      exact ⟨rfl, rfl, rfl, rfl, rfl⟩

theorem execLoad_splits (hexec : execLoad sb devsw M data path argv ip p w = .ok (r, p', w')) :
    Splits (Vm.exec M data (fun _ ↦ some (file sb devsw w.fs ip)) path.1 argv p.toTask w.mem)
      (iunlockput (Files.icache sb devsw) ip w.fs) 1 p w r p' w' := by
  -- the label `bad` with the inode
  have hfail {pgdir : Option Pgdir} {m : Mem}
      (hbad : bad sb devsw M pgdir (some ip) p { w with mem := m } = .ok (r, p', w'))
      (hload : loadImage M data (file sb devsw w.fs ip) w.mem = do
        let m ← freeNew M pgdir m
        .ok (none, m)) :
      Splits (Vm.exec M data (fun _ ↦ some (file sb devsw w.fs ip)) path.1 argv p.toTask w.mem)
        (iunlockput (Files.icache sb devsw) ip w.fs) 1 p w r p' w' := by
    obtain ⟨mem, hfree, hbad⟩ := bind_eq_ok.mp hbad
    obtain ⟨fs, hput, hr⟩ := bind_eq_ok.mp hbad
    cases hr
    refine ⟨?_, rfl, mapError_eq_ok.mp hput, rfl, rfl⟩
    rw [Vm.exec]
    dsimp only
    rw [hload, mapError_eq_ok.mp hfree]
    rfl
  rw [execLoad] at hexec
  dsimp only at hexec
  by_cases hlen : ((file sb devsw w.fs ip).readi 0 sizeofElfhdr).length ≠ sizeofElfhdr
  · rw [if_pos hlen] at hexec
    refine hfail hexec ?_
    rw [loadImage]
    dsimp only
    rw [if_pos hlen]
    rfl
  rw [if_neg hlen] at hexec
  by_cases hmagic : (elfhdr ((file sb devsw w.fs ip).readi 0 sizeofElfhdr)).magic ≠ ELF_MAGIC
  · rw [if_pos hmagic] at hexec
    refine hfail hexec ?_
    rw [loadImage]
    dsimp only
    rw [if_neg hlen, if_pos hmagic]
    rfl
  rw [if_neg hmagic] at hexec
  obtain ⟨⟨pgdir, m₁⟩, hsetup, hexec⟩ := bind_eq_ok.mp hexec
  have hstart : loadImage M data (file sb devsw w.fs ip) w.mem = loadImage M data _ w.mem := rfl
  conv_rhs at hstart =>
    rw [loadImage]
    dsimp only
    rw [if_neg hlen, if_neg hmagic, mapError_eq_ok.mp hsetup, ok_bind]
  cases pgdir with
  | none => exact hfail hexec hstart
  | some pgdir =>
    obtain ⟨⟨sz, pgdir₁, m₂⟩, hseg, hexec⟩ := bind_eq_ok.mp hexec
    dsimp only at hstart
    rw [mapError_eq_ok.mp hseg, ok_bind] at hstart
    cases sz with
    | none => exact hfail hexec hstart
    | some sz =>
      obtain ⟨fs, hput, hexec⟩ := bind_eq_ok.mp hexec
      have h : Splits (Vm.exec M data (fun _ ↦ some (file sb devsw w.fs ip)) path.1 argv p.toTask w.mem)
          (.ok fs) 0 p ({ w with fs, mem := m₂ } : World).endOp r p' w' := by
        refine execStack_splits ?_ hexec
        exact hstart
      exact ⟨h.vm, h.process, (mapError_eq_ok.mp hput).trans h.fs, h.begun, h.ended⟩

/-- `exec` does with the inodes what `execInode` does. -/
theorem exec_splits (hexec : exec sb devsw M data path argv p w = .ok (r, p', w')) :
    ∃ find, Splits (Vm.exec M data find path.1 argv p.toTask w.mem)
      (execInode (Files.icache sb devsw) p.cwd path w.fs) 1 p w.beginOp r p' w' := by
  obtain ⟨⟨found, fs⟩, hnamei, hexec⟩ := bind_eq_ok.mp hexec
  rw [execInode, show w.fs = w.beginOp.fs from rfl, mapError_eq_ok.mp hnamei, ok_bind]
  cases found with
  | none =>
    cases hexec
    exact ⟨fun _ ↦ none, rfl, rfl, rfl, rfl, rfl⟩
  | some found =>
    obtain ⟨fs', hlock, hexec⟩ := bind_eq_ok.mp hexec
    obtain ⟨hvm, hprocess, hfs, hbegun, hended⟩ := execLoad_splits hexec
    have hlock : (Files.icache sb devsw).ilock found.1 fs = .ok fs' := mapError_eq_ok.mp hlock
    dsimp only
    rw [hlock, ok_bind]
    exact ⟨_, hvm, hprocess, hfs, hbegun, hended⟩

theorem execInode_borrows {s : State} {cwd : Fin NINODE} (hs : Settled sb s)
    (hcwd : 0 < (s.icache cwd).ref) :
    Ensures (fun s' ↦ Borrows sb s' s [] []) (fun _ ↦ True)
      (execInode (Files.icache sb devsw) cwd path s) := by
  refine (hs.namex hcwd path false).anyError.bind ?_
  rintro ⟨_ | found, fs⟩ hfound
  · exact hfound
  · have hb : Borrows sb fs s [found.1] [] := hfound
    refine (hb.ilock (hb.ref_pos List.mem_cons_self)).anyError.bind fun fs' hlocked ↦ ?_
    exact hlocked.iunlockput.anyError

/-- A call of `exec` that returns -1 leaves the process and the file system as they were, with the same
free pages and the same references, no lock held, and as many calls of `end_op` as of `begin_op`. -/
theorem failed_exec_leaves_no_trace (hs : Settled sb w.fs) (hcwd : 0 < (w.fs.icache p.cwd).ref)
    (hl : Vm.Linked data) (ht : p.pgdir.Kept M w.mem)
    (hexec : exec sb devsw M data path argv p w = .ok (-1, p', w')) :
    p' = p ∧ w'.mem.freelist.Perm w.mem.freelist ∧
      (∀ q, q ∉ w.mem.freelist → w'.mem.phys q = w.mem.phys q) ∧ Paths.Unchanged sb w.fs w'.fs ∧
      w'.begun = w.begun + 1 ∧ w'.ended = w.ended + 1 := by
  obtain ⟨find, hexec⟩ := exec_splits hexec
  have hborrows := (execInode_borrows hs hcwd).of_ok hexec.fs
  rcases (exec_ensures find path.1 argv hl ht).of_ok hexec.vm with ⟨hno, -⟩ | ⟨-, htask, hcons, -⟩
  · cases hno
  refine ⟨?_, List.perm_iff_count.mpr hcons.count, fun q hq ↦ hcons.phys q ?_,
    hs.unchanged hborrows, hexec.begun, hexec.ended⟩
  · have htask : p'.toTask = p.toTask := htask
    rw [hexec.process, htask]
  · rw [List.count_eq_zero.mpr hq]

def smallProcess : Process := { smallTask with cwd := Files.slot0, ofile := fun _ ↦ none }

def twoInodes : Superblock := diskOf 3 (by decide)

theorem one_lt_NINODE : 1 < NINODE := by decide

def slot1 : Fin NINODE := ⟨1, one_lt_NINODE⟩

/-- An ELF header with one program header, which is missing. -/
def truncated : List UInt8 :=
  [127, 69, 76, 70] ++ .replicate 24 0 ++ [52] ++ .replicate 15 0 ++ [1] ++ .replicate 7 0

/-- A file `b` is written into the root directory. -/
def install : List Op :=
  [.dirlink Files.slot0 [98] 2, .iunlock Files.slot0, .ialloc T_FILE, .ilock slot1,
    .setAttrs slot1 0 0 1, .call (.writei slot1 truncated 0), .iunlock slot1, .iput slot1]

def installed : Except Fs.Panic State :=
  Lib.Execution.exec (Op.step twoInodes noDevice) install (smallInode T_DIR)

def slashB : Path := ⟨[47, 98], by decide⟩

theorem installed_ensures : Ensures (fun s ↦ (∀ k, (s.icache k).locked = false) ∧
      (∀ d < 3, (s.dinode twoInodes d).type = T_DIR → DIRENT ∣ (s.files twoInodes d).length ∧
        ∀ de ∈ dirents (s.files twoInodes d), deInum de < 3) ∧
      (∀ d < 3, d ≠ 0 → (s.dinode twoInodes d).nlink ≠ 0) ∧ 0 < (s.icache Files.slot0).ref ∧
      Ensures (fun r ↦ r.1.map Prod.fst = some slot1 ∧ Ensures (fun fs ↦
          (file twoInodes noDevice fs slot1).readi 0 sizeofElfhdr = truncated ∧
          (file twoInodes noDevice fs slot1).readi 52 sizeofProghdr = [] ∧
          Ensures (fun _ ↦ True) (fun _ ↦ False)
            (iunlockput (Files.icache twoInodes noDevice) slot1 fs))
          (fun _ ↦ False) (r.2.ilock twoInodes slot1)) (fun _ ↦ False)
        (namei (Files.icache twoInodes noDevice) Files.slot0 slashB s))
    (fun _ ↦ False) installed := by
  decide +kernel

theorem installed_settled {s : State} (hs : installed = .ok s) : Settled twoInodes s := by
  obtain ⟨hunlocked, hdirs, hnlink, -⟩ := installed_ensures.of_ok hs
  have hlinked {i : ℕ} (hi : i < 3) (h0 : i ≠ 0) : Paths.Linked twoInodes s i :=
    fun _ hno ↦ absurd hno (hnlink i hi h0)
  have hnamed : Meets (Op.step twoInodes noDevice) (Op.Named twoInodes) install (smallInode T_DIR) :=
    ⟨fun e he ↦ absurd he (Nat.not_lt_zero _), fun _ _ ↦ ⟨trivial, fun _ _ ↦ ⟨trivial, fun _ _ ↦
      ⟨trivial, fun _ _ ↦ ⟨trivial, fun _ _ ↦ ⟨trivial, fun _ _ ↦ ⟨trivial, fun _ _ ↦
      ⟨trivial, fun _ _ ↦ trivial⟩⟩⟩⟩⟩⟩⟩⟩
  refine ⟨⟨fun d hd ht ↦ (hdirs d hd ht).1, fun d hd ht ↦ (hdirs d hd ht).2⟩, ?_, hunlocked,
    by decide, hlinked (by decide) (by decide),
    fun d hd ht de hde h0 ↦ hlinked ((hdirs d hd ht).2 de hde) h0⟩
  exact exec_invariant_of_meets (fun op s s' h hn he ↦ (Op.step_ensures h hn).of_ok he)
    (diskOf_consistent (.inr rfl) _ (by decide)) hnamed hs

/-- `exec("/b")`, which fails when the page directory has been made. -/
theorem failed_exec_leaves_no_trace_truncated : ∃ s pgdir m p' w', installed = .ok s ∧
    Pgdir.setupkvm smallMachine smallData manyPages = .ok (some pgdir, m) ∧
      pgdir.page ∈ manyPages.freelist ∧ pgdir.page ∉ m.freelist ∧
    exec twoInodes noDevice smallMachine smallData slashB [] smallProcess ⟨s, manyPages, 0, 0⟩ =
      .ok (-1, p', w') ∧
    p' = smallProcess ∧ w'.mem.freelist.Perm manyPages.freelist ∧ Paths.Unchanged twoInodes s w'.fs ∧
      w'.begun = 1 ∧ w'.ended = 1 := by
  obtain ⟨s, hs, -, -, -, hcwd, hrun⟩ := installed_ensures.exists_ok
  obtain ⟨⟨_, fs₁⟩, hnamei, hip, hrun⟩ := hrun.exists_ok
  obtain ⟨⟨_, buf⟩, rfl, rfl⟩ := Option.map_eq_some_iff.mp hip
  obtain ⟨fs₂, hlock, hheader, hnone, hrun⟩ := hrun.exists_ok
  obtain ⟨fs₃, hput, -⟩ := hrun.exists_ok
  have hplenty : ¬ Short smallMachine manyPages (1 + kernelTables (kmap smallData)) :=
    manyPages_plenty (by decide)
  have ht := smallTask_kept
  generalize manyPages = m₀ at hplenty ht ⊢
  obtain ⟨⟨r, m⟩, hsetup, hcons⟩ := (Pgdir.setupkvm_conserves ht.free linked_small).exists_ok
  have hkernel := (Pgdir.setupkvm_ensures linked_small).of_ok hsetup
  cases r with
  | none => exact absurd hkernel hplenty
  | some pgdir =>
    have hcons : Conserves (fun _ ↦ 0) m₀ pgdir.holds m := hcons
    have hpage : 0 < pgdir.holds pgdir.page := by
      rw [Pgdir.holds, holding_self]
      omega
    obtain ⟨m', hfree, -⟩ :=
      (Pgdir.freevm_ensures (m := m) fun q hq ↦ ht.free q (hcons.mem_of_held hq)).exists_ok
    have hphdrs : loadSegments smallMachine (file twoInodes noDevice fs₂ slot1) 1 52 0 pgdir m =
        .ok (none, pgdir, m) := by
      rw [loadSegments, hnone]
      rfl
    have hload : execLoad twoInodes noDevice smallMachine smallData slashB [] slot1 smallProcess
        ⟨fs₂, m₀, 1, 0⟩ = .ok (-1, smallProcess, ⟨fs₃, m', 1, 1⟩) := by
      rw [execLoad]
      dsimp only
      rw [hheader, if_neg (by decide), if_neg (by decide)]
      refine bind_eq_ok.mpr ⟨_, mapError_eq_ok.mpr hsetup, ?_⟩
      refine bind_eq_ok.mpr ⟨_, mapError_eq_ok.mpr hphdrs, ?_⟩
      refine bind_eq_ok.mpr ⟨m', mapError_eq_ok.mpr hfree, ?_⟩
      exact bind_eq_ok.mpr ⟨fs₃, mapError_eq_ok.mpr hput, rfl⟩
    have hexec : exec twoInodes noDevice smallMachine smallData slashB [] smallProcess
        ⟨s, m₀, 0, 0⟩ = .ok (-1, smallProcess, ⟨fs₃, m', 1, 1⟩) :=
      bind_eq_ok.mpr ⟨_, mapError_eq_ok.mpr hnamei, bind_eq_ok.mpr ⟨fs₂, mapError_eq_ok.mpr hlock, hload⟩⟩
    obtain ⟨hp, hperm, -, hfs, hbegun, hended⟩ :=
      failed_exec_leaves_no_trace (installed_settled hs) hcwd linked_small ht hexec
    exact ⟨s, pgdir, m, _, _, hs, hsetup, hcons.mem_of_held hpage, Pgdir.not_free hcons ht.nodup hpage,
      hexec, hp, hperm, hfs, hbegun, hended⟩

end Xv6Bfs.Exec

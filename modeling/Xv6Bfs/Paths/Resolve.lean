import Xv6Bfs.Paths.Borrows

namespace Xv6Bfs.Paths

open Lib.Execution Disk Fs Fs.State Sysfile Borrows

section

variable (sb : Superblock) (s : State)

def enter (d : ℕ) (name : List UInt8) : Option ℕ :=
  if (s.dinode sb d).type = T_DIR then s.bindings sb d name else none

/-- The inode that is found with one name after the other, from `d` on. -/
def resolve (d : ℕ) (names : List (List UInt8)) : Option ℕ := names.foldlM (enter sb s) d

def resolveParent (d : ℕ) (names : List (List UInt8)) : Option (ℕ × List UInt8) := do
  let name ← names.getLast?
  let dp ← resolve sb s d names.dropLast
  if (s.dinode sb dp).type = T_DIR then some (dp, name) else none

/-- `i` is found with the first of the names. -/
def OnWay (d : ℕ) (names : List (List UInt8)) (i : ℕ) : Prop :=
  ∃ l, l <+: names ∧ resolve sb s d l = some i

def answer (parent : Bool) : (d : ℕ) → List (List UInt8) → Option (ℕ × Option (List UInt8))
  | d, [] => if parent then none else some (d, none)
  | d, name :: names =>
    if (s.dinode sb d).type = T_DIR then
      if parent ∧ names = [] then some (d, some name)
      else (s.bindings sb d name).bind fun d ↦ answer parent d names
    else none

/-- Why a lookup of the names from `d` on ends without a result: the inode cache has no room, another
process holds the lock of an inode on the way, or an inode on the way is free or can be freed. -/
def Stops (d : ℕ) (names : List (List UInt8)) : Panic → Prop
  | .igetNoInodes => ∀ h h', (s.icache h).ref = 0 → (s.icache h').ref = 0 → h = h'
  | .sleeps => ∃ h, (s.icache h).locked = true ∧ OnWay sb s d names (s.icache h).inum
  | .ilockNoType => ∃ i, OnWay sb s d names i ∧ ((s.dinode sb i).type = 0 ∨ ¬ Linked sb s i)
  | _ => False

end

variable {sb : Superblock} {devsw : Devsw} {s s' s₀ : State} {k ip cwd : Fin NINODE} {d : ℕ}
  {name last : List UInt8} {names names' : List (List UInt8)} {l c : List (Fin NINODE)}

theorem answer_false (d : ℕ) (names : List (List UInt8)) :
    answer sb s false d names = (resolve sb s d names).map (·, none) := by
  induction names generalizing d with
  | nil => rfl
  | cons name names ih =>
    rw [answer, resolve, List.foldlM_cons, enter]
    split
    · rw [if_neg (by simp)]
      cases s.bindings sb d name with
      | none => rfl
      | some d' => exact ih d'
    · rfl

theorem resolveParent_cons (d : ℕ) (name name' : List UInt8) (names : List (List UInt8)) :
    resolveParent sb s d (name :: name' :: names) =
      (enter sb s d name).bind fun d ↦ resolveParent sb s d (name' :: names) := by
  have hlast := List.getLast?_eq_some_getLast (List.cons_ne_nil name' names)
  rw [resolveParent, List.getLast?_cons_cons, List.dropLast_cons_cons]
  simp only [resolveParent, hlast, resolve, List.foldlM_cons]
  cases enter sb s d name <;> rfl

theorem answer_true (d : ℕ) (names : List (List UInt8)) :
    answer sb s true d names = (resolveParent sb s d names).map fun x ↦ (x.1, some x.2) := by
  induction names generalizing d with
  | nil => rfl
  | cons name names ih =>
    rw [answer]
    cases names with
    | nil =>
      change _ = (if (s.dinode sb d).type = T_DIR then some (d, name) else none).map _
      split
      · rfl
      · rfl
    | cons name' names =>
      rw [resolveParent_cons, enter]
      split
      · rw [if_neg (by simp)]
        cases s.bindings sb d name with
        | none => rfl
        | some d' => exact ih d'
      · rfl

theorem resolveParent_spec {x : ℕ × List UInt8} (h : resolveParent sb s d names = some x) :
    resolve sb s d names.dropLast = some x.1 ∧ (s.dinode sb x.1).type = T_DIR := by
  unfold resolveParent at h
  obtain ⟨name, -, h⟩ := Option.bind_eq_some_iff.mp h
  obtain ⟨dp, hdp, h⟩ := Option.bind_eq_some_iff.mp h
  split at h
  · rename_i ht
    obtain rfl := Option.some.inj h
    exact ⟨hdp, ht⟩
  · cases h

theorem resolve_eq (d : ℕ) (h : names ≠ []) :
    resolve sb s d names = (resolveParent sb s d names).bind fun x ↦ s.bindings sb x.1 x.2 := by
  have hsplit : resolve sb s d names =
      (resolve sb s d names.dropLast).bind fun dp ↦ enter sb s dp (names.getLast h) := by
    conv_lhs => rw [← List.dropLast_append_getLast h]
    simp only [resolve, List.foldlM_append, List.foldlM_cons, List.foldlM_nil, bind_pure]
    rfl
  rw [hsplit, resolveParent, List.getLast?_eq_some_getLast h]
  cases resolve sb s d names.dropLast with
  | none => rfl
  | some dp =>
    change enter sb s dp _ = (if (s.dinode sb dp).type = T_DIR then some (dp, _) else none).bind _
    rw [enter]
    split
    · rfl
    · rfl

theorem OnWay.self : OnWay sb s d names d := ⟨[], List.nil_prefix, rfl⟩

theorem enter_dir (name : List UInt8) (ht : (s.dinode sb d).type = T_DIR) :
    enter sb s d name = s.bindings sb d name := if_pos ht

theorem Stops.mono {d' : ℕ} {e : Panic}
    (hway : ∀ i, OnWay sb s d' names' i → OnWay sb s d names i) (h : Stops sb s d' names' e) :
    Stops sb s d names e := by
  cases e with
  | igetNoInodes => exact h
  | sleeps => exact h.imp fun k hk ↦ ⟨hk.1, hway _ hk.2⟩
  | ilockNoType => exact h.imp fun i hi ↦ ⟨hway i hi.1, hi.2⟩
  | _ => exact h

theorem OnWay.cons {d' i : ℕ} (henter : enter sb s d name = some d') (h : OnWay sb s d' names i) :
    OnWay sb s d (name :: names) i := by
  obtain ⟨l, hl, hi⟩ := h
  refine ⟨name :: l, List.cons_prefix_cons.mpr ⟨rfl, hl⟩, ?_⟩
  rw [resolve, List.foldlM_cons, henter]
  exact hi

theorem Borrows.stops_locked (h₀ : Consistent sb s₀) (hb : Borrows sb s s₀ l [])
    (hl : (s.icache k).locked = true) :
    Stops sb s₀ (s.icache k).inum names .sleeps := by
  have hlocked := ((hb.locked k).mp hl).resolve_left List.not_mem_nil
  refine ⟨k, hlocked, ?_⟩
  rw [hb.inum k (h₀.locked k hlocked).1]
  exact .self

theorem Borrows.stops_full (hb : Borrows sb s s₀ [ip] c) (hfull : ∀ h, 0 < (s.icache h).ref) :
    Stops sb s₀ d names .igetNoInodes := by
  have hone (h : Fin NINODE) (hr : (s₀.icache h).ref = 0) : h = ip := by
    have hpos := hfull h
    rw [hb.ref, hr, Nat.zero_add, List.count_pos_iff] at hpos
    exact List.mem_singleton.mp hpos
  exact fun h h' hr hr' ↦ (hone h hr).trans (hone h' hr').symm

theorem Borrows.ilock_stops (h₀ : Consistent sb s₀) (hb : Borrows sb s s₀ (k :: l) []) :
    Ensures (fun s' ↦ Borrows sb s' s₀ (k :: l) [k] ∧ Locks sb k true s s')
      (Stops sb s₀ (s.icache k).inum names) (s.ilock sb k) := by
  have hr := hb.ref_pos List.mem_cons_self
  refine ((ilock_ensures hb.consistent hr).weaken fun e he ↦ ?_).mono fun s' h ↦ ⟨hb.locks h, h⟩
  rcases he with ⟨rfl, hl⟩ | ⟨rfl, ht⟩
  · exact hb.stops_locked h₀ hl
  · refine ⟨_, .self, ?_⟩
    rcases hb.disk _ (hb.consistent.inum k hr) with hsame | ⟨-, hlinked⟩
    · exact .inl (hsame ▸ ht)
    · exact .inr hlinked

def number (r : Option (Fin NINODE × Option Name) × State) : Option (ℕ × Option (List UInt8)) :=
  r.1.map fun x ↦ ((r.2.icache x.1).inum, x.2.map Subtype.val)

structure Resolves (sb : Superblock) (s₀ : State) (a : Option (ℕ × Option (List UInt8)))
    (r : Option (Fin NINODE × Option Name) × State) : Prop where
  number : number r = a
  carries : Carries sb s₀ [] [] r

theorem namexLoop_resolves (h₀ : Consistent sb s₀) (hdirs : Directories sb s₀) (parent : Bool)
    {fuel : ℕ} {path : Path} (name : Name) (hfuel : path.1.length < fuel)
    (hb : Borrows sb s s₀ [ip] []) :
    Ensures (fun r ↦ Resolves sb s₀ (answer sb s₀ parent (s.icache ip).inum (components path.1))
        (nameResult parent r)) (Stops sb s₀ (s.icache ip).inum (components path.1))
      (Sysfile.namexLoop (Files.icache sb devsw) parent fuel path name ip s) := by
  induction fuel generalizing path name ip s with
  | zero => exact absurd hfuel (Nat.not_lt_zero _)
  | succ fuel ih =>
    have hlen : (List.replicate DIRSIZ (0 : UInt8)).length = DIRSIZ := List.length_replicate
    rw [Sysfile.namexLoop]
    rcases skipelem_eq path hlen with ⟨h', hnone⟩ | ⟨path', buf, h', hsome, hbuf⟩
    · rw [h', skipelem_none hnone]
      cases parent with
      | false => exact ⟨rfl, hb⟩
      | true =>
        apply (hb.iput.weaken fun e he ↦ ?_).bind
        · intro s₁ h₁
          exact ⟨rfl, h₁⟩
        · rw [he.1]
          exact hb.stops_locked h₀ he.2
    · obtain ⟨hcomp, hlast, hlt, -⟩ := skipelem_some path.2 hlen hsome
      rw [h', hcomp]
      apply (hb.ilock_stops h₀).bind
      rintro s₁ ⟨h₁, hlock⟩
      obtain ⟨-, -, htype⟩ := h₁.toRemains.locked h₀ hlock.self
      rw [hlock.inum] at htype
      rw [answer, htype]
      change Ensures _ _ (if (s₁.icache ip).type ≠ T_DIR then _ else _)
      by_cases ht : (s₁.icache ip).type = T_DIR
      swap
      · rw [if_neg ht, if_pos ht]
        apply (h₁.iunlockput.weaken fun e he ↦ he.elim).bind
        intro s₂ h₂
        exact ⟨rfl, h₂⟩
      rw [if_pos ht, if_neg (not_not.mpr ht)]
      have hend : (parent = true ∧ components path'.1 = []) ↔ (parent = true ∧ path'.1 = []) := by
        rw [hlast]
      by_cases hstop : parent = true ∧ path'.1 = []
      · obtain ⟨s₂, h₂, hunlock, -⟩ := iunlock_ok h₁.consistent hlock.self
        obtain ⟨s₂', h₂', hb₂⟩ := h₁.iunlock
        obtain rfl : s₂' = s₂ := Except.ok.inj (h₂'.symm.trans h₂)
        rw [if_pos (hend.mpr hstop), if_pos hstop]
        change Ensures _ _ (s₁.iunlock ip >>= _)
        rw [h₂, ok_bind]
        refine ⟨?_, hb₂⟩
        simp [nameResult, number, hstop.1, hunlock.inum, hlock.inum, cut]
      · rw [if_neg (mt hend.mp hstop), if_neg hstop]
        apply ((h₁.dirlookup h₀ hdirs List.mem_cons_self ht _).weaken fun e he ↦ ?_).bind
        swap
        · rw [he.1]
          exact h₁.stops_full he.2
        rintro ⟨next, s₂⟩ ⟨h₂, hfound⟩
        rw [hlock.inum, key_name] at hfound
        rw [show s₀.bindings sb (s.icache ip).inum (key buf) = _ from hfound.symm]
        cases next with
        | none =>
          apply ((iunlockput h₂).weaken fun e he ↦ he.elim).bind
          intro s₃ h₃
          exact ⟨rfl, h₃⟩
        | some next =>
          apply ((iunlockput_inum (swap h₂)).weaken fun e he ↦ he.elim).bind
          rintro s₃ ⟨h₃, hinum⟩
          rw [Option.map_some, Option.bind_some, ← hinum]
          rw [Option.map_some, ← hinum] at hfound
          exact (ih (cut buf) (by omega) h₃).weaken fun e he ↦ he.mono fun i hi ↦
            hi.cons ((enter_dir _ (htype.trans ht)).trans hfound.symm)

def start (cwd : Fin NINODE) (path : Path) (s : State) : ℕ :=
  if path.1.head? = some 47 then ROOTINO else (s.icache cwd).inum

theorem namex_resolves (h : Consistent sb s) (hdirs : Directories sb s) (hroot : ROOTINO < sb.ninodes)
    (hcwd : 0 < (s.icache cwd).ref) (path : Path) (parent : Bool) :
    Ensures (fun r ↦ Resolves sb s (answer sb s parent (start cwd path s) (components path.1))
        (nameResult parent r)) (Stops sb s (start cwd path s) (components path.1))
      (Sysfile.namex (Files.icache sb devsw) cwd path parent s) := by
  unfold Sysfile.namex start
  have hs := Borrows.refl h
  by_cases hhead : path.1.head? = some 47
  · rw [if_pos hhead, if_pos hhead]
    apply (iget_ensures.weaken fun e he ↦ ?_).bind
    · rintro ⟨ip, s₁⟩ hg
      rw [← hg.inum]
      exact namexLoop_resolves h hdirs parent dot (Nat.lt_succ_self _) (hs.gets hroot Settled.linkedRoot hg)
    · rw [he.1]
      exact fun h _ hr ↦ absurd hr (he.2 h).ne'
  · rw [if_neg hhead, if_neg hhead]
    have hg := gets_idup hcwd
    rw [← hg.inum]
    exact namexLoop_resolves h hdirs parent dot (Nat.lt_succ_self _) (hs.idup hcwd)

theorem buffer_namex_resolves (h : Consistent sb s) (hdirs : Directories sb s)
    (hroot : ROOTINO < sb.ninodes) (hcwd : 0 < (s.icache cwd).ref) (path : Path)
    (parent : Bool) (hname : name.length = DIRSIZ) :
    Ensures (fun r ↦ Resolves sb s (answer sb s parent (start cwd path s) (components path.1))
        (bufferResult parent r)) (Stops sb s (start cwd path s) (components path.1))
      (namex sb devsw cwd path.1 parent name s) := by
  rw [← Ensures.map_iff (f := bufferResult parent), namex_eq parent cwd path hname, Ensures.map_iff]
  exact namex_resolves h hdirs hroot hcwd path parent

theorem Settled.namex (hs : Settled sb s) (hcwd : 0 < (s.icache cwd).ref)
    (path : Path) (parent : Bool) : Ensures (Carries sb s [] []) (fun _ ↦ True)
      (Sysfile.namex (Files.icache sb devsw) cwd path parent s) := by
  refine ((namex_resolves hs.consistent hs.toDirectories hs.root hcwd path parent).mono ?_).weaken
    fun _ _ ↦ trivial
  rintro ⟨_ | x, s'⟩ hr
  · exact hr.carries
  · exact hr.carries

/-- The directory that `nameiparent` has found is locked and searched for the name in the buffer. -/
theorem ilock_dirlookup (h₀ : Consistent sb s₀)
    (hdirs : Directories sb s₀) (hb : Borrows sb s s₀ [k] [])
    (hparent : resolveParent sb s₀ d names = some ((s.icache k).inum, last)) :
    Ensures (fun r ↦ (r.1.map fun x ↦ (r.2.icache x.1).inum) =
        s₀.bindings sb (s.icache k).inum (key name)) (Stops sb s₀ d names)
      (s.ilock sb k >>= fun s ↦ s.dirlookup sb devsw k name) := by
  obtain ⟨hfound, ht⟩ := resolveParent_spec hparent
  have hway (i : ℕ) : OnWay sb s₀ (s.icache k).inum [] i → OnWay sb s₀ d names i := by
    rintro ⟨l, hl, hi⟩
    rw [List.prefix_nil.mp hl] at hi
    rw [← Option.some.inj hi]
    exact ⟨_, List.dropLast_prefix _, hfound⟩
  apply ((hb.ilock_stops h₀).weaken fun e he ↦ he.mono hway).bind
  rintro s₁ ⟨h₁, hlock⟩
  obtain ⟨-, -, htype⟩ := h₁.toRemains.locked h₀ hlock.self
  rw [hlock.inum, ht] at htype
  refine ((h₁.dirlookup h₀ hdirs List.mem_cons_self htype.symm name).mono fun r hr ↦ ?_).weaken
    fun e he ↦ ?_
  · rw [hr.2, hlock.inum]
  · rw [he.1]
    exact h₁.stops_full he.2

/-- Path resolution goes component by component, whatever the name buffers hold. -/
theorem path_resolution_by_components (h : Consistent sb s) (hdirs : Directories sb s)
    (hroot : ROOTINO < sb.ninodes) {cwd : Fin NINODE} (hcwd : 0 < (s.icache cwd).ref) (path : Path)
    {name : List UInt8} (hname : name.length = DIRSIZ) :
    (∃ l, Skips path.1 name l ∧ l.map (key ·.1) = components path.1 ∧
      ∀ i x, l[i]? = some x → (x.2 = [] ↔ i + 1 = l.length)) ∧
    Ensures (fun r ↦ (r.1.map fun ip ↦ (r.2.2.icache ip).inum) =
        resolve sb s (start cwd path s) (components path.1))
      (Stops sb s (start cwd path s) (components path.1)) (namei sb devsw cwd path.1 name s) ∧
    Ensures (fun r ↦ (r.1.map fun dp ↦ ((r.2.2.icache dp).inum, key r.2.1)) =
          resolveParent sb s (start cwd path s) (components path.1) ∧
        match r.1 with
        | none => components path.1 = [] ∨ resolve sb s (start cwd path s) (components path.1) = none
        | some dp => components path.1 ≠ [] ∧
          Ensures (fun r' ↦ (r'.1.map fun x ↦ (r'.2.icache x.1).inum) =
              resolve sb s (start cwd path s) (components path.1))
            (Stops sb s (start cwd path s) (components path.1))
            (r.2.2.ilock sb dp >>= fun s ↦ s.dirlookup sb devsw dp r.2.1))
      (Stops sb s (start cwd path s) (components path.1)) (nameiparent sb devsw cwd path.1 name s) := by
  refine ⟨skips_components path.2 hname, ?_, ?_⟩
  · refine (buffer_namex_resolves h hdirs hroot hcwd path false hname).mono fun r hres ↦ ?_
    have hnumber := hres.number
    rw [answer_false] at hnumber
    have hfst := congrArg (Option.map Prod.fst) hnumber
    simpa only [number, bufferResult, Option.map_map, Function.comp_def, Option.map_id'] using hfst
  · refine (buffer_namex_resolves h hdirs hroot hcwd path true hname).mono fun r hres ↦ ?_
    have hnumber := hres.number
    rw [answer_true] at hnumber
    obtain ⟨_ | dp, buf, s'⟩ := r
    · have hparent := Option.map_eq_none_iff.mp hnumber.symm
      refine ⟨hparent.symm, ?_⟩
      by_cases hnil : components path.1 = []
      · exact .inl hnil
      · refine .inr ?_
        rw [resolve_eq _ hnil, hparent]
        rfl
    · obtain ⟨⟨d, last⟩, hparent, heq⟩ := Option.map_eq_some_iff.mp hnumber.symm
      obtain ⟨rfl, hlast⟩ := Prod.mk.inj heq
      obtain rfl : last = key buf := Option.some.inj hlast
      have hne : components path.1 ≠ [] := by
        intro hnil
        rw [hnil] at hparent
        cases hparent
      refine ⟨hparent.symm, hne, ?_⟩
      rw [resolve_eq _ hne, hparent, Option.bind_some]
      exact ilock_dirlookup h hdirs hres.carries hparent

def linked : Except Panic State := do
  let (_, s) ← DirOp.run smallDisk noDevice 1 (.link Files.slot0 [97] 1) (smallInode T_DIR)
  s.iunlock Files.slot0

theorem linked_ok : ∃ s, linked = .ok s ∧ Consistent smallDisk s ∧ Directories smallDisk s ∧
    0 < (s.icache Files.slot0).ref ∧ (s.icache Files.slot0).inum = 1 := by
  have hrun : Ensures (fun r ↦ (r.2.dinode smallDisk 0).type = 0 ∧
      (r.2.icache Files.slot0).locked = true ∧ (r.2.icache Files.slot0).inum = 1) (fun _ ↦ False)
      (DirOp.run smallDisk noDevice 1 (.link Files.slot0 [97] 1)
        (smallInode T_DIR)) := by
    decide +kernel
  have hallowed : DirOp.Allowed smallDisk 1 (.link Files.slot0 [97] 1) (smallInode T_DIR) :=
    ⟨by decide, by decide, by decide, .inr (by decide +kernel), by decide +kernel⟩
  obtain ⟨⟨ret, s₁⟩, h₁, hfree, hl, hinum⟩ := hrun.exists_ok
  have hdone := (DirOp.run_ensures (smallInode_consistent (.inr rfl)) smallInode_directory
    hallowed).of_ok h₁
  obtain ⟨s, hs, hlock, -⟩ := iunlock_ok hdone.consistent hl
  have hkeep (d : ℕ) : Keeps smallDisk d s₁ s := .of_cache hlock.cache
  have hone : ∀ d < smallDisk.ninodes, (s.dinode smallDisk d).type = T_DIR → d = 1 := by
    intro d hd ht
    have hd : d < 2 := hd
    rcases d with _ | _ | d
    · rw [(hkeep 0).type, hfree] at ht
      cases ht
    · rfl
    · omega
  refine ⟨s, ?_, hlock.consistent, ⟨fun d hd ht ↦ ?_, fun d hd ht ↦ ?_⟩, ?_, ?_⟩
  · rw [linked, h₁]
    exact hs
  · obtain rfl := hone d hd ht
    rw [(hkeep 1).files]
    exact hdone.directory.size
  · obtain rfl := hone d hd ht
    rw [(hkeep 1).files]
    exact hdone.directory.named
  · rw [hlock.ref]
    exact (hdone.consistent.locked _ hl).1
  · rw [hlock.inum]
    exact hinum

/-- From the root as current directory, `//a/a` is the root, and it is the parent of `a/b`, which does not
exist. -/
theorem path_resolution_by_components_linked : ∃ s r p, linked = .ok s ∧
    namei smallDisk noDevice Files.slot0 [47, 47, 97, 47, 97] (List.replicate DIRSIZ 255) s = .ok r ∧
    (r.1.map fun ip ↦ (r.2.2.icache ip).inum) = some 1 ∧ resolve smallDisk s 1 [[97], [97]] = some 1 ∧
    nameiparent smallDisk noDevice Files.slot0 [97, 47, 98] (List.replicate DIRSIZ 255) s = .ok p ∧
    (p.1.map fun dp ↦ (p.2.2.icache dp).inum) = some 1 ∧
    resolveParent smallDisk s 1 [[97], [98]] = some (1, [98]) := by
  have hrun : Ensures (fun s ↦ Ensures (fun r ↦ (r.1.map fun ip ↦ (r.2.2.icache ip).inum) = some 1)
        (fun _ ↦ False) (namei smallDisk noDevice Files.slot0 [47, 47, 97, 47, 97]
          (List.replicate DIRSIZ 255) s) ∧
      Ensures (fun p ↦ (p.1.map fun dp ↦ (p.2.2.icache dp).inum) = some 1 ∧ key p.2.1 = [98])
        (fun _ ↦ False) (nameiparent smallDisk noDevice Files.slot0 [97, 47, 98]
          (List.replicate DIRSIZ 255) s)) (fun _ ↦ False) linked := by
    decide +kernel
  obtain ⟨s, hs, hok, hdirs, hr, hinum⟩ := linked_ok
  obtain ⟨hnamei, hparent⟩ := hrun.of_ok hs
  obtain ⟨r, hnamei, hnumber⟩ := hnamei.exists_ok
  obtain ⟨p, hparent, hdp, hname⟩ := hparent.exists_ok
  have hres := (path_resolution_by_components hok hdirs (by decide) hr
    ⟨[47, 47, 97, 47, 97], by decide⟩ List.length_replicate).2.1.of_ok hnamei
  have hpar := ((path_resolution_by_components hok hdirs (by decide) hr
    ⟨[97, 47, 98], by decide⟩ List.length_replicate).2.2.of_ok hparent).1
  refine ⟨s, r, p, hs, hnamei, hnumber, hres.symm.trans hnumber, hparent, hdp, ?_⟩
  obtain ⟨dp, hsome, hone⟩ := Option.map_eq_some_iff.mp hdp
  rw [hsome, Option.map_some, hone, hname,
    show start Files.slot0 ⟨[97, 47, 98], by decide⟩ s = 1 from hinum] at hpar
  exact hpar.symm

end Xv6Bfs.Paths

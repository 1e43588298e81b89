import Xv6Bfs.Files.Accounts
import Xv6Bfs.Files.Table
import Xv6Bfs.Lib.FiniteSum
import Mathlib.Algebra.Order.Group.Multiset

namespace Xv6Bfs.Files

open Lib.Execution Lib.FiniteSum Fs Sysfile Function

variable {H Q S R : Type} {I : Inodes H S} {A : Ledger I} {t : Table H Q S}
  {m : Multiset (Fin NFILE)} {n n' k k' : Multiset H} {f f0 f1 : Fin NFILE} {q : Q}

def target {α : Type} : Option α → Multiset α
  | none => 0
  | some a => {a}

theorem count_target {α : Type} [DecidableEq α] (o : Option α) (a : α) :
    (target o).count a = if o = some a then 1 else 0 := by
  cases o with
  | none => simp [target]
  | some b => simp [target, Multiset.count_singleton, eq_comm]

def File.inode (v : File H Q) : Multiset H := if v.type = .FD_INODE then target v.ip else 0

def File.IsEnd (v : File H Q) (q : Q) (writable : Bool) : Prop :=
  v.type = .FD_PIPE ∧ v.pipe = some q ∧ v.writable = writable

def File.pipeEnd (v : File H Q) : Option (Q × Bool) :=
  if v.type = .FD_PIPE then v.pipe.map (·, v.writable) else none

theorem File.inode_of_ne {v : File H Q} (h : v.type ≠ .FD_INODE) : v.inode = 0 := if_neg h

theorem File.pipeEnd_of_ne {v : File H Q} (h : v.type ≠ .FD_PIPE) : v.pipeEnd = none := if_neg h

theorem File.pipeEnd_eq_some {v : File H Q} {w : Bool} :
    v.pipeEnd = some (q, w) ↔ v.IsEnd q w := by
  unfold File.pipeEnd File.IsEnd
  split <;> simp [*]

def Pipe.isOpen (p : Pipe) (writable : Bool) : Bool := if writable then p.writeopen else p.readopen

def Pipe.shut (p : Pipe) (writable : Bool) : Pipe :=
  if writable then { p with writeopen := false } else { p with readopen := false }

structure Pipes (ends : Fin NFILE → Option (Q × Bool)) (pipe : Q → Option Pipe) : Prop where
  isOpen : ∀ q w, (∃ f, ends f = some (q, w)) ↔ ∃ p, pipe q = some p ∧ p.isOpen w = true
  unique : ∀ f f' e, ends f = some e → ends f' = some e → f = f'
  used : ∀ q p, pipe q = some p → p.readopen = true ∨ p.writeopen = true

namespace Pipes

variable {ends : Fin NFILE → Option (Q × Bool)} {pipe : Q → Option Pipe} {w : Bool} {p : Pipe}

theorem pipe_of_end (h : Pipes ends pipe) (hf : ends f = some (q, w)) :
    ∃ p, pipe q = some p ∧ p.isOpen w = true := (h.isOpen q w).mp ⟨f, hf⟩

theorem isOpen_shut (w' : Bool) : (p.shut w).isOpen w' = (p.isOpen w' && w' != w) := by
  cases w <;> cases w' <;> simp [Pipe.shut, Pipe.isOpen]

variable [DecidableEq Q]

theorem add (h : Pipes ends pipe) (h0 : ends f0 = none) (h1 : ends f1 = none) (hne : f0 ≠ f1)
    (hq : pipe q = none) :
    Pipes (update (update ends f0 (some (q, false))) f1 (some (q, true)))
      (update pipe q (some ⟨true, true⟩)) := by
  have hfree : ∀ f w, ends f ≠ some (q, w) := by
    intro f w hf
    obtain ⟨p, hp, -⟩ := (h.isOpen q w).mp ⟨f, hf⟩
    rw [hq] at hp
    cases hp
  refine ⟨fun q' w ↦ ?_, fun f f' e hf hf' ↦ ?_, fun q' p hp ↦ ?_⟩
  · rcases eq_or_ne q' q with rfl | hq'
    · simp only [update_self, Option.some.injEq, exists_eq_left']
      cases w
      · exact iff_of_true ⟨f0, by simp [update_of_ne hne]⟩ rfl
      · exact iff_of_true ⟨f1, by simp⟩ rfl
    · rw [update_of_ne hq', ← h.isOpen]
      constructor
      · rintro ⟨f, hf⟩
        refine ⟨f, ?_⟩
        grind
      · rintro ⟨f, hf⟩
        refine ⟨f, ?_⟩
        grind
  · have := h.unique f f' e
    grind
  · have := h.used q' p
    grind

theorem close (h : Pipes ends pipe) (hf : ends f = some (q, w)) (hp : pipe q = some p) :
    Pipes (update ends f none) (update pipe q
      (if (p.shut w).readopen = false ∧ (p.shut w).writeopen = false then none
        else some (p.shut w))) := by
  have hends : ∀ f' e, update ends f none f' = some e ↔ ends f' = some e ∧ e ≠ (q, w) := by
    intro f' e
    rcases eq_or_ne f' f with rfl | hf'
    · simp [hf]
      exact fun h ↦ h.symm
    · rw [update_of_ne hf', iff_self_and]
      rintro he rfl
      exact hf' (h.unique f' f _ he hf)
  refine ⟨fun q' w' ↦ ?_, fun f₁ f₂ e h₁ h₂ ↦ ?_, fun q' p' hp' ↦ ?_⟩
  · simp only [hends, exists_and_right, h.isOpen]
    rcases eq_or_ne q' q with rfl | hq'
    · have hshut := isOpen_shut (p := p) (w := w) w'
      have hclosed : (p.shut w).readopen = false ∧ (p.shut w).writeopen = false →
          (p.shut w).isOpen w' = false := by
        rintro ⟨hr, hw⟩
        cases w' <;> simp [Pipe.isOpen, hr, hw]
      grind
    · rw [update_of_ne hq']
      simp [hq']
  · exact h.unique f₁ f₂ e ((hends f₁ e).mp h₁).1 ((hends f₂ e).mp h₂).1
  · have := h.used q' p'
    grind

end Pipes

def Error.Outside (err : Panic → Prop) : Error → Prop
  | .fs e => err e
  | .initExiting | .disabled => True
  | _ => False

structure Entries (m : Multiset (Fin NFILE)) (file : Fin NFILE → File H Q) : Prop where
  ref : ∀ f, (file f).ref = m.count f
  unused : ∀ f, (file f).ref = 0 → (file f).type = .FD_NONE
  pipe : ∀ f, (file f).type = .FD_PIPE → (file f).pipe ≠ none
  ip : ∀ f, (file f).type = .FD_INODE → (file f).ip ≠ none

theorem Entries.set {file : Fin NFILE → File H Q} {v : File H Q} {m' : Multiset (Fin NFILE)}
    (h : Entries m file) (hf : v.ref = m'.count f) (hm : ∀ f', f' ≠ f → m'.count f' = m.count f')
    (hunused : v.ref = 0 → v.type = .FD_NONE) (hpipe : v.type = .FD_PIPE → v.pipe ≠ none)
    (hip : v.type = .FD_INODE → v.ip ≠ none) : Entries m' (update file f v) := by
  refine ⟨fun f' ↦ ?_, fun f' ↦ ?_, fun f' ↦ ?_, fun f' ↦ ?_⟩
  all_goals rcases eq_or_ne f' f with rfl | hf'
  · rw [update_self, hf]
  · rw [update_of_ne hf', h.ref, hm f' hf']
  · rwa [update_self]
  · rw [update_of_ne hf']
    exact h.unused f'
  · rwa [update_self]
  · rw [update_of_ne hf']
    exact h.pipe f'
  · rwa [update_self]
  · rw [update_of_ne hf']
    exact h.ip f'

theorem Entries.setEnd {file : Fin NFILE → File H Q} {v : File H Q} {w : Bool} (h : Entries m file)
    (hf : f ∈ m) (href : v.ref = (file f).ref) (he : v.pipeEnd = some (q, w)) :
    Entries m (update file f v) := by
  obtain ⟨ht, hq, -⟩ := File.pipeEnd_eq_some.mp he
  have hpos := Multiset.count_pos.mpr hf
  refine h.set (href.trans (h.ref f)) (fun _ _ ↦ rfl) (fun hr ↦ ?_) (by simp [hq]) (by simp [ht])
  rw [href, h.ref] at hr
  omega

/-- The inodes in memory have the references of the entries and the ones in `n`, and the inodes in
`k` are locked. -/
structure Books (A : Ledger I) (m : Multiset (Fin NFILE)) (n k : Multiset H) (t : Table H Q S) :
    Prop extends Entries m t.file where
  pipes : Pipes (fun f ↦ (t.file f).pipeEnd) t.pipe
  pages : ∀ q, t.kallocs q = t.kfrees q + if (t.pipe q).isSome then 1 else 0
  inodes : A.holds (∑ f, (t.file f).inode + n) k t.fs

theorem runFs_ensures {post : S → Prop} {err : Panic → Prop} {x : S → Except Panic S}
    (h : Ensures post err (x t.fs)) :
    Ensures (fun t' ↦ ∃ s, post s ∧ t' = { t with fs := s }) (Error.Outside err) (t.runFs x) := by
  unfold Table.runFs
  cases hx : x t.fs with
  | error e => exact h.of_error hx
  | ok s => exact ⟨s, h.of_ok hx, rfl⟩

theorem onFs_ensures {post : R × S → Prop} {err : Panic → Prop} {x : S → Except Panic (R × S)}
    (h : Ensures post err (x t.fs)) :
    Ensures (fun r ↦ ∃ s, post (r.1, s) ∧ r.2 = { t with fs := s }) (Error.Outside err) (t.onFs x) := by
  unfold Table.onFs
  cases hx : x t.fs with
  | error e => exact h.of_error hx
  | ok r => exact ⟨r.2, h.of_ok hx, rfl⟩

namespace Books

theorem setFs {s : S} (h : Books A m n k t) (hs : A.holds (∑ f, (t.file f).inode + n') k' s) :
    Books A m n' k' { t with fs := s } :=
  ⟨h.toEntries, h.pipes, h.pages, hs⟩

theorem runFs {x : S → Except Panic S} (h : Books A m n k t)
    (hx : ∀ l s, A.holds (l + n) k s → Ensures (A.holds (l + n') k') A.err (x s)) :
    Ensures (Books A m n' k') (Error.Outside A.err) (t.runFs x) :=
  (runFs_ensures (hx _ _ h.inodes)).mono fun _ ⟨_, hs, ht⟩ ↦ ht ▸ h.setFs hs

theorem iput {ip : H} (h : Books A m (ip ::ₘ n) k t) :
    Ensures (Books A m n k) (Error.Outside A.err) (t.runFs (I.iput ip)) := by
  refine h.runFs fun l s hs ↦ ?_
  rw [Multiset.add_cons] at hs
  exact A.iput hs

theorem pipeEnd_setFile (t : Table H Q S) (f : Fin NFILE) (v : File H Q) :
    (fun f' ↦ ((t.setFile f v).file f').pipeEnd) = update (fun f' ↦ (t.file f').pipeEnd) f v.pipeEnd := by
  funext f'
  rcases eq_or_ne f' f with rfl | hf'
  · simp [Table.setFile]
  · simp [Table.setFile, hf']

theorem pipes_setFile {v : File H Q} (h : Pipes (fun f ↦ (t.file f).pipeEnd) t.pipe)
    (hv : v.pipeEnd = (t.file f).pipeEnd) :
    Pipes (fun f' ↦ ((t.setFile f v).file f').pipeEnd) t.pipe := by
  rw [pipeEnd_setFile, hv]
  exact (update_eq_self f fun f' ↦ (t.file f').pipeEnd).symm ▸ h

theorem sum_inode_setFile (t : Table H Q S) (f : Fin NFILE) (v : File H Q) :
    ∑ f', ((t.setFile f v).file f').inode + (t.file f).inode = ∑ f', (t.file f').inode + v.inode :=
  sum_update_add (Finset.mem_univ f) File.inode t.file v

theorem sum_inode_same {v : File H Q} (hv : v.inode = (t.file f).inode) :
    ∑ f', ((t.setFile f v).file f').inode = ∑ f', (t.file f').inode := by
  have hsum := sum_inode_setFile t f v
  rw [hv] at hsum
  exact add_right_cancel hsum

theorem setRef {r : ℕ} {m' : Multiset (Fin NFILE)} (h : Books A m n k t) (hf : m'.count f = r)
    (hm : ∀ f', f' ≠ f → m'.count f' = m.count f')
    (hr : r = 0 → (t.file f).type = .FD_NONE) :
    Books A m' n k (t.setFile f { t.file f with ref := r }) := by
  refine ⟨h.toEntries.set hf.symm hm hr (h.pipe f) (h.ip f), pipes_setFile h.pipes rfl, h.pages, ?_⟩
  rw [sum_inode_same (v := { t.file f with ref := r }) rfl]
  exact h.inodes

theorem filealloc {t' : Table H Q S} (h : Books A m n k t) (ha : t.filealloc = some (f, t')) :
    f ∉ m ∧ Books A (f ::ₘ m) n k t' ∧ (t'.file f).type = .FD_NONE ∧
      ∀ f', f' ≠ f → t'.file f' = t.file f' := by
  obtain ⟨f', hfind, he⟩ := Option.map_eq_some_iff.mp ha
  cases he
  have hfree : (t.file f).ref = 0 := by simpa using List.find?_some hfind
  have hm : f ∉ m := by
    rw [h.ref] at hfree
    exact Multiset.count_eq_zero.mp hfree
  refine ⟨hm, ?_, ?_, ?_⟩
  · refine h.setRef ?_ ?_ (by simp)
    · rw [Multiset.count_cons_self, Multiset.count_eq_zero_of_notMem hm]
    · intro f' hf'
      exact Multiset.count_cons_of_ne hf' m
  · simp [Table.setFile, h.unused f hfree]
  · intro f' hf'
    simp [Table.setFile, hf']

theorem filedup (h : Books A m n k t) (hf : f ∈ m) :
    Ensures (Books A (f ::ₘ m) n k) (Error.Outside A.err) (t.filedup f) := by
  unfold Table.filedup
  have hpos := Multiset.count_pos.mpr hf
  rw [if_neg (by rw [h.ref]; omega)]
  refine h.setRef ?_ ?_ (by omega)
  · rw [Multiset.count_cons_self, h.ref]
  · intro f' hf'
    exact Multiset.count_cons_of_ne hf' m

def emptied (t : Table H Q S) (f : Fin NFILE) : Table H Q S :=
  t.setFile f { t.file f with ref := 0, type := .FD_NONE }

theorem entries_emptied (h : Entries (f ::ₘ m) t.file) (hf : f ∉ m) : Entries m (emptied t f).file :=
  h.set (Multiset.count_eq_zero_of_notMem hf).symm
    (fun _ hf' ↦ (Multiset.count_cons_of_ne hf' m).symm) (fun _ ↦ rfl) nofun nofun

theorem sum_inode_emptied (t : Table H Q S) (f : Fin NFILE) :
    ∑ f', ((emptied t f).file f').inode + (t.file f).inode = ∑ f', (t.file f').inode :=
  (sum_inode_setFile t f _).trans (by simp [File.inode])

theorem setInode {ip : H} (r w : Bool) (h : Books A m (ip ::ₘ n) k t) (hf : f ∈ m)
    (ht : (t.file f).type = .FD_NONE) :
    Books A m n k (t.setFile f
      { t.file f with type := .FD_INODE, ip := some ip, readable := r, writable := w }) := by
  have hpos := Multiset.count_pos.mpr hf
  have href := h.ref f
  refine ⟨h.toEntries.set (h.ref f) (fun _ _ ↦ rfl) ?_ nofun (fun _ ↦ nofun),
    pipes_setFile h.pipes ?_, h.pages, ?_⟩
  · intro hr
    simp only at hr
    omega
  · rw [File.pipeEnd_of_ne (by simp), File.pipeEnd_of_ne (by simp [ht])]
  · have hsum := sum_inode_setFile t f
      { t.file f with type := .FD_INODE, ip := some ip, readable := r, writable := w }
    rw [File.inode_of_ne (v := t.file f) (by simp [ht]), add_zero] at hsum
    have hinodes := h.inodes
    rw [← Multiset.singleton_add, ← add_assoc] at hinodes
    rw [hsum]
    exact hinodes

variable [DecidableEq Q]

theorem pipeclose_eq {p : Pipe} (w : Bool) (hp : t.pipe q = some p) :
    t.pipeclose q w = .ok { t with
      pipe := update t.pipe q (if (p.shut w).readopen = false ∧ (p.shut w).writeopen = false then none
        else some (p.shut w))
      kfrees := if (p.shut w).readopen = false ∧ (p.shut w).writeopen = false then
        update t.kfrees q (t.kfrees q + 1) else t.kfrees } := by
  unfold Table.pipeclose
  rw [hp]
  change (if (p.shut w).readopen = false ∧ (p.shut w).writeopen = false then _ else _) = _
  split <;> rfl

theorem fileclose_last (href : (t.file f).ref = 1) : t.fileclose I f =
    match (t.file f).type with
    | .FD_NONE => .ok (emptied t f)
    | .FD_PIPE => match (t.file f).pipe with
      | none => .error .null
      | some q => (emptied t f).pipeclose q (t.file f).writable
    | .FD_INODE => match (t.file f).ip with
      | none => .error .null
      | some ip => (emptied t f).runFs (I.iput ip) := by
  unfold Table.fileclose
  dsimp only
  rw [if_neg (by omega), if_neg (by omega)]
  rfl

theorem fileclose (h : Books A (f ::ₘ m) n k t) :
    Ensures (Books A m n k) (Error.Outside A.err) (t.fileclose I f) := by
  have href : (t.file f).ref = m.count f + 1 := by rw [h.ref, Multiset.count_cons_self]
  by_cases hlast : 1 < (t.file f).ref
  · unfold Table.fileclose
    dsimp only
    rw [if_neg (by omega), if_pos (by omega)]
    refine h.setRef (by omega) ?_ (by omega)
    intro f' hf'
    exact (Multiset.count_cons_of_ne hf' m).symm
  have hf : f ∉ m := Multiset.count_eq_zero.mp (by omega)
  have hentries := entries_emptied h.toEntries hf
  have hinodes := h.inodes
  have hends : (fun f' ↦ ((emptied t f).file f').pipeEnd) =
      update (fun f' ↦ (t.file f').pipeEnd) f none := pipeEnd_setFile t f _
  rw [← sum_inode_emptied t f] at hinodes
  rw [fileclose_last (by omega)]
  have hpipes : (t.file f).type ≠ .FD_PIPE →
      Pipes (fun f' ↦ ((emptied t f).file f').pipeEnd) t.pipe := fun ht ↦
    pipes_setFile h.pipes (File.pipeEnd_of_ne ht).symm
  cases ht : (t.file f).type with
  | FD_NONE =>
    rw [File.inode_of_ne (by simp [ht]), add_zero] at hinodes
    exact ⟨hentries, hpipes (by simp [ht]), h.pages, hinodes⟩
  | FD_PIPE =>
    obtain ⟨q, hq⟩ := Option.ne_none_iff_exists'.mp (h.pipe f ht)
    have hend : (t.file f).pipeEnd = some (q, (t.file f).writable) := by simp [File.pipeEnd, ht, hq]
    obtain ⟨p, hp, -⟩ := h.pipes.pipe_of_end (f := f) hend
    rw [File.inode_of_ne (by simp [ht]), add_zero] at hinodes
    simp only [hq]
    rw [pipeclose_eq (t := emptied t f) (p := p) _ hp]
    refine ⟨hentries, hends ▸ h.pipes.close (f := f) hend hp, fun q' ↦ ?_, hinodes⟩
    have := h.pages q'
    simp only [emptied, Table.setFile]
    grind
  | FD_INODE =>
    obtain ⟨ip, hip⟩ := Option.ne_none_iff_exists'.mp (h.ip f ht)
    rw [File.inode, if_pos ht, hip, target, add_right_comm, add_comm, Multiset.singleton_add]
      at hinodes
    simp only [hip]
    refine (runFs_ensures (t := emptied t f) (A.iput hinodes)).mono ?_
    rintro _ ⟨s, hs, rfl⟩
    exact ⟨hentries, hpipes (by simp [ht]), h.pages, hs⟩

def Allocated (A : Ledger I) (m : Multiset (Fin NFILE)) (n k : Multiset H) :
    Option (Fin NFILE × Fin NFILE) × Table H Q S → Prop
  | (some (f0, f1), t) => Books A (f0 ::ₘ f1 ::ₘ m) n k t
  | (none, t) => Books A m n k t

theorem setPipe {v0 v1 : File H Q} (h : Books A m n k t) (h0 : f0 ∈ m) (h1 : f1 ∈ m) (hne : f0 ≠ f1)
    (ht0 : (t.file f0).type = .FD_NONE) (ht1 : (t.file f1).type = .FD_NONE) (hq : t.pipe q = none)
    (href0 : v0.ref = (t.file f0).ref) (href1 : v1.ref = (t.file f1).ref)
    (he0 : v0.pipeEnd = some (q, false)) (he1 : v1.pipeEnd = some (q, true)) :
    Books A m n k (({ t with
      pipe := update t.pipe q (some ⟨true, true⟩)
      kallocs := update t.kallocs q (t.kallocs q + 1) }.setFile f0 v0).setFile f1 v1) := by
  have hfile1 : update t.file f0 v0 f1 = t.file f1 := update_of_ne hne.symm _ _
  refine ⟨(h.toEntries.setEnd h0 href0 he0).setEnd h1 (hfile1 ▸ href1) he1, ?_, fun q' ↦ ?_, ?_⟩
  · rw [pipeEnd_setFile, pipeEnd_setFile, he0, he1]
    exact h.pipes.add (File.pipeEnd_of_ne (by simp [ht0])) (File.pipeEnd_of_ne (by simp [ht1])) hne hq
  · have := h.pages q'
    simp only [Table.setFile]
    grind
  · rw [sum_inode_same, sum_inode_same]
    · exact h.inodes
    · refine (File.inode_of_ne (by simp [(File.pipeEnd_eq_some.mp he0).1])).trans ?_
      exact (File.inode_of_ne (by simp [ht0])).symm
    · refine (File.inode_of_ne (by simp [(File.pipeEnd_eq_some.mp he1).1])).trans ?_
      exact (File.inode_of_ne (by simp [Table.setFile, hfile1, ht1])).symm

theorem pipealloc (page : Option Q) (h : Books A m n k t) :
    Ensures (Allocated A m n k) (Error.Outside A.err) (t.pipealloc I page) := by
  unfold Table.pipealloc
  split
  · exact h
  rename_i f0 t₀ ha₀
  obtain ⟨hm0, h₀, ht0, -⟩ := h.filealloc ha₀
  split
  · exact h₀.fileclose.bind (fun t' ht' ↦ ht')
  rename_i f1 t₁ ha₁
  obtain ⟨hm1, h₁, ht1, hsame⟩ := h₀.filealloc ha₁
  have hne : f0 ≠ f1 := by
    rintro rfl
    exact hm1 (Multiset.mem_cons_self _ _)
  rw [Multiset.cons_swap] at h₁
  split
  · apply h₁.fileclose.bind
    intro t₂ h₂
    exact h₂.fileclose.bind (fun t' ht' ↦ ht')
  rename_i q
  split
  · trivial
  rename_i hq
  have hq : t₁.pipe q = none := by simpa using hq
  refine h₁.setPipe (by simp) (by simp) hne (by rw [hsame f0 hne, ht0]) ht1 hq rfl ?_ rfl ?_
  · simp [Table.setFile, update_of_ne hne.symm]
  · simp [File.pipeEnd]

end Books

end Xv6Bfs.Files

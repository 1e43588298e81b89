import Xv6Bfs.Files.Icache
import Xv6Bfs.Paths.Components
import Mathlib.Data.List.TakeWhile

namespace Xv6Bfs.Paths

open Lib.Execution Disk Fs Sysfile

section

variable (sb : Superblock) (devsw : Devsw)

/-- The loop of `namex`, with the buffer for the name. The path gets shorter in every round. -/
def namexLoop (parent : Bool) : (fuel : ℕ) → (path name : List UInt8) → Fin NINODE → State →
    Except Panic (Option (Fin NINODE) × List UInt8 × State)
  | 0, _, _, _, _ => .error .disabled
  | fuel + 1, path, name, ip, s =>
    match skipelem path name with
    | none =>
      if parent then do
        let s ← s.iput sb ip
        .ok (none, name, s)
      else .ok (some ip, name, s)
    | some (path, name) => do
      let s ← s.ilock sb ip
      if (s.icache ip).type ≠ T_DIR then do
        let s ← iunlockput (Files.icache sb devsw) ip s
        .ok (none, name, s)
      else if parent ∧ path = [] then do
        let s ← s.iunlock ip
        .ok (some ip, name, s)
      else do
        let (next, s) ← s.dirlookup sb devsw ip name
        let s ← iunlockput (Files.icache sb devsw) ip s
        match next with
        | none => .ok (none, name, s)
        | some (next, _) => namexLoop parent fuel path name next s

/-- The inode for a path, or its parent, and what the buffer `name` holds afterwards. -/
def namex (cwd : Fin NINODE) (path : List UInt8) (parent : Bool) (name : List UInt8) (s : State) :
    Except Panic (Option (Fin NINODE) × List UInt8 × State) := do
  let (ip, s) ← if path.head? = some 47 then s.iget ROOTINO else .ok (cwd, s.idup cwd)
  namexLoop sb devsw parent (path.length + 1) path name ip s

/-- `namei`, where `name` is what its buffer holds at first. -/
def namei (cwd : Fin NINODE) (path name : List UInt8) (s : State) :
    Except Panic (Option (Fin NINODE) × List UInt8 × State) := namex sb devsw cwd path false name s

def nameiparent (cwd : Fin NINODE) (path name : List UInt8) (s : State) :
    Except Panic (Option (Fin NINODE) × List UInt8 × State) := namex sb devsw cwd path true name s

end

def cut (name : List UInt8) : Name :=
  ⟨key name, fun h ↦ by simpa using List.all_eq_true.mp List.all_takeWhile 0 (List.mem_of_mem_take h),
    List.length_take_le _ _⟩

def bufferResult (parent : Bool) (r : Option (Fin NINODE) × List UInt8 × State) :
    Option (Fin NINODE × Option Name) × State :=
  (r.1.map fun ip ↦ (ip, if parent then some (cut r.2.1) else none), r.2.2)

def nameResult (parent : Bool) (r : Option (Fin NINODE × Name) × State) :
    Option (Fin NINODE × Option Name) × State :=
  (r.1.map fun x ↦ (x.1, if parent then some x.2 else none), r.2)

variable {sb : Superblock} {devsw : Devsw} {s : State} {k : Fin NINODE}

theorem key_name (name : Name) : key name.1 = name.1 := by
  have hall : ∀ c ∈ name.1, decide (c ≠ 0) = true := fun c hc ↦
    decide_eq_true fun h ↦ name.2.1 (h ▸ hc)
  rw [key, List.takeWhile_eq_self_iff.mpr hall, List.take_of_length_le name.2.2]

theorem dirlookup_congr {name name' : List UInt8} (h : key name = key name') :
    s.dirlookup sb devsw k name = s.dirlookup sb devsw k name' := by
  have hloop (l : List ℕ) (s : State) :
      s.dirlookupLoop sb devsw k name l = s.dirlookupLoop sb devsw k name' l := by
    induction l generalizing s with
    | nil => rfl
    | cons off l ih => simp only [State.dirlookupLoop, namecmp_eq_zero, h, ih]
  rw [State.dirlookup, State.dirlookup, hloop]

theorem skipelem_eq {name : List UInt8} (path : Path) (hname : name.length = DIRSIZ) :
    Sysfile.skipelem path = none ∧ skipelem path.1 name = none ∨
      ∃ path' name', Sysfile.skipelem path = some (cut name', path') ∧
        skipelem path.1 name = some (path'.1, name') ∧ name'.length = DIRSIZ := by
  by_cases hs : path.1.dropWhile isSlash = []
  · exact .inl ⟨by rw [Sysfile.skipelem, if_pos hs], by rw [skipelem, if_pos hs]⟩
  · obtain ⟨r, hr⟩ : ∃ r, skipelem path.1 name = some r := ⟨_, by rw [skipelem, if_neg hs]⟩
    obtain ⟨hcomp, -, -, hsuffix, hname'⟩ := skipelem_some path.2 hname hr
    rw [← components_dropWhile, components_elem hs (head?_dropWhile_slash _)] at hcomp
    have hkey := (List.cons.inj hcomp).1
    have hpath : ((path.1.dropWhile isSlash).dropWhile (!isSlash ·)).dropWhile isSlash = r.1 := by
      rw [skipelem, if_neg hs] at hr
      exact congrArg Prod.fst (Option.some.inj hr)
    refine .inr ⟨⟨r.1, fun h ↦ path.2 (hsuffix.subset h)⟩, r.2, ?_, hr, hname'⟩
    rw [Sysfile.skipelem, if_neg hs]
    exact congrArg some (Prod.ext (Subtype.ext hkey) (Subtype.ext hpath))

theorem namexLoop_eq (parent : Bool) (fuel : ℕ) (path : Path) {name : List UInt8} (name' : Name)
    (hname : name.length = DIRSIZ) (ip : Fin NINODE) (s : State) :
    bufferResult parent <$> namexLoop sb devsw parent fuel path.1 name ip s =
      nameResult parent <$> Sysfile.namexLoop (Files.icache sb devsw) parent fuel path name' ip s := by
  induction fuel generalizing path name name' ip s with
  | zero => rfl
  | succ fuel ih =>
    rw [namexLoop, Sysfile.namexLoop]
    rcases skipelem_eq path hname with ⟨h', h⟩ | ⟨path', buf, h', h, hbuf⟩
    · rw [h, h']
      cases parent with
      | false => rfl
      | true =>
        simp only [if_true, map_bind]
        rfl
    · rw [h, h']
      simp only [map_bind]
      apply bind_congr
      intro s₁
      change bufferResult parent <$> (if (s₁.icache ip).type ≠ T_DIR then _ else _) =
        nameResult parent <$> (if (s₁.icache ip).type ≠ T_DIR then _ else _)
      split
      · simp only [map_bind]
        rfl
      split
      · rename_i hlast
        simp only [map_bind]
        apply bind_congr
        intro s₂
        simp [bufferResult, nameResult, hlast.1]
      · have hlook : (Files.icache sb devsw).dirlookup ip (cut buf) s₁ = s₁.dirlookup sb devsw ip buf :=
          dirlookup_congr (key_name (cut buf))
        rw [hlook]
        simp only [map_bind]
        apply bind_congr
        rintro ⟨next, s₂⟩
        apply bind_congr
        intro s₃
        cases next with
        | none => rfl
        | some next => exact ih path' (cut buf) hbuf next.1 s₃

theorem namex_eq (parent : Bool) (cwd : Fin NINODE) (path : Path) {name : List UInt8}
    (hname : name.length = DIRSIZ) (s : State) :
    bufferResult parent <$> namex sb devsw cwd path.1 parent name s =
      nameResult parent <$> Sysfile.namex (Files.icache sb devsw) cwd path parent s := by
  unfold namex Sysfile.namex
  split
  · simp only [map_bind]
    apply bind_congr
    rintro ⟨ip, s₁⟩
    exact namexLoop_eq parent _ path dot hname ip s₁
  · exact namexLoop_eq parent _ path dot hname cwd _

end Xv6Bfs.Paths

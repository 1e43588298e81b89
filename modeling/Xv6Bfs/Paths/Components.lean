import Xv6Bfs.Fs.Dirents
import Xv6Bfs.Sysfile.Calls

namespace Xv6Bfs.Paths

open Fs Sysfile

def memmove (dst src : List UInt8) (n : ℕ) : List UInt8 := src.take n ++ dst.drop n

/-- `path` are the bytes of a string, and `name` those of the buffer. The result is the rest of the
path and what the buffer holds afterwards, or nothing for 0. -/
def skipelem (path name : List UInt8) : Option (List UInt8 × List UInt8) :=
  let s := path.dropWhile isSlash
  if s = [] then none
  else
    let path := s.dropWhile (!isSlash ·)
    let len := s.length - path.length
    let name :=
      if len ≥ DIRSIZ then memmove name s DIRSIZ
      else (memmove name s len).set len 0
    some (path.dropWhile isSlash, name)

/-- The calls of `skipelem` in a row, up to the one that returns 0: what the buffer holds and the
rest of the path after each of them. -/
inductive Skips : (path name : List UInt8) → List (List UInt8 × List UInt8) → Prop
  | stop {path name : List UInt8} (h : skipelem path name = none) : Skips path name []
  | next {path name path' name' : List UInt8} {l : List (List UInt8 × List UInt8)}
      (h : skipelem path name = some (path', name')) (hl : Skips path' name' l) :
      Skips path name ((name', path') :: l)

def components (path : List UInt8) : List (List UInt8) :=
  ((path.splitOn 47).filter (· ≠ [])).map (·.take DIRSIZ)

section

variable {path name : List UInt8}

theorem components_eq (path : List UInt8) :
    components path = ((path.splitOnP isSlash).filter (· ≠ [])).map (·.take DIRSIZ) := rfl

theorem components_nil : components [] = [] := rfl

theorem components_slash (path : List UInt8) : components (47 :: path) = components path := by
  have hslash : isSlash 47 = true := rfl
  rw [components_eq, components_eq, List.splitOnP_cons_eq_if_modifyHead, if_pos hslash,
    List.filter_cons_of_neg (by simp)]

theorem components_dropWhile (path : List UInt8) :
    components (path.dropWhile isSlash) = components path := by
  induction path with
  | nil => rfl
  | cons c path ih =>
    by_cases hc : isSlash c = true
    · obtain rfl : c = 47 := by simpa [isSlash] using hc
      rw [List.dropWhile_cons_of_pos hc, ih, components_slash]
    · rw [List.dropWhile_cons_of_neg hc]

theorem head?_dropWhile_slash (path : List UInt8) : (path.dropWhile isSlash).head? ≠ some 47 := by
  intro h
  have := List.head?_dropWhile_not isSlash path
  rw [h] at this
  cases this

theorem elem_ne_nil (hne : path ≠ []) (hhead : path.head? ≠ some 47) :
    path.takeWhile (!isSlash ·) ≠ [] := by
  cases path with
  | nil => exact absurd rfl hne
  | cons c path =>
    have hc : (!isSlash c) = true := by simpa [isSlash] using hhead
    rw [List.takeWhile_cons_of_pos (p := (!isSlash ·)) hc]
    nofun

theorem components_elem (hne : path ≠ []) (hhead : path.head? ≠ some 47) :
    components path = (path.takeWhile (!isSlash ·)).take DIRSIZ ::
      components (path.dropWhile (!isSlash ·)) := by
  have hkeep := decide_eq_true (elem_ne_nil hne hhead)
  have hno : ∀ c ∈ path.takeWhile (!isSlash ·), isSlash c = false := by
    intro c hc
    simpa using List.all_eq_true.mp List.all_takeWhile c hc
  have hsplit := List.takeWhile_append_dropWhile (p := (!isSlash ·)) (l := path)
  have hrest := List.head?_dropWhile_not (!isSlash ·) path
  generalize path.takeWhile (!isSlash ·) = elem at *
  generalize path.dropWhile (!isSlash ·) = rest at *
  rw [← hsplit, components_eq]
  cases rest with
  | nil =>
    rw [List.append_nil, List.splitOnP_eq_singleton hno,
      List.filter_cons_of_pos (p := (decide <| · ≠ [])) hkeep]
    rfl
  | cons c rest =>
    obtain rfl : c = 47 := by simpa [isSlash] using hrest
    rw [List.splitOnP_append_cons_of_forall_mem hno 47 rfl,
      List.filter_cons_of_pos (p := (decide <| · ≠ [])) hkeep, components_slash]
    rfl

theorem components_eq_nil (h : path.head? ≠ some 47) : components path = [] ↔ path = [] := by
  constructor
  · intro hnil
    by_contra hne
    rw [components_elem hne h] at hnil
    cases hnil
  · rintro rfl
    exact components_nil

theorem key_append_zero {l : List UInt8} (h0 : 0 ∉ l) (r : List UInt8) :
    key (l ++ 0 :: r) = l.take DIRSIZ := by
  have hall : ∀ c ∈ l, decide (c ≠ 0) = true := fun c hc ↦
    decide_eq_true fun h ↦ h0 (h ▸ hc)
  rw [key, List.takeWhile_append_of_pos hall, List.takeWhile_cons_of_neg (by simp), List.append_nil]

theorem key_append_full {l : List UInt8} (h0 : 0 ∉ l) (hl : l.length = DIRSIZ) (r : List UInt8) :
    key (l ++ r) = l := by
  have hall : ∀ c ∈ l, decide (c ≠ 0) = true := fun c hc ↦
    decide_eq_true fun h ↦ h0 (h ▸ hc)
  rw [key, List.takeWhile_append_of_pos hall, ← hl, List.take_left]

theorem key_copied {elem rest : List UInt8} (h0 : 0 ∉ elem) (hname : name.length = DIRSIZ) :
    let name' := if elem.length ≥ DIRSIZ then memmove name (elem ++ rest) DIRSIZ
      else (memmove name (elem ++ rest) elem.length).set elem.length 0
    key name' = elem.take DIRSIZ ∧ name'.length = DIRSIZ := by
  dsimp only
  split
  · rename_i hlen
    have htake : (elem ++ rest).take DIRSIZ = elem.take DIRSIZ := List.take_append_of_le_length hlen
    have hfull : (elem.take DIRSIZ).length = DIRSIZ := List.length_take_of_le hlen
    rw [memmove, htake]
    exact ⟨key_append_full (fun h ↦ h0 (List.mem_of_mem_take h)) hfull _, by simp [hname, hfull]⟩
  · rename_i hlen
    have hcut : (memmove name (elem ++ rest) elem.length).set elem.length 0 =
        elem ++ 0 :: name.drop (elem.length + 1) := by
      rw [memmove, List.take_left, List.set_append_right _ _ (Nat.le_refl _), Nat.sub_self,
        List.drop_eq_getElem_cons (by omega), List.set_cons_zero]
    rw [hcut]
    exact ⟨key_append_zero h0 _, by simp; omega⟩

theorem skipelem_none (h : skipelem path name = none) : components path = [] := by
  rw [← components_dropWhile, components_eq_nil (head?_dropWhile_slash path)]
  by_contra hne
  rw [skipelem, if_neg hne] at h
  cases h

theorem skipelem_some {path' name' : List UInt8} (h0 : 0 ∉ path) (hname : name.length = DIRSIZ)
    (h : skipelem path name = some (path', name')) :
    components path = key name' :: components path' ∧ (components path' = [] ↔ path' = []) ∧
      path'.length < path.length ∧ path' <:+ path ∧ name'.length = DIRSIZ := by
  rw [skipelem] at h
  split at h
  · cases h
  rename_i hne
  obtain ⟨rfl, rfl⟩ := Prod.mk.inj (Option.some.inj h)
  have hsuffix : path.dropWhile isSlash <:+ path := List.dropWhile_suffix _
  have hhead := head?_dropWhile_slash path
  have hcomp := components_dropWhile path
  generalize path.dropWhile isSlash = s at *
  have hsplit := List.takeWhile_append_dropWhile (p := (!isSlash ·)) (l := s)
  have hlen : s.length - (s.dropWhile (!isSlash ·)).length = (s.takeWhile (!isSlash ·)).length := by
    have := congrArg List.length hsplit
    rw [List.length_append] at this
    omega
  have helem := components_elem hne hhead
  have h0elem : 0 ∉ s.takeWhile (!isSlash ·) := fun h ↦
    h0 (hsuffix.subset ((List.takeWhile_sublist _).subset h))
  obtain ⟨hkey, hname'⟩ := @key_copied name (s.takeWhile (!isSlash ·)) (s.dropWhile (!isSlash ·))
    h0elem hname
  rw [hsplit, ← hlen] at hkey hname'
  have hrest : s.dropWhile (!isSlash ·) <:+ s := List.dropWhile_suffix _
  have hslash := List.dropWhile_suffix (l := s.dropWhile (!isSlash ·)) isSlash
  refine ⟨?_, components_eq_nil (head?_dropWhile_slash _), ?_, (hslash.trans hrest).trans hsuffix, hname'⟩
  · rw [hkey, components_dropWhile, ← hcomp, helem]
  · have hpos := List.length_pos_iff.mpr (elem_ne_nil hne hhead)
    have := hslash.length_le
    have := hsuffix.length_le
    have := congrArg List.length hsplit
    rw [List.length_append] at this
    omega

theorem skips_components (h0 : 0 ∉ path) (hname : name.length = DIRSIZ) :
    ∃ l, Skips path name l ∧ l.map (key ·.1) = components path ∧
      ∀ i x, l[i]? = some x → (x.2 = [] ↔ i + 1 = l.length) := by
  induction hn : path.length using Nat.strong_induction_on generalizing path name with
  | _ n ih =>
    subst hn
    cases hskip : skipelem path name with
    | none => exact ⟨[], .stop hskip, (skipelem_none hskip).symm, by simp⟩
    | some r =>
      obtain ⟨path', name'⟩ := r
      obtain ⟨hcomp, hnil, hlt, hsuf, hname'⟩ := skipelem_some h0 hname hskip
      obtain ⟨l, hl, hmap, hlast⟩ := ih _ hlt (fun h ↦ h0 (hsuf.subset h)) hname' rfl
      refine ⟨(name', path') :: l, .next hskip hl, by rw [List.map_cons, hmap, hcomp], ?_⟩
      rintro (_ | i) x hx
      · obtain rfl := Option.some.inj hx
        rw [← hnil, ← hmap]
        simp
      · rw [hlast i x hx]
        simp

end

end Xv6Bfs.Paths

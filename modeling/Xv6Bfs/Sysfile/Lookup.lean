import Xv6Bfs.Sysfile.Links
import Mathlib.Data.List.Count

namespace Xv6Bfs.Sysfile

open Lib.Execution Fs Function

/-- The references are those of `base`, to inodes that exist, and the ones in `l`. The inodes in `k`
are locked. An inode without a link is one of `base`. -/
structure Refs (base : ℕ → ℕ) (l k : List ℕ) (s : Store) : Prop where
  ref : ∀ j, s.ref j = base j + l.count j
  locked : ∀ j, s.locked j = true ↔ j ∈ k
  nodup : k.Nodup
  lock : ∀ j ∈ k, 0 < s.ref j ∧ s.valid j = true
  valid : ∀ j, 0 < s.ref j → s.valid j = true → (s.ino j).type ≠ 0
  held : ∀ j, 0 < base j → (s.ino j).type ≠ 0
  orphan : ∀ j, (s.ino j).type ≠ 0 → (s.ino j).nlink = 0 → 0 < base j ∧ s.valid j = true

structure Same (s s' : Store) : Prop where
  size : s'.size = s.size
  ninodes : s'.ninodes = s.ninodes
  ino : s'.ino = s.ino

def Sound (ino : ℕ → Ino) : Prop :=
  ∀ d, (ino d).type = T_DIR → ∀ de ∈ (ino d).entries, de.inum ≠ 0 → (ino de.inum).type ≠ 0

def Fails (ino : ℕ → Ino) (e : Panic) : Prop := e ≠ .disabled ∧ (e = .ilockNoType → ¬ Sound ino)

variable {base : ℕ → ℕ} {l k : List ℕ} {s s' s'' : Store} {x : ℕ}

theorem Same.refl (s : Store) : Same s s := ⟨rfl, rfl, rfl⟩

theorem Same.trans (h : Same s s') (h' : Same s' s'') : Same s s'' :=
  ⟨h'.size.trans h.size, h'.ninodes.trans h.ninodes, h'.ino.trans h.ino⟩

theorem update_succ (f : ℕ → ℕ) (x j : ℕ) : update f x (f x + 1) j = f j + if x == j then 1 else 0 := by
  by_cases hj : j = x
  · subst hj
    simp
  · simp [hj, Ne.symm hj]

theorem update_pred {f : ℕ → ℕ} (hx : 0 < f x) (j : ℕ) :
    update f x (f x - 1) j + (if x == j then 1 else 0) = f j := by
  by_cases hj : j = x
  · subst hj
    simp
    omega
  · simp [hj, Ne.symm hj]

namespace Refs

theorem perm {l' k' : List ℕ} (h : Refs base l k s) (hl : l.Perm l') (hk : k.Perm k') :
    Refs base l' k' s where
  ref j := by rw [h.ref, hl.count_eq]
  locked j := by rw [h.locked, hk.mem_iff]
  nodup := hk.nodup_iff.mp h.nodup
  lock j hj := h.lock j (hk.mem_iff.mpr hj)
  valid := h.valid
  held := h.held
  orphan := h.orphan

theorem ref_cons (h : Refs base l k s) (x j : ℕ) :
    update s.ref x (s.ref x + 1) j = base j + (x :: l).count j := by
  rw [update_succ, h.ref, List.count_cons, Nat.add_assoc]

theorem iget (h : Refs base l k s) (x : ℕ) :
    ∃ s', s.iget x = .ok (x, s') ∧ Refs base (x :: l) k s' ∧ Same s s' := by
  refine ⟨_, rfl, ?_, rfl, rfl, rfl⟩
  have hvalid : ∀ j, 0 < s.ref j →
      (if s.ref x = 0 then update s.valid x false else s.valid) j = s.valid j := by
    intro j hj
    split
    · exact update_of_ne (by rintro rfl; omega) _ _
    · rfl
  refine ⟨h.ref_cons x, h.locked, h.nodup, fun j hj ↦ ?_, fun j hj hv ↦ ?_, h.held, fun j ht hl ↦ ?_⟩
  · obtain ⟨href, hv⟩ := h.lock j hj
    exact ⟨by simp only [update_succ]; omega, (hvalid j href).trans hv⟩
  · by_cases href : 0 < s.ref j
    · exact h.valid j href ((hvalid j href).symm.trans hv)
    · have hjx : j = x := by
        by_contra hjx
        simp only [update_of_ne hjx] at hj
        exact href hj
      subst hjx
      simp [show s.ref j = 0 by omega] at hv
  · obtain ⟨hb, hv⟩ := h.orphan j ht hl
    exact ⟨hb, (hvalid j (by rw [h.ref]; omega)).trans hv⟩

theorem idup (h : Refs base l k s) (hx : 0 < base x) : Refs base (x :: l) k (s.idup x) := by
  refine ⟨h.ref_cons x, h.locked, h.nodup, fun j hj ↦ ?_, fun j hj hv ↦ ?_, h.held, h.orphan⟩
  · obtain ⟨href, hv⟩ := h.lock j hj
    exact ⟨by simp only [Store.idup, update_succ]; omega, hv⟩
  · refine h.valid j ?_ hv
    have := h.ref j
    by_cases hjx : j = x
    · subst hjx
      omega
    · simpa only [Store.idup, update_of_ne hjx] using hj

theorem ilock (h : Refs base l k s) (hx : x ∈ l) {ino : ℕ → Ino}
    (hsound : Sound ino → (s.ino x).type ≠ 0) :
    Ensures (fun s' ↦ Refs base l (x :: k) s' ∧ Same s s' ∧ (s.ino x).type ≠ 0 ∧ x ∉ k) (Fails ino)
      (s.ilock x) := by
  replace hx : 0 < s.ref x := by
    rw [h.ref]
    exact Nat.add_pos_right _ (List.count_pos_iff.mpr hx)
  unfold Store.ilock
  rw [if_neg (by omega)]
  split
  · exact ⟨by decide, nofun⟩
  rename_i hlock
  have hk : x ∉ k := fun hk ↦ hlock ((h.locked x).mpr hk)
  have hlocked : ∀ j, update s.locked x true j = true ↔ j ∈ x :: k := by
    intro j
    rw [List.mem_cons, ← h.locked, update_apply]
    split <;> simp_all
  split
  · rename_i hv
    refine ⟨⟨h.ref, hlocked, List.nodup_cons.mpr ⟨hk, h.nodup⟩, ?_, h.valid, h.held, h.orphan⟩,
      ⟨rfl, rfl, rfl⟩, h.valid x hx hv, hk⟩
    intro j hj
    rcases List.mem_cons.mp hj with rfl | hj
    · exact ⟨hx, hv⟩
    · exact h.lock j hj
  · split
    · rename_i ht
      exact ⟨by decide, fun _ hs ↦ hsound hs ht⟩
    · rename_i ht
      have hvalid : ∀ j, s.valid j = true → update s.valid x true j = true := by
        intro j hj
        rw [update_apply]
        split <;> simp_all
      refine ⟨⟨h.ref, hlocked, List.nodup_cons.mpr ⟨hk, h.nodup⟩, ?_, ?_, h.held, ?_⟩,
        ⟨rfl, rfl, rfl⟩, ht, hk⟩
      · intro j hj
        rcases List.mem_cons.mp hj with rfl | hj
        · exact ⟨hx, update_self ..⟩
        · exact ⟨(h.lock j hj).1, hvalid j (h.lock j hj).2⟩
      · intro j hj hv
        by_cases hjx : j = x
        · exact hjx ▸ ht
        · exact h.valid j hj ((update_of_ne hjx _ _).symm.trans hv)
      · intro j ht hl
        exact ⟨(h.orphan j ht hl).1, hvalid j (h.orphan j ht hl).2⟩

theorem iunlock (h : Refs base l (x :: k) s) :
    ∃ s', s.iunlock x = .ok s' ∧ Refs base l k s' ∧ Same s s' := by
  have hx := h.lock x List.mem_cons_self
  have hlock := (h.locked x).mpr List.mem_cons_self
  have hk := (List.nodup_cons.mp h.nodup).1
  unfold Store.iunlock
  rw [if_neg (by simp [hlock]; omega)]
  refine ⟨_, rfl, ⟨h.ref, fun j ↦ ?_, (List.nodup_cons.mp h.nodup).2,
    fun j hj ↦ h.lock j (List.mem_cons_of_mem _ hj), h.valid, h.held, h.orphan⟩, rfl, rfl, rfl⟩
  have := h.locked j
  rw [List.mem_cons] at this
  simp only [update_apply]
  split <;> simp_all

theorem iput (h : Refs base (x :: l) k s) (hk : x ∉ k) :
    ∃ s', s.iput x = .ok s' ∧ Refs base l k s' ∧ Same s s' := by
  have hlock : s.locked x = false := by
    rw [← Bool.not_eq_true, h.locked]
    exact hk
  have href := h.ref x
  rw [List.count_cons_self] at href
  -- Somebody else has a reference too, if there is no link left.
  have hkeep : ¬ (s.valid x = true ∧ (s.ino x).nlink = 0 ∧ s.ref x = 1) := by
    rintro ⟨hv, hl, hr⟩
    have := (h.orphan x (h.valid x (by omega) hv) hl).1
    omega
  refine ⟨{ s with ref := update s.ref x (s.ref x - 1) }, ?_, ⟨fun j ↦ ?_, h.locked, h.nodup, fun j hj ↦ ?_,
    fun j hj hv ↦ ?_, h.held, h.orphan⟩, rfl, rfl, rfl⟩
  · simp [Store.iput, hlock, hkeep]
  · have := h.ref j
    rw [List.count_cons, ← update_pred (show 0 < s.ref x by omega) j] at this
    exact Nat.add_right_cancel (this.trans (Nat.add_assoc _ _ _).symm)
  · have hjx : j ≠ x := by
      rintro rfl
      exact hk hj
    simpa only [update_of_ne hjx] using h.lock j hj
  · refine h.valid j ?_ hv
    simp only [update_apply] at hj
    split at hj
    · rename_i hjx
      subst hjx
      omega
    · exact hj

theorem iunlockput (h : Refs base (x :: l) (x :: k) s) :
    ∃ s', iunlockput store x s = .ok s' ∧ Refs base l k s' ∧ Same s s' := by
  obtain ⟨s₁, h₁, hr₁, hs₁⟩ := h.iunlock
  obtain ⟨s₂, h₂, hr₂, hs₂⟩ := hr₁.iput (List.nodup_cons.mp h.nodup).1
  refine ⟨s₂, ?_, hr₂, hs₁.trans hs₂⟩
  simp only [Sysfile.iunlockput, store, h₁, ok_bind, h₂]

theorem promote (h : Refs base (x :: l) k s) (hx : (s.ino x).type ≠ 0) :
    Refs (update base x (base x + 1)) l k s := by
  have hle : ∀ j, base j ≤ update base x (base x + 1) j := by
    intro j
    rw [update_succ]
    omega
  refine ⟨fun j ↦ ?_, h.locked, h.nodup, h.lock, h.valid, fun j hj ↦ ?_, fun j ht hl ↦
    ⟨(h.orphan j ht hl).1.trans_le (hle j), (h.orphan j ht hl).2⟩⟩
  · rw [h.ref, update_succ, List.count_cons]
    omega
  · by_cases hjx : j = x
    · exact hjx ▸ hx
    · exact h.held j (by rwa [update_of_ne hjx] at hj)

theorem setIno {v : Ino} (h : Refs base l k s) (hv : v.type ≠ 0)
    (hlink : v.nlink = 0 → 0 < base x ∧ s.valid x = true) : Refs base l k (s.setIno x v) := by
  refine ⟨h.ref, h.locked, h.nodup, h.lock, fun j hj hv' ↦ ?_, fun j hj ↦ ?_, fun j ht hl ↦ ?_⟩
  all_goals simp only [Store.setIno] at *
  · by_cases hjx : j = x
    · subst hjx
      rwa [update_self]
    · rw [update_of_ne hjx]
      exact h.valid j hj hv'
  · by_cases hjx : j = x
    · subst hjx
      rwa [update_self]
    · rw [update_of_ne hjx]
      exact h.held j hj
  · by_cases hjx : j = x
    · subst hjx
      rw [update_self] at hl
      exact hlink hl
    · rw [update_of_ne hjx] at ht hl
      exact h.orphan j ht hl

theorem dirlookup (h : Refs base l k s) (name : Name) (hx : (s.ino x).type = T_DIR) :
    ∃ s', s.dirlookup x name = .ok ((lookup (s.ino x).entries name).map
        fun e ↦ (((s.ino x).entries.getD e emptyEntry).inum, DIRENT * e), s') ∧ Same s s' ∧
      Refs base (((lookup (s.ino x).entries name).map
        fun e ↦ ((s.ino x).entries.getD e emptyEntry).inum).toList ++ l) k s' := by
  unfold Store.dirlookup
  rw [if_neg (by simp [hx])]
  cases lookup (s.ino x).entries name with
  | none => exact ⟨s, rfl, .refl s, h⟩
  | some e =>
    obtain ⟨s', hget, hr, hs⟩ := h.iget ((s.ino x).entries.getD e emptyEntry).inum
    exact ⟨s', by simp only [hget, ok_bind, Option.map_some], hs, hr⟩

end Refs

def resolveLoop (ino : ℕ → Ino) (parent : Bool) : ℕ → Path → Name → ℕ → Option (ℕ × Name)
  | 0, _, _, _ => none
  | fuel + 1, path, name, ip =>
    match skipelem path with
    | none => if parent then none else some (ip, name)
    | some (name, path) =>
      if (ino ip).type ≠ T_DIR then none
      else if parent ∧ path.1 = [] then some (ip, name)
      else match lookup (ino ip).entries name with
        | none => none
        | some e => resolveLoop ino parent fuel path name ((ino ip).entries.getD e emptyEntry).inum

def resolve (ino : ℕ → Ino) (cwd : ℕ) (path : Path) (parent : Bool) : Option (ℕ × Name) :=
  resolveLoop ino parent (path.1.length + 1) path dot (if path.1.head? = some 47 then ROOTINO else cwd)

/-- The directory that gets an entry for the path, if it has no such entry. -/
def entered (ino : ℕ → Ino) (cwd : ℕ) (path : Path) : Option ℕ := do
  let (dp, name) ← resolve ino cwd path true
  if lookup (ino dp).entries name = none then some dp else none

/-- The inode whose entry `unlink` removes. -/
def removed (ino : ℕ → Ino) (cwd : ℕ) (path : Path) : Option ℕ := do
  let (dp, name) ← resolve ino cwd path true
  if namecmp name.1 dot.1 = 0 ∨ namecmp name.1 dotdot.1 = 0 then none
  else do
    let e ← lookup (ino dp).entries name
    let ip := ((ino dp).entries.getD e emptyEntry).inum
    if (ino ip).type = T_DIR ∧ (rest (ino ip)).all (·.inum = 0) = false then none else some ip

theorem skipelem_length {path path' : Path} {name : Name} (h : skipelem path = some (name, path')) :
    path'.1.length < path.1.length := by
  unfold skipelem at h
  simp only at h
  split at h
  · cases h
  · rename_i hs
    have hpath := congrArg (fun q ↦ q.2.1.length) (Option.some.inj h)
    simp only at hpath
    have hle := (List.dropWhile_sublist (l := path.1) isSlash).length_le
    have hhead := List.head_dropWhile_not isSlash hs
    cases hl : path.1.dropWhile isSlash with
    | nil => exact absurd hl hs
    | cons a t =>
      simp only [hl, List.head_cons] at hhead hle hpath
      rw [List.dropWhile_cons_of_pos (by simp [hhead])] at hpath
      have h₁ := (List.dropWhile_sublist (l := t) (!isSlash ·)).length_le
      have h₂ := (List.dropWhile_sublist (l := t.dropWhile (!isSlash ·)) isSlash).length_le
      rw [List.length_cons] at hle
      omega

theorem Sound.congr {ino ino' : ℕ → Ino} (h : Sound ino) (ht : ∀ i, (ino' i).type = (ino i).type)
    (he : ∀ i, (ino' i).entries = (ino i).entries) : Sound ino' := by
  intro d hd de hde hne
  rw [ht] at hd ⊢
  exact h d hd de (he d ▸ hde) hne

theorem Sound.lookup {ino : ℕ → Ino} (h : Sound ino) {e : ℕ} {name : Name} (ht : (ino x).type = T_DIR)
    (hl : lookup (ino x).entries name = some e) :
    (ino ((ino x).entries.getD e emptyEntry).inum).type ≠ 0 := by
  obtain ⟨hlt, hne, -⟩ := lookup_eq_some hl
  rw [List.getD_eq_getElem?_getD, List.getElem?_eq_getElem hlt, Option.getD_some]
  exact h x ht _ (List.getElem_mem hlt) hne

theorem namexLoop_ensures (parent : Bool) (fuel : ℕ) (path : Path) (name : Name) (ip : ℕ)
    (h : Refs base (ip :: l) [] s) (hsound : Sound s.ino → (s.ino ip).type ≠ 0)
    (hfuel : path.1.length < fuel) :
    Ensures (fun r ↦ r.1 = resolveLoop s.ino parent fuel path name ip ∧ Same s r.2 ∧
        Refs base ((r.1.map Prod.fst).toList ++ l) [] r.2) (Fails s.ino)
      (namexLoop store parent fuel path name ip s) := by
  induction fuel generalizing path name ip s with
  | zero => omega
  | succ fuel ih =>
    rw [namexLoop, resolveLoop]
    cases helem : skipelem path with
    | none =>
      cases parent with
      | true =>
        obtain ⟨s₁, h₁, hr₁, hs₁⟩ := h.iput (by simp)
        simp only [if_true, store, h₁, ok_bind]
        exact ⟨rfl, hs₁, hr₁⟩
      | false =>
        exact ⟨rfl, .refl s, h⟩
    | some q =>
      obtain ⟨name, path'⟩ := q
      have hlen := skipelem_length helem
      simp only
      refine (h.ilock List.mem_cons_self hsound).bind fun s₁ h₁ ↦ ?_
      obtain ⟨hr₁, hs₁, -, -⟩ := h₁
      have hattrs : (store.attrs ip s₁).type = (s.ino ip).type := by
        rw [← hs₁.ino]
        rfl
      rw [hattrs]
      by_cases ht : (s.ino ip).type = T_DIR
      · rw [if_neg (not_not.mpr ht), if_neg (not_not.mpr ht)]
        by_cases hlast : parent ∧ path'.1 = []
        · rw [if_pos hlast, if_pos hlast]
          obtain ⟨s₂, h₂, hr₂, hs₂⟩ := hr₁.iunlock
          simp only [store, h₂, ok_bind]
          exact ⟨rfl, hs₁.trans hs₂, hr₂⟩
        · rw [if_neg hlast, if_neg hlast]
          obtain ⟨s₂, h₂, hs₂, hr₂⟩ := hr₁.dirlookup name (hs₁.ino ▸ ht)
          rw [hs₁.ino] at h₂ hr₂
          obtain ⟨s₃, h₃, hr₃, hs₃⟩ := (hr₂.perm List.perm_middle (.refl _)).iunlockput
          have hs := hs₁.trans (hs₂.trans hs₃)
          have hdl : store.dirlookup ip name s₁ = s₁.dirlookup ip name := rfl
          simp only [hdl, h₂, ok_bind, h₃]
          cases hl : lookup (s.ino ip).entries name with
          | none =>
            rw [hl] at hr₃
            exact ⟨rfl, hs, hr₃⟩
          | some e =>
            rw [hl] at hr₃
            simp only [Option.map_some]
            have hnext := ih path' name ((s.ino ip).entries.getD e emptyEntry).inum hr₃
              (fun hsd ↦ ?_) (by omega)
            · rw [hs.ino] at hnext
              exact hnext.mono fun r hr ↦ ⟨hr.1, hs.trans hr.2.1, hr.2.2⟩
            · rw [hs.ino] at hsd ⊢
              exact hsd.lookup ht hl
      · rw [if_pos ht, if_pos ht]
        obtain ⟨s₂, h₂, hr₂, hs₂⟩ := hr₁.iunlockput
        simp only [h₂, ok_bind]
        exact ⟨rfl, hs₁.trans hs₂, hr₂⟩

section Resolve

variable {ino ino' : ℕ → Ino} {cwd dp : ℕ} {path : Path} {name : Name} {parent : Bool}

theorem resolveLoop_dir {fuel : ℕ} {ip : ℕ} {name' : Name}
    (h : resolveLoop ino true fuel path name ip = some (dp, name')) : (ino dp).type = T_DIR := by
  induction fuel generalizing path name ip with
  | zero => cases h
  | succ fuel ih =>
    rw [resolveLoop] at h
    split at h
    · cases h
    · split at h
      · cases h
      · rename_i ht
        split at h
        · cases h
          exact not_not.mp ht
        · split at h
          · cases h
          · exact ih h

theorem resolve_dir (h : resolve ino cwd path true = some (dp, name)) : (ino dp).type = T_DIR :=
  resolveLoop_dir h

theorem resolveLoop_type {fuel : ℕ} {ip : ℕ} {name' : Name} (hs : Sound ino) (hip : (ino ip).type ≠ 0)
    (h : resolveLoop ino parent fuel path name ip = some (x, name')) : (ino x).type ≠ 0 := by
  induction fuel generalizing path name ip with
  | zero => cases h
  | succ fuel ih =>
    rw [resolveLoop] at h
    split at h
    · split at h
      · cases h
      · cases h
        exact hip
    · split at h
      · cases h
      · rename_i ht
        split at h
        · cases h
          exact hip
        · split at h
          · cases h
          · rename_i hl
            exact ih (hs.lookup (not_not.mp ht) hl) h

theorem resolve_type (hs : Sound ino) (hroot : (ino ROOTINO).type ≠ 0) (hcwd : (ino cwd).type ≠ 0)
    (h : resolve ino cwd path parent = some (x, name)) : (ino x).type ≠ 0 := by
  refine resolveLoop_type hs ?_ h
  split
  · exact hroot
  · exact hcwd

theorem resolve_congr (ht : ∀ i, (ino' i).type = (ino i).type) (he : ∀ i, (ino' i).entries = (ino i).entries) :
    resolve ino' cwd path parent = resolve ino cwd path parent := by
  have hloop : ∀ fuel (path : Path) name ip,
      resolveLoop ino' parent fuel path name ip = resolveLoop ino parent fuel path name ip := by
    intro fuel
    induction fuel with
    | zero =>
      intros
      rfl
    | succ fuel ih =>
      intro path name ip
      simp only [resolveLoop, ht, he, ih]
  exact hloop ..

end Resolve

theorem namex_ensures {cwd : ℕ} (path : Path) (parent : Bool) (h : Refs base l [] s)
    (hroot : (s.ino ROOTINO).type ≠ 0) (hcwd : 0 < base cwd) :
    Ensures (fun r ↦ r.1 = resolve s.ino cwd path parent ∧ Same s r.2 ∧
        Refs base ((r.1.map Prod.fst).toList ++ l) [] r.2) (Fails s.ino)
      (namex store cwd path parent s) := by
  unfold namex resolve
  split
  · obtain ⟨s₁, h₁, hr₁, hs₁⟩ := h.iget ROOTINO
    have hget : store.iget ROOTINO s = s.iget ROOTINO := rfl
    rw [hget, h₁, ok_bind]
    have := namexLoop_ensures parent _ path dot ROOTINO hr₁ (fun _ ↦ hs₁.ino ▸ hroot) (Nat.lt_succ_self _)
    rw [hs₁.ino] at this
    exact this.mono fun r hr ↦ ⟨hr.1, hs₁.trans hr.2.1, hr.2.2⟩
  · have hdup : Same s (s.idup cwd) := ⟨rfl, rfl, rfl⟩
    have := namexLoop_ensures parent _ path dot cwd (h.idup hcwd) (fun _ ↦ h.held cwd hcwd)
      (Nat.lt_succ_self _)
    exact this.mono fun r hr ↦ ⟨hr.1, hdup.trans hr.2.1, hr.2.2⟩

end Xv6Bfs.Sysfile

import Xv6Bfs.Files.System
import Mathlib.Data.Multiset.ZeroCons

namespace Xv6Bfs.Files

open Lib.Execution Fs Sysfile

variable {H S : Type}

def Holds (holds : Multiset H → Multiset H → S → Prop) (n k : Multiset H) : Option H × S → Prop
  | (some h, s) => holds (h ::ₘ n) k s
  | (none, s) => holds n k s

/-- An account of the references `n` to the inodes in memory and of the inodes `k` that are locked. The
functions of `fs.c` may fail with the errors in `err`. -/
structure Ledger (I : Inodes H S) where
  holds : Multiset H → Multiset H → S → Prop
  err : Panic → Prop
  idup : ∀ {n k s h}, holds n k s → h ∈ n → holds (h ::ₘ n) k (I.idup h s)
  iunlock : ∀ {n k s h}, holds n (h ::ₘ k) s → Ensures (holds n k) err (I.iunlock h s)
  iput : ∀ {n k s h}, holds (h ::ₘ n) k s → Ensures (holds n k) err (I.iput h s)

section

variable {I : Inodes H S} (A : Ledger I)

def Ledger.Opened (n k : Multiset H) : Option H × S → Prop
  | (some h, s) => A.holds (h ::ₘ n) (h ::ₘ k) s
  | (none, s) => A.holds n k s

/-- The functions that a call needs keep the account, from the file system `s` on. -/
def Ledger.Serves {Q : Type} (cwd : H) (s : S) (c : Call Q) : Prop :=
  ∀ n, A.holds n 0 s → cwd ∈ n → match c with
    | .open path omode => Ensures (A.Opened n 0) A.err (openInode I cwd path omode s)
    | .mkdir path => Ensures (fun r ↦ A.holds n 0 r.2) A.err (make I cwd path T_DIR 0 0 s)
    | .mknod path major minor =>
      Ensures (fun r ↦ A.holds n 0 r.2) A.err (make I cwd path T_DEV major minor s)
    | .link old new => Ensures (fun r ↦ A.holds n 0 r.2) A.err (Sysfile.link I cwd old new s)
    | .unlink path => Ensures (fun r ↦ A.holds n 0 r.2) A.err (Sysfile.unlink I cwd path s)
    | .chdir path => Ensures (Holds A.holds n 0) A.err (chdirInode I cwd path s)
    | .exec path => Ensures (A.holds n 0) A.err (execInode I cwd path s)
    | _ => True

theorem Ledger.iunlockput {n k : Multiset H} {s : S} {h : H} (hs : A.holds (h ::ₘ n) (h ::ₘ k) s) :
    Ensures (A.holds n k) A.err (iunlockput I h s) :=
  (A.iunlock hs).bind (fun _ hs ↦ A.iput hs)

end

/-- An account that each function of `fs.c` keeps, whatever the calls are, with any error. -/
structure Accounts (I : Inodes H S) extends Ledger I where
  any : ∀ e, err e
  iget : ∀ {n k s} (inum : ℕ), holds n k s →
    Ensures (fun r ↦ holds (r.1 ::ₘ n) k r.2) err (I.iget inum s)
  ialloc : ∀ {n k s} (type : ℕ), holds n k s →
    Ensures (fun r ↦ holds (r.1 ::ₘ n) k r.2) err (I.ialloc type s)
  ilock : ∀ {n k s} (h : H), holds n k s → Ensures (holds n (h ::ₘ k)) err (I.ilock h s)
  setAttrs : ∀ {n k s} (h : H) (a : Attrs), holds n k s → holds n k (I.setAttrs h a s)
  dirlookup : ∀ {n k s} (h : H) (name : Name), holds n k s →
    Ensures (fun r ↦ Holds holds n k (r.1.map Prod.fst, r.2)) err (I.dirlookup h name s)
  dirlink : ∀ {n k s} (h : H) (name : Name) (inum : ℕ), holds n k s →
    Ensures (fun r ↦ holds n k r.2) err (I.dirlink h name inum s)
  isdirempty : ∀ {n k s} (h : H), holds n k s →
    Ensures (fun r ↦ holds n k r.2) err (I.isdirempty h s)
  clear : ∀ {n k s} (h : H) (off : ℕ), holds n k s →
    Ensures (holds n k) err (I.clear h off s)

namespace Accounts

variable {I : Inodes H S} (A : Accounts I) {n k : Multiset H} {s : S} {h cwd : H}

theorem namexLoop (parent : Bool) (fuel : ℕ) (path : Path) (name : Name)
    (hs : A.holds (h ::ₘ n) k s) :
    Ensures (fun r ↦ Holds A.holds n k (r.1.map Prod.fst, r.2)) A.err
      (namexLoop I parent fuel path name h s) := by
  induction fuel generalizing path name h s with
  | zero => exact A.any _
  | succ fuel ih =>
    unfold Sysfile.namexLoop
    split
    · split
      · exact (A.iput hs).bind (fun s' hs' ↦ hs')
      · exact hs
    · apply (A.ilock h hs).bind
      intro s₁ h₁
      split
      · exact (A.iunlockput h₁).bind (fun s' hs' ↦ hs')
      split
      · exact (A.iunlock h₁).bind (fun s' hs' ↦ hs')
      apply (A.dirlookup h _ h₁).bind
      rintro ⟨next, s₂⟩ h₂
      cases next with
      | none => exact (A.iunlockput h₂).bind (fun s' hs' ↦ hs')
      | some next =>
        simp only [Holds, Option.map_some] at h₂
        rw [Multiset.cons_swap] at h₂
        exact (A.iunlockput h₂).bind (fun s' hs' ↦ ih _ _ hs')

theorem namex (path : Path) (parent : Bool) (hs : A.holds n k s) (hcwd : cwd ∈ n) :
    Ensures (fun r ↦ Holds A.holds n k (r.1.map Prod.fst, r.2)) A.err
      (namex I cwd path parent s) := by
  unfold Sysfile.namex
  split
  · exact (A.iget _ hs).bind (fun r hr ↦ A.namexLoop _ _ _ _ hr)
  · exact A.namexLoop _ _ _ _ (A.idup hs hcwd)

theorem namei_root {cwd : H} (hs : A.holds n k s) :
    Ensures (fun r ↦ Holds A.holds n k (r.1.map Prod.fst, r.2)) A.err
      (namei I cwd ⟨[47], by decide⟩ s) :=
  (A.iget ROOTINO hs).bind (fun _ hr ↦ A.namexLoop _ _ _ _ hr)

theorem incNlink (h : H) (hs : A.holds n k s) : A.holds n k (incNlink I h s) :=
  A.setAttrs _ _ hs

theorem decNlink (h : H) (hs : A.holds n k s) : A.holds n k (decNlink I h s) :=
  A.setAttrs _ _ hs

theorem linkBad (hs : A.holds (h ::ₘ n) k s) :
    Ensures (fun r ↦ A.holds n k r.2) A.err (linkBad I h s) := by
  apply (A.ilock h hs).bind
  intro s₁ h₁
  exact (A.iunlockput (A.decNlink h h₁)).bind (fun s' hs' ↦ hs')

theorem linkEntry (new : Path) (hs : A.holds (h ::ₘ n) k s) (hcwd : cwd ∈ n) :
    Ensures (fun r ↦ A.holds n k r.2) A.err (linkEntry I cwd h new s) := by
  apply (A.namex new true hs (Multiset.mem_cons_of_mem hcwd)).bind
  rintro ⟨r, s₁⟩ h₁
  match r with
  | none => exact A.linkBad h₁
  | some (dp, name) =>
    simp only [Holds, Option.map_some] at h₁
    apply (A.ilock dp h₁).bind
    intro s₂ h₂
    apply (A.dirlink dp name _ h₂).bind
    rintro ⟨r, s₃⟩ h₃
    apply (A.iunlockput h₃).bind
    intro s₄ h₄
    split
    · exact A.linkBad h₄
    · exact (A.iput h₄).bind (fun s' hs' ↦ hs')

theorem link (old new : Path) (hs : A.holds n k s) (hcwd : cwd ∈ n) :
    Ensures (fun r ↦ A.holds n k r.2) A.err (link I cwd old new s) := by
  apply (A.namex old false hs hcwd).bind
  rintro ⟨r, s₁⟩ h₁
  match r with
  | none => exact h₁
  | some (ip, _) =>
    simp only [Holds, Option.map_some] at h₁
    apply (A.ilock ip h₁).bind
    intro s₂ h₂
    split
    · exact (A.iunlockput h₂).bind (fun s' hs' ↦ hs')
    · exact (A.iunlock (A.incNlink ip h₂)).bind (fun s' hs' ↦ A.linkEntry new hs' hcwd)

theorem unlinkBad (hs : A.holds (h ::ₘ n) (h ::ₘ k) s) :
    Ensures (fun r ↦ A.holds n k r.2) A.err (unlinkBad I h s) :=
  (A.iunlockput hs).bind (fun _ hs' ↦ hs')

theorem unlinkEntry {dp ip : H} (off : ℕ) (hs : A.holds (ip ::ₘ dp ::ₘ n) (ip ::ₘ dp ::ₘ k) s) :
    Ensures (fun r ↦ A.holds n k r.2) A.err (unlinkEntry I dp off ip s) := by
  apply (A.clear dp off hs).bind
  intro s₁ h₁
  have h₂ : A.holds (dp ::ₘ ip ::ₘ n) (dp ::ₘ ip ::ₘ k)
      (if (I.attrs ip s₁).type = T_DIR then Sysfile.decNlink I dp s₁ else s₁) := by
    rw [Multiset.cons_swap dp, Multiset.cons_swap dp]
    split
    · exact A.decNlink dp h₁
    · exact h₁
  apply (A.iunlockput h₂).bind
  intro s₃ h₃
  exact (A.iunlockput (A.decNlink ip h₃)).bind (fun s' hs' ↦ hs')

theorem unlink (path : Path) (hs : A.holds n k s) (hcwd : cwd ∈ n) :
    Ensures (fun r ↦ A.holds n k r.2) A.err (unlink I cwd path s) := by
  apply (A.namex path true hs hcwd).bind
  rintro ⟨r, s₁⟩ h₁
  match r with
  | none => exact h₁
  | some (dp, name) =>
    simp only [Holds, Option.map_some] at h₁
    apply (A.ilock dp h₁).bind
    intro s₂ h₂
    split
    · exact A.unlinkBad h₂
    apply (A.dirlookup dp name h₂).bind
    rintro ⟨r, s₃⟩ h₃
    match r with
    | none => exact A.unlinkBad h₃
    | some (ip, off) =>
      simp only [Holds, Option.map_some] at h₃
      apply (A.ilock ip h₃).bind
      intro s₄ h₄
      dsimp only
      split
      · exact A.any _
      split
      · apply (A.isdirempty ip h₄).bind
        rintro ⟨empty, s₅⟩ h₅
        dsimp only
        split
        · exact A.unlinkEntry off h₅
        · exact (A.iunlockput h₅).bind (fun s' hs' ↦ A.unlinkBad hs')
      · exact A.unlinkEntry off h₄

theorem createDots (dp ip : H) (hs : A.holds n k s) :
    Ensures (A.holds n k) A.err (createDots I dp ip s) := by
  apply (A.dirlink ip dot _ (A.incNlink dp hs)).bind
  rintro ⟨r, s₁⟩ h₁
  dsimp only
  split
  · exact A.any _
  apply (A.dirlink ip dotdot _ h₁).bind
  rintro ⟨r, s₂⟩ h₂
  dsimp only
  split
  · exact A.any _
  · exact h₂

theorem createEntry {dp ip : H} (name : Name) (hs : A.holds (ip ::ₘ dp ::ₘ n) (ip ::ₘ dp ::ₘ k) s) :
    Ensures (fun r ↦ A.holds (r.1 ::ₘ n) (r.1 ::ₘ k) r.2) A.err
      (createEntry I dp name ip s) := by
  apply (A.dirlink dp name _ hs).bind
  rintro ⟨r, s₁⟩ h₁
  dsimp only
  split
  · exact A.any _
  · rw [Multiset.cons_swap ip, Multiset.cons_swap ip] at h₁
    exact (A.iunlockput h₁).bind (fun s' hs' ↦ hs')

theorem createNew {dp : H} (name : Name) (type major minor : ℕ)
    (hs : A.holds (dp ::ₘ n) (dp ::ₘ k) s) :
    Ensures (fun r ↦ A.holds (r.1 ::ₘ n) (r.1 ::ₘ k) r.2) A.err
      (createNew I dp name type major minor s) := by
  apply (A.ialloc type hs).bind
  rintro ⟨ip, s₁⟩ h₁
  apply (A.ilock ip h₁).bind
  intro s₂ h₂
  have h₃ := A.setAttrs ip ⟨(I.attrs ip s₂).type, major % 2 ^ 16, minor % 2 ^ 16, 1⟩ h₂
  dsimp only
  split
  · exact (A.createDots dp ip h₃).bind (fun s' hs' ↦ A.createEntry name hs')
  · exact A.createEntry name h₃

theorem create (path : Path) (type major minor : ℕ) (hs : A.holds n k s) (hcwd : cwd ∈ n) :
    Ensures (A.Opened n k) A.err (create I cwd path type major minor s) := by
  apply (A.namex path true hs hcwd).bind
  rintro ⟨r, s₁⟩ h₁
  match r with
  | none => exact h₁
  | some (dp, name) =>
    simp only [Holds, Option.map_some] at h₁
    apply (A.ilock dp h₁).bind
    intro s₂ h₂
    apply (A.dirlookup dp name h₂).bind
    rintro ⟨r, s₃⟩ h₃
    match r with
    | none => exact (A.createNew name type major minor h₃).bind (fun r hr ↦ hr)
    | some (ip, _) =>
      simp only [Holds, Option.map_some] at h₃
      rw [Multiset.cons_swap] at h₃
      apply (A.iunlockput h₃).bind
      intro s₄ h₄
      apply (A.ilock ip h₄).bind
      intro s₅ h₅
      split
      · exact h₅
      · exact (A.iunlockput h₅).bind (fun s' hs' ↦ hs')

theorem make (path : Path) (type major minor : ℕ) (hs : A.holds n k s) (hcwd : cwd ∈ n) :
    Ensures (fun r ↦ A.holds n k r.2) A.err
      (make I cwd path type major minor s) := by
  apply (A.create path type major minor hs hcwd).bind
  rintro ⟨r, s₁⟩ h₁
  cases r with
  | none => exact h₁
  | some ip => exact (A.iunlockput h₁).bind (fun s' hs' ↦ hs')

theorem openInode (path : Path) (omode : ℕ) (hs : A.holds n k s) (hcwd : cwd ∈ n) :
    Ensures (A.Opened n k) A.err (openInode I cwd path omode s) := by
  unfold Sysfile.openInode
  split
  · exact A.create path _ _ _ hs hcwd
  apply (A.namex path false hs hcwd).bind
  rintro ⟨r, s₁⟩ h₁
  match r with
  | none => exact h₁
  | some (ip, _) =>
    simp only [Holds, Option.map_some] at h₁
    apply (A.ilock ip h₁).bind
    intro s₂ h₂
    split
    · exact (A.iunlockput h₂).bind (fun s' hs' ↦ hs')
    · exact h₂

theorem chdirInode (path : Path) (hs : A.holds n k s) (hcwd : cwd ∈ n) :
    Ensures (Holds A.holds n k) A.err (chdirInode I cwd path s) := by
  apply (A.namex path false hs hcwd).bind
  rintro ⟨r, s₁⟩ h₁
  match r with
  | none => exact h₁
  | some (ip, _) =>
    simp only [Holds, Option.map_some] at h₁
    apply (A.ilock ip h₁).bind
    intro s₂ h₂
    split
    · exact (A.iunlockput h₂).bind (fun s' hs' ↦ hs')
    · exact (A.iunlock h₂).bind (fun s' hs' ↦ hs')

theorem execInode (path : Path) (hs : A.holds n k s) (hcwd : cwd ∈ n) :
    Ensures (A.holds n k) A.err (execInode I cwd path s) := by
  apply (A.namex path false hs hcwd).bind
  rintro ⟨r, s₁⟩ h₁
  match r with
  | none => exact h₁
  | some (ip, _) =>
    simp only [Holds, Option.map_some] at h₁
    exact (A.ilock ip h₁).bind fun s₂ h₂ ↦ A.iunlockput h₂

theorem serves {Q : Type} (cwd : H) (s : S) (c : Call Q) : A.Serves cwd s c := by
  intro n hs hcwd
  cases c with
  | «open» path omode => exact A.openInode path omode hs hcwd
  | mkdir path => exact A.make path _ _ _ hs hcwd
  | mknod path major minor => exact A.make path _ _ _ hs hcwd
  | link old new => exact A.link old new hs hcwd
  | unlink path => exact A.unlink path hs hcwd
  | chdir path => exact A.chdirInode path hs hcwd
  | exec path => exact A.execInode path hs hcwd
  | _ => trivial

end Accounts

end Xv6Bfs.Files

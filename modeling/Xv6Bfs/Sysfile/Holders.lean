import Xv6Bfs.Sysfile.Updates
import Xv6Bfs.Files.Counts

namespace Xv6Bfs.Sysfile

open Lib.Execution Files Fs Function

variable {n : Multiset ℕ} {lost : ℕ → Prop} {s₀ s : Store} {x cwd : ℕ}

/-- The references are `n`, and the inodes in `k` are locked. Since the state `s₀` no directory has lost
its last link, but for those in `lost`. -/
structure Held (s₀ : Store) (lost : ℕ → Prop) (n k : Multiset ℕ) (s : Store) : Prop where
  inv : ∃ l : List ℕ, (l : Multiset ℕ) = k ∧ Sysfile.Inv (n.count ·) [] l s
  dead : ∀ j, Dead (s.ino j) → Dead (s₀.ino j) ∨ lost j

theorem count_cons_eq (x : ℕ) (n : Multiset ℕ) :
    ((x ::ₘ n).count ·) = update (n.count ·) x (n.count x + 1) := by
  funext j
  rw [update_succ (n.count ·), Multiset.count_cons]
  simp only [beq_iff_eq, @eq_comm ℕ x]

theorem update_count_cons (x : ℕ) (n : Multiset ℕ) :
    update ((x ::ₘ n).count ·) x ((x ::ₘ n).count x - 1) = (n.count ·) := by
  rw [count_cons_eq, update_idem, Multiset.count_cons_self, Nat.add_sub_cancel]
  exact update_eq_self x _

namespace Held

variable {l k' : List ℕ} {k : Multiset ℕ} {s' : Store} {base : ℕ → ℕ}

theorem inv_nil (h : Held s₀ lost n 0 s) : Sysfile.Inv (n.count ·) [] [] s := by
  obtain ⟨l, hl, hinv⟩ := h.inv
  obtain rfl := (Multiset.coe_eq_zero l).mp hl
  exact hinv

theorem kept (h : Held s₀ lost n k s) (hk : Kept base [] l s s') {n' : Multiset ℕ}
    (hb : base = (n'.count ·)) : Held s₀ lost n' l s' :=
  ⟨⟨l, rfl, hb ▸ hk.inv⟩, fun j hj ↦ h.dead j (hk.dead j hj)⟩

theorem kept_cons (h : Held s₀ lost n k s) (hk : Kept (n.count ·) [x] l s s')
    (hx : (s'.ino x).type ≠ 0) : Held s₀ lost (x ::ₘ n) l s' := by
  have hinv := hk.inv.of_same (.refl s') (hk.inv.refs.promote hx)
  rw [← count_cons_eq] at hinv
  exact h.kept ⟨hinv, hk.dead⟩ rfl

end Held

def ledger (s₀ : Store) (lost : ℕ → Prop) : Ledger store where
  holds := Held s₀ lost
  err := Fails s₀.ino
  idup := by
    intro n k s x h hx
    obtain ⟨l, rfl, hinv⟩ := h.inv
    have hpos : 0 < n.count x := Multiset.count_pos.mpr hx
    exact h.kept_cons (hinv.kept ⟨rfl, rfl, rfl⟩ (hinv.refs.idup hpos)) (hinv.refs.held x hpos)
  iunlock := by
    intro n k s x h
    obtain ⟨l, hl, hinv⟩ := h.inv
    obtain ⟨k', rfl⟩ := Quot.exists_rep k
    have hrefs := hinv.refs.perm (.refl []) (Multiset.coe_eq_coe.mp hl)
    obtain ⟨s', he, hr, hs⟩ := hrefs.iunlock
    rw [show store.iunlock x s = .ok s' from he]
    exact h.kept (hinv.kept hs hr) rfl
  iput := by
    intro n k s x h
    obtain ⟨l, rfl, hinv⟩ := h.inv
    by_cases hx : x ∈ l
    · have hlock : s.locked x = true := (hinv.refs.locked x).mpr hx
      rw [show store.iput x s = .error .sleeps from if_pos hlock]
      exact fails_of_ne (by decide) (by decide)
    · obtain ⟨s', he, hk⟩ := hinv.iputLast (x := x) (by simp) (by simp) hx
      rw [show store.iput x s = .ok s' from he]
      exact h.kept hk (update_count_cons x n)

variable {Q : Type} {t t' : Files.System ℕ Q Store}

/-- The directory in which a call makes an entry. -/
def makesIn (c : Fin NPROC × Call Q) (t : Files.System ℕ Q Store) : Option ℕ := do
  let cwd ← (t.proc c.1).cwd
  match c.2 with
  | .open path omode => if omode &&& O_CREATE ≠ 0 then entered t.tab.fs.ino cwd path else none
  | .mkdir path => entered t.tab.fs.ino cwd path
  | .mknod path _ _ => entered t.tab.fs.ino cwd path
  | .link old new => do
    let (ip, _) ← resolve t.tab.fs.ino cwd old false
    if (t.tab.fs.ino ip).type = T_DIR then none else entered t.tab.fs.ino cwd new
  | _ => none

def unlinks (c : Fin NPROC × Call Q) (t : Files.System ℕ Q Store) : Option ℕ := do
  let cwd ← (t.proc c.1).cwd
  match c.2 with
  | .unlink path => removed t.tab.fs.ino cwd path
  | _ => none

def Lost (c : Fin NPROC × Call Q) (t : Files.System ℕ Q Store) (j : ℕ) : Prop :=
  unlinks c t = some j ∧ (t.tab.fs.ino j).type = T_DIR ∧ 0 < t.tab.fs.ref j

theorem ledger_serves {c : Fin NPROC × Call Q} (hcwd : (t.proc c.1).cwd = some cwd)
    (hlive : ∀ dp ∈ makesIn c t, (t.tab.fs.ino dp).nlink ≠ 0) :
    (ledger t.tab.fs (Lost c t)).Serves cwd t.tab.fs c.2 := by
  intro n h hmem
  have hinv := h.inv_nil
  have hpos : 0 < n.count cwd := Multiset.count_pos.mpr hmem
  have hkept {r : ℤ × Store} (hk : Kept (n.count ·) [] [] t.tab.fs r.2) :
      Held t.tab.fs (Lost c t) n 0 r.2 := h.kept hk rfl
  obtain ⟨p, c⟩ := c
  simp only [makesIn, hcwd, Option.bind_eq_bind, Option.bind_some, Option.mem_def] at hlive
  cases c with
  | «open» path omode =>
    refine (openInode_ensures hinv hpos fun hc dp hdp ↦ hlive dp ?_).mono ?_
    · exact (if_pos hc).trans hdp
    · rintro ⟨_ | ip, s'⟩ hk
      · exact h.kept hk rfl
      · have hl := hk.inv.refs.lock ip List.mem_cons_self
        exact h.kept_cons hk (hk.inv.refs.valid ip hl.1 hl.2)
  | mkdir path => exact (make_ensures hinv hpos T_DIR 0 0 hlive (by decide)).mono fun r ↦ hkept
  | mknod path major minor =>
    exact (make_ensures hinv hpos T_DEV major minor hlive (by decide)).mono fun r ↦ hkept
  | link old new =>
    refine (link_ensures hinv hpos fun ip name hres hdir dp hdp ↦ hlive dp ?_).mono fun r ↦ hkept
    simpa [hres, hdir] using hdp
  | unlink path =>
    refine (unlink_ensures hinv hpos).mono fun r hr ↦ ⟨⟨[], rfl, hr.1⟩, fun j hj ↦ ?_⟩
    refine (hr.2 j hj).imp_right fun hlost ↦ ⟨?_, hlost.2, ?_⟩
    · simp only [unlinks, hcwd, Option.bind_eq_bind, Option.bind_some, hlost.1]
    · have horphan := (hr.1.refs.orphan j (by rw [hj.1]; decide) hj.2).1
      rw [hinv.refs.ref]
      exact Nat.add_pos_left horphan _
  | chdir path =>
    refine (chdirInode_ensures hinv hpos).mono ?_
    rintro ⟨_ | ip, s'⟩ ⟨hk, htype⟩
    · exact h.kept hk rfl
    · exact h.kept_cons hk (htype ip rfl)
  | exec path => exact (execInode_ensures hinv hpos).mono fun s' hk ↦ h.kept hk rfl
  | _ => trivial

/-- The references to the inodes are those of the files and of the current directories. -/
def Consistent (t : Files.System ℕ Q Store) : Prop := Files.Inv (ledger t.tab.fs fun _ ↦ False) t

theorem Consistent.of_inv (h : Files.Inv (ledger s₀ lost) t) : Consistent t :=
  ⟨{ h.books with inodes := ⟨h.books.inodes.inv, fun _ hj ↦ .inl hj⟩ }, h.procs⟩

theorem Consistent.inv (h : Consistent t) : ∃ n : Multiset ℕ, Sysfile.Inv (n.count ·) [] [] t.tab.fs ∧
    ∀ p cwd, (t.proc p).cwd = some cwd → 0 < n.count cwd :=
  ⟨_, h.books.inodes.inv_nil, fun _ _ hcwd ↦ Multiset.count_pos.mpr (Files.Inv.mem_cwd hcwd _)⟩

theorem Consistent.step [DecidableEq Q] (initproc : Fin NPROC) (c : Fin NPROC × Call Q) (h : Consistent t)
    (hlive : ∀ dp ∈ makesIn c t, (t.tab.fs.ino dp).nlink ≠ 0) :
    Ensures (fun t' ↦ Consistent t' ∧ ∀ j, Dead (t'.tab.fs.ino j) →
        Dead (t.tab.fs.ino j) ∨ Lost c t j)
      (fun e ↦ e = .fs .ilockNoType → ¬ Sound t.tab.fs.ino) (Call.step store initproc c t) := by
  have hinv : Files.Inv (ledger t.tab.fs (Lost c t)) t :=
    ⟨{ h.books with inodes := ⟨h.books.inodes.inv, fun _ hj ↦ .inl hj⟩ }, h.procs⟩
  refine ((hinv.step initproc c fun cwd hcwd ↦ ledger_serves hcwd hlive).mono fun t' h' ↦
    ⟨.of_inv h', h'.books.inodes.dead⟩).weaken ?_
  rintro _ he rfl
  exact he.2 rfl

end Xv6Bfs.Sysfile

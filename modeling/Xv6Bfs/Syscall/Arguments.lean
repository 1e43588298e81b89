import Xv6Bfs.Sched.SysNicefork
import Xv6Bfs.Vm.Exec

namespace Xv6Bfs.Syscall

open Sched

section

variable (u : User)

/-- `argptr`, where `i` is what its local variable holds at first. -/
def argptr (n : BitVec 32) (i : ℤ) (pp size : BitVec 32) : ℤ × BitVec 32 :=
  let (r, i) := u.argint n i
  if r < 0 then (-1, pp)
  else if size.toInt < 0 ∨ u.sz ≤ BitVec.ofInt 32 i ∨ u.sz < BitVec.ofInt 32 i + size then (-1, pp)
  else (0, BitVec.ofInt 32 i)

def fetchstrLoop (pp s : BitVec 32) : ℤ :=
  if s < u.sz then
    if u.mem s = 0 then (s - pp).toInt else fetchstrLoop pp (s + 1)
  else -1
termination_by u.sz.toNat - s.toNat
decreasing_by bv_omega

/-- The return value, and what `*pp` holds afterwards. -/
def fetchstr (addr pp : BitVec 32) : ℤ × BitVec 32 :=
  if u.sz ≤ addr then (-1, pp) else (fetchstrLoop u addr addr, addr)

/-- `argstr`, where `addr` is what its local variable holds at first. -/
def argstr (n : BitVec 32) (addr : ℤ) (pp : BitVec 32) : ℤ × BitVec 32 :=
  let (r, addr) := u.argint n addr
  if r < 0 then (-1, pp) else fetchstr u (BitVec.ofInt 32 addr) pp

/-- The loop of `sys_exec` from `i` on, where `n` entries of `argv` remain. -/
def sysExecLoop (uargv : BitVec 32) : (n : ℕ) → (i uarg : BitVec 32) → Option (List (BitVec 32))
  | 0, _, _ => none
  | n + 1, i, uarg =>
    let (r, w) := u.fetchint (uargv + 4 * i) uarg.toInt
    let uarg := BitVec.ofInt 32 w
    if r < 0 then none
    else if uarg = 0 then some []
    else
      let (r, arg) := fetchstr u uarg 0
      if r < 0 then none else (sysExecLoop uargv n (i + 1) uarg).map (arg :: ·)

/-- The arguments with which `sys_exec` calls `exec`, or nothing where it returns -1 before. The
local variables hold `path`, `uargv` and `uarg` at first. -/
def sysExec (path uargv uarg : BitVec 32) : Option (BitVec 32 × List (BitVec 32)) :=
  let (r, path) := argstr u 0 0 path
  if r < 0 then none
  else
    let (r, w) := u.argint 1 uargv.toInt
    if r < 0 then none
    else (sysExecLoop u (BitVec.ofInt 32 w) Vm.MAXARG 0 uarg).map (path, ·)

def argAddr (n : BitVec 32) : BitVec 32 := u.esp + 4 + 4 * n

def word (a : BitVec 32) : BitVec 32 :=
  u.mem (a + 3) ++ u.mem (a + 2) ++ u.mem (a + 1) ++ u.mem a

/-- The `n` bytes from `a` on, none of which wraps, have addresses below `sz`. -/
def Inside (a : BitVec 32) (n : ℕ) : Prop := a.toNat + n ≤ u.sz.toNat

/-- The string at `a` has `k` bytes before its null byte, and all of them lie below `sz`. -/
structure StringAt (a : BitVec 32) (k : ℕ) : Prop where
  inside : Inside u a (k + 1)
  null : u.mem (a + BitVec.ofNat 32 k) = 0
  first : ∀ j < k, u.mem (a + BitVec.ofNat 32 j) ≠ 0

end

section

variable {u : User}

theorem fetchint_cases (hsz : u.sz.toNat ≤ Vm.KERNBASE) (addr : BitVec 32) (ip : ℤ) :
    u.fetchint addr ip = (-1, ip) ∨
      Inside u addr 4 ∧ u.fetchint addr ip = (0, (word u addr).toInt) := by
  unfold User.fetchint
  split
  · exact .inl rfl
  · rename_i h
    refine .inr ⟨?_, rfl⟩
    simp only [Vm.KERNBASE, Inside] at *
    bv_omega

theorem argint_cases (hsz : u.sz.toNat ≤ Vm.KERNBASE) (n : BitVec 32) (ip : ℤ) :
    u.argint n ip = (-1, ip) ∨
      Inside u (argAddr u n) 4 ∧ u.argint n ip = (0, (word u (argAddr u n)).toInt) :=
  fetchint_cases hsz _ ip

theorem toInt_of_nonneg {x : BitVec 32} (h : 0 ≤ x.toInt) :
    x.toNat < 2 ^ 31 ∧ x.toInt = x.toNat := by
  rw [BitVec.toInt_eq_toNat_cond] at h ⊢
  split at h
  · rename_i hlt
    exact ⟨by omega, if_pos hlt⟩
  · omega

variable (hsz : u.sz.toNat ≤ Vm.KERNBASE)
include hsz

theorem argptr_cases (n : BitVec 32) (i : ℤ) (pp size : BitVec 32) :
    argptr u n i pp size = (-1, pp) ∨
      (Inside u (argAddr u n) 4 ∧ 0 ≤ size.toInt ∧
        Inside u (word u (argAddr u n)) size.toInt.toNat ∧
        argptr u n i pp size = (0, word u (argAddr u n))) := by
  unfold argptr
  rcases argint_cases hsz n i with h | ⟨hin, h⟩
  · rw [h]
    exact .inl rfl
  · simp only [h, BitVec.ofInt_toInt]
    rw [if_neg (by decide)]
    split
    · exact .inl rfl
    · rename_i hsize
      have hnonneg : 0 ≤ size.toInt := by omega
      refine .inr ⟨hin, hnonneg, ?_, rfl⟩
      obtain ⟨hlt, heq⟩ := toInt_of_nonneg hnonneg
      simp only [Vm.KERNBASE, Inside, heq, Int.toNat_natCast] at *
      bv_omega

theorem fetchstrLoop_cases (pp : BitVec 32) {s : BitVec 32} {i : ℕ}
    (hs : s = pp + BitVec.ofNat 32 i) (hi : pp.toNat + i ≤ u.sz.toNat)
    (hnone : ∀ j < i, u.mem (pp + BitVec.ofNat 32 j) ≠ 0) :
    (fetchstrLoop u pp s = -1 ∧
      ∀ j, pp.toNat + j < u.sz.toNat → u.mem (pp + BitVec.ofNat 32 j) ≠ 0) ∨
      ∃ k : ℕ, StringAt u pp k ∧ fetchstrLoop u pp s = k := by
  simp only [Vm.KERNBASE] at hsz
  have hsNat : s.toNat = pp.toNat + i := by
    rw [hs]
    bv_omega
  induction s using fetchstrLoop.induct u generalizing i with
  | case1 s hlt hnull =>
    refine .inr ⟨i, ⟨?_, ?_, hnone⟩, ?_⟩
    · simp only [Inside]
      bv_omega
    · rw [← hs, hnull]
    · have hdist : (s - pp).toNat = i := by bv_omega
      rw [fetchstrLoop, if_pos hlt, if_pos hnull, BitVec.toInt_eq_toNat_of_lt (by bv_omega), hdist]
  | case2 s hlt hnull ih =>
    rw [fetchstrLoop, if_pos hlt, if_neg hnull]
    refine ih (i := i + 1) (by bv_omega) (by bv_omega) ?_ (by bv_omega)
    intro j hj
    rcases Nat.lt_succ_iff_lt_or_eq.mp hj with hj | rfl
    · exact hnone j hj
    · rwa [← hs]
  | case3 s hge =>
    rw [fetchstrLoop, if_neg hge]
    exact .inl ⟨rfl, fun j hj ↦ hnone j (by bv_omega)⟩

theorem fetchstr_cases (addr pp : BitVec 32) :
    ((fetchstr u addr pp).1 = -1 ∧
      ∀ j, addr.toNat + j < u.sz.toNat → u.mem (addr + BitVec.ofNat 32 j) ≠ 0) ∨
      ∃ k : ℕ, StringAt u addr k ∧ fetchstr u addr pp = ((k : ℤ), addr) := by
  unfold fetchstr
  split
  · exact .inl ⟨rfl, fun j hj ↦ by bv_omega⟩
  · rcases fetchstrLoop_cases hsz addr (s := addr) (i := 0) (by simp) (by bv_omega) (by simp)
      with ⟨h, hnone⟩ | ⟨k, hk, h⟩
    · exact .inl ⟨h, hnone⟩
    · exact .inr ⟨k, hk, by rw [h]⟩

theorem fetchstr_some {addr pp : BitVec 32} (h : 0 ≤ (fetchstr u addr pp).1) :
    ∃ k : ℕ, StringAt u addr k ∧ fetchstr u addr pp = ((k : ℤ), addr) := by
  rcases fetchstr_cases hsz addr pp with ⟨hfail, -⟩ | h
  · omega
  · exact h

theorem fetchstr_nonneg_iff (addr pp : BitVec 32) :
    0 ≤ (fetchstr u addr pp).1 ↔
      ∃ k, addr.toNat + k < u.sz.toNat ∧ u.mem (addr + BitVec.ofNat 32 k) = 0 := by
  constructor
  · intro h
    obtain ⟨k, hk, -⟩ := fetchstr_some hsz h
    exact ⟨k, hk.inside, hk.null⟩
  · rintro ⟨k, hk, hnull⟩
    rcases fetchstr_cases hsz addr pp with ⟨-, hnone⟩ | ⟨l, -, h⟩
    · exact absurd hnull (hnone k hk)
    · rw [h]
      exact Int.natCast_nonneg l

theorem argstr_some {n : BitVec 32} {addr : ℤ} {pp : BitVec 32} (h : 0 ≤ (argstr u n addr pp).1) :
    Inside u (argAddr u n) 4 ∧ ∃ k : ℕ, StringAt u (word u (argAddr u n)) k ∧
      argstr u n addr pp = ((k : ℤ), word u (argAddr u n)) := by
  unfold argstr at h ⊢
  rcases argint_cases hsz n addr with hr | ⟨hin, hr⟩
  · simp [hr] at h
  · simp only [hr, BitVec.ofInt_toInt, Int.lt_irrefl, if_false] at h ⊢
    exact ⟨hin, fetchstr_some hsz h⟩

/-- The vector of argument pointers at `uargv`, with the null pointer that ends it. -/
structure ArgvAt (u : User) (uargv : BitVec 32) (i : ℕ) (argv : List (BitVec 32)) : Prop where
  inside : ∀ j ≤ argv.length, Inside u (uargv + 4 * BitVec.ofNat 32 (i + j)) 4
  entry : ∀ j (h : j < argv.length), word u (uargv + 4 * BitVec.ofNat 32 (i + j)) = argv[j]
  last : word u (uargv + 4 * BitVec.ofNat 32 (i + argv.length)) = 0
  string : ∀ arg ∈ argv, arg ≠ 0 ∧ ∃ k, StringAt u arg k

theorem sysExecLoop_some {uargv uarg : BitVec 32} {n i : ℕ}
    {argv : List (BitVec 32)} (h : sysExecLoop u uargv n (BitVec.ofNat 32 i) uarg = some argv) :
    argv.length < n ∧ ArgvAt u uargv i argv := by
  induction n generalizing i uarg argv with
  | zero => cases h
  | succ n ih =>
    rw [sysExecLoop] at h
    rcases fetchint_cases hsz (uargv + 4 * BitVec.ofNat 32 i) uarg.toInt with hr | ⟨hin, hr⟩
    · rw [hr] at h
      cases h
    simp only [hr, BitVec.ofInt_toInt, Int.lt_irrefl, if_false] at h
    split at h
    · rename_i hnull
      obtain rfl := (Option.some.inj h).symm
      refine ⟨Nat.succ_pos n, ?_, nofun, hnull, nofun⟩
      intro j hj
      obtain rfl := Nat.le_zero.mp hj
      exact hin
    · rename_i hnull
      split at h
      · cases h
      · rename_i hfound
        obtain ⟨k, hk, hstr⟩ := fetchstr_some hsz (Int.not_lt.mp hfound)
        obtain ⟨rest, hrest, rfl⟩ := Option.map_eq_some_iff.mp h
        have hsucc : BitVec.ofNat 32 i + 1 = BitVec.ofNat 32 (i + 1) := (BitVec.ofNat_add i 1).symm
        rw [hsucc] at hrest
        obtain ⟨hlen, hargv⟩ := ih hrest
        rw [hstr]
        have hnext (j : ℕ) : i + (j + 1) = i + 1 + j := by omega
        refine ⟨Nat.succ_lt_succ hlen, ?_, ?_, ?_, ?_⟩
        · rintro (_ | j) hj
          · exact hin
          · rw [hnext]
            exact hargv.inside j (Nat.le_of_succ_le_succ hj)
        · rintro (_ | j) hj
          · rfl
          · rw [hnext]
            exact hargv.entry j (Nat.lt_of_succ_lt_succ hj)
        · rw [List.length_cons, hnext]
          exact hargv.last
        · intro arg harg
          rcases List.mem_cons.mp harg with rfl | harg
          · exact ⟨hnull, k, hk⟩
          · exact hargv.string arg harg

theorem sysExec_some {p₀ v₀ w₀ path : BitVec 32}
    {argv : List (BitVec 32)} (h : sysExec u p₀ v₀ w₀ = some (path, argv)) :
    (Inside u (argAddr u 0) 4 ∧ path = word u (argAddr u 0) ∧ ∃ k, StringAt u path k) ∧
      Inside u (argAddr u 1) 4 ∧ argv.length < Vm.MAXARG ∧
      ArgvAt u (word u (argAddr u 1)) 0 argv := by
  unfold sysExec at h
  dsimp only at h
  split at h
  · cases h
  · rename_i hpath
    obtain ⟨hin, k, hk, hr⟩ := argstr_some hsz (Int.not_lt.mp hpath)
    rcases argint_cases hsz 1 v₀.toInt with hv | ⟨hv, hw⟩
    · rw [hv] at h
      cases h
    simp only [hr, hw, BitVec.ofInt_toInt, Int.lt_irrefl, if_false] at h
    obtain ⟨l, hl, heq⟩ := Option.map_eq_some_iff.mp h
    obtain ⟨rfl, rfl⟩ := Prod.mk.inj heq
    exact ⟨⟨hin, rfl, k, hk⟩, hv, sysExecLoop_some hsz hl⟩

end

/-- Whatever the arguments are, what a system call reads and certifies lies below `sz`. -/
theorem arguments_inside (u : User) (hsz : u.sz.toNat ≤ Vm.KERNBASE) :
    (∀ addr ip, 0 ≤ (u.fetchint addr ip).1 → Inside u addr 4) ∧
      (∀ n ip, 0 ≤ (u.argint n ip).1 → Inside u (argAddr u n) 4) ∧
      (∀ n i pp size, 0 ≤ (argptr u n i pp size).1 →
        Inside u (argAddr u n) 4 ∧ 0 ≤ size.toInt ∧
          Inside u (argptr u n i pp size).2 size.toInt.toNat) ∧
      (∀ addr pp, 0 ≤ (fetchstr u addr pp).1 ↔
        ∃ k, addr.toNat + k < u.sz.toNat ∧ u.mem (addr + BitVec.ofNat 32 k) = 0) ∧
      (∀ addr pp, 0 ≤ (fetchstr u addr pp).1 →
        ∃ k : ℕ, StringAt u addr k ∧ fetchstr u addr pp = ((k : ℤ), addr)) ∧
      (∀ n addr pp, 0 ≤ (argstr u n addr pp).1 →
        Inside u (argAddr u n) 4 ∧ ∃ k : ℕ, StringAt u (word u (argAddr u n)) k ∧
          argstr u n addr pp = ((k : ℤ), word u (argAddr u n))) ∧
      ∀ p₀ v₀ w₀ path argv, sysExec u p₀ v₀ w₀ = some (path, argv) →
        (Inside u (argAddr u 0) 4 ∧ path = word u (argAddr u 0) ∧ ∃ k, StringAt u path k) ∧
          Inside u (argAddr u 1) 4 ∧ argv.length < Vm.MAXARG ∧
          ArgvAt u (word u (argAddr u 1)) 0 argv := by
  refine ⟨fun addr ip h ↦ ?_, fun n ip h ↦ ?_, fun n i pp size h ↦ ?_,
    fetchstr_nonneg_iff hsz, fun addr pp ↦ fetchstr_some hsz, fun n addr pp ↦ argstr_some hsz,
    fun p₀ v₀ w₀ path argv ↦ sysExec_some hsz⟩
  · rcases fetchint_cases hsz addr ip with hr | ⟨hin, -⟩
    · simp [hr] at h
    · exact hin
  · rcases argint_cases hsz n ip with hr | ⟨hin, -⟩
    · simp [hr] at h
    · exact hin
  · rcases argptr_cases hsz n i pp size with hr | ⟨hin, hsize, hblock, hr⟩
    · simp [hr] at h
    · rw [hr]
      exact ⟨hin, hsize, hblock⟩

/-- The last bytes of the two pages are the string `aa`. -/
def twoPages : User := ⟨0x1ff0, 0x2000, fun a ↦ if a = 0x1ffd ∨ a = 0x1ffe then 97 else 0⟩

theorem arguments_inside_twoPages :
    0 ≤ (argptr twoPages 0 0 0 0x2000).1 ∧ Inside twoPages (argptr twoPages 0 0 0 0x2000).2 0x2000 ∧
      StringAt twoPages 0x1ffd 2 ∧ fetchstr twoPages 0x1ffd 0 = (2, 0x1ffd) := by
  obtain ⟨-, -, hptr, hnonneg, hstr, -⟩ := arguments_inside twoPages (by decide)
  have hok : 0 ≤ (argptr twoPages 0 0 0 0x2000).1 := by decide
  obtain ⟨k, hk, he⟩ := hstr 0x1ffd 0 ((hnonneg 0x1ffd 0).mpr ⟨2, by decide, rfl⟩)
  have hle : k ≤ 2 := Nat.not_lt.mp fun hlt ↦ hk.first 2 hlt rfl
  have hnull := hk.null
  obtain rfl : k = 2 := by
    interval_cases k
    · exact absurd hnull (by decide)
    · exact absurd hnull (by decide)
    · rfl
  exact ⟨hok, (hptr 0 0 0 0x2000 hok).2.2, hk, he⟩

end Xv6Bfs.Syscall

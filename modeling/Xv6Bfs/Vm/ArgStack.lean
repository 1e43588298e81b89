import Xv6Bfs.Vm.Image

namespace Xv6Bfs.Vm

open Lib.Execution Lib.Bytes Function

variable {data n sp va k v : ℕ} {img : Image} {m m' : Mem} {st : Stack} {argv : List (List UInt8)}
  {s l : List UInt8}

def Pgdir.User (pgdir : Pgdir) (v : ℕ) : Prop := ∃ e, pgdir.tr v = some e ∧ e.u = true

def Image.Writes (img : Image) (m m' : Mem) : Prop :=
  ∀ q, m'.phys q ≠ m.phys q →
    ∃ v e, v * PGSIZE < img.sz ∧ img.pgdir.tr v = some e ∧ e.u = true ∧ e.ppn = q

namespace Image.Writes

theorem refl : img.Writes m m := fun _ h ↦ absurd rfl h

theorem trans {m₁ m₂ m₃ : Mem} (h : img.Writes m₁ m₂) (h' : img.Writes m₂ m₃) :
    img.Writes m₁ m₃ := by
  intro q hq
  by_cases h₂ : m₃.phys q = m₂.phys q
  · rw [h₂] at hq
    exact h q hq
  · exact h' q h₂

theorem write {v off : ℕ} {e : Pte} (hv : v * PGSIZE < img.sz)
    (he : img.pgdir.tr v = some e) (hu : e.u = true) : img.Writes m (m.write e.ppn off l) := by
  intro q hq
  refine ⟨v, e, hv, he, hu, ?_⟩
  by_contra hne
  exact hq (update_of_ne (Ne.symm hne) _ _)

end Image.Writes

theorem Pgdir.uva2ka_of_tr {pgdir : Pgdir} {e : Pte} (h : pgdir.tr v = some e) :
    pgdir.uva2ka (v * PGSIZE) = .ok (if e.u then some e.ppn else none) := by
  rw [Pgdir.tr] at h
  rw [Pgdir.uva2ka, Option.join_eq_some_iff.mp h]

structure InStack (n sp : ℕ) : Prop where
  lo : (n - 1) * PGSIZE ≤ sp
  hi : sp ≤ n * PGSIZE
  aligned : sp % 4 = 0

theorem InStack.lt (h : InStack n sp) (hn : n < 2 ^ 19) : sp < 2 ^ 32 := by
  have := h.hi
  simp only [PGSIZE] at this
  omega

theorem InStack.down {sp sp' k : ℕ} (h : InStack n sp) (hsp : sp' = (sp - k) / 4 * 4)
    (hge : (n - 1) * PGSIZE ≤ sp') : InStack n sp' := by
  have := h.hi
  exact ⟨hge, by omega, by omega⟩

theorem stack_page : n * PGSIZE - PGSIZE ≤ sp ↔ (n - 1) * PGSIZE ≤ sp := by
  rw [Nat.sub_mul, Nat.one_mul]

theorem argc_snoc {st' : Stack} (h : st'.ustack = st.ustack) :
    Stack.argc { st' with ustack := st'.ustack ++ [sp] } = st.argc + 1 := by
  simp [Stack.argc, h]

theorem sub32_of_le {a b : ℕ} (hle : b ≤ a) (ha : a < 2 ^ 32) : sub32 a b = a - b := by
  rw [sub32]
  omega

/-- No argument is longer than what is left below the stack pointer. The pushing of an argument that
does not fit in the stack page is the last one. -/
def Fits (sz : ℕ) : (sp : ℕ) → List (List UInt8) → Prop
  | _, [] => True
  | sp, s :: argv => s.length + 1 ≤ sp ∧
    (sz - PGSIZE ≤ (sp - (s.length + 1)) / 4 * 4 → Fits sz ((sp - (s.length + 1)) / 4 * 4) argv)

namespace IsImage

variable (hi : IsImage data n img)
include hi

theorem user_iff (hv : v < n) : img.pgdir.User v ↔ v + 2 ≠ n := by
  obtain ⟨p, hp⟩ := hi.user v hv
  simp [Pgdir.User, hp]

theorem copyoutLoop_ensures {fuel va : ℕ} {buf : List UInt8} (hend : va + buf.length ≤ n * PGSIZE)
    (hfuel : buf.length < fuel) :
    Ensures (fun r ↦ img.Writes m r.2 ∧ (r.1 = true ↔
        ∀ a, va ≤ a → a < va + buf.length → img.pgdir.User (a / PGSIZE)))
      (fun _ ↦ False) (img.pgdir.copyoutLoop fuel va buf m) := by
  induction fuel generalizing va buf m with
  | zero => omega
  | succ fuel ih =>
    rw [Pgdir.copyoutLoop]
    by_cases hlen : buf.length > 0
    · have hn := hi.lt
      have hpage : va / PGSIZE < n := by
        simp only [PGSIZE] at hend ⊢
        omega
      obtain ⟨p, hp⟩ := hi.user _ hpage
      have hva : img.pgdir.uva2ka (PGROUNDDOWN va) = _ := Pgdir.uva2ka_of_tr hp
      rw [if_pos hlen]
      dsimp only
      rw [hva, ok_bind]
      by_cases hguard : va / PGSIZE + 2 = n
      · simp only [hguard, ne_eq, not_true_eq_false, decide_false, Bool.false_eq_true, if_false]
        refine ⟨.refl, ?_⟩
        simp only [Bool.false_eq_true, false_iff]
        intro hall
        exact (hi.user_iff hpage).mp (hall va (Nat.le_refl _) (by omega)) hguard
      · simp only [hguard, ne_eq, not_false_eq_true, decide_true, if_true]
        -- the bytes up to the end of the page, and then the rest
        have hround : PGROUNDDOWN va = va / PGSIZE * PGSIZE := rfl
        have hnext : (PGROUNDDOWN va + PGSIZE) % 2 ^ 32 = (va / PGSIZE + 1) * PGSIZE := by
          simp only [hround, PGSIZE] at hend hpage ⊢
          omega
        rw [hnext]
        generalize hk : min (PGSIZE - (va - PGROUNDDOWN va)) buf.length = k
        have hdrop : (buf.drop k).length = buf.length - k := List.length_drop
        have hrest : k = buf.length ∨ (va / PGSIZE + 1) * PGSIZE = va + k := by
          simp only [hround, PGSIZE] at hk ⊢
          omega
        have hwithin : va + k ≤ (va / PGSIZE + 1) * PGSIZE ∧ 0 < k ∧ k ≤ buf.length := by
          simp only [hround, PGSIZE] at hk ⊢
          omega
        have hle : (va / PGSIZE + 1) * PGSIZE ≤ n * PGSIZE := Nat.mul_le_mul_right _ hpage
        refine (ih (by omega) (by omega)).mono ?_
        rintro r ⟨hw, hr⟩
        refine ⟨?_, ?_⟩
        · refine Image.Writes.trans (.write ?_ hp (decide_eq_true hguard)) hw
          rw [hi.sz]
          exact Nat.mul_lt_mul_of_pos_right hpage (by decide)
        · rw [hr, hdrop]
          refine ⟨fun hall a h1 h2 ↦ ?_, fun hall a h1 h2 ↦ hall a (by omega) (by omega)⟩
          by_cases ha : a < va + k
          · have hsame : a / PGSIZE = va / PGSIZE := by
              simp only [PGSIZE] at *
              omega
            rw [hsame]
            exact (hi.user_iff hpage).mpr hguard
          · exact hall a (by omega) (by omega)
    · rw [if_neg hlen]
      refine ⟨.refl, ?_⟩
      simp only [true_iff]
      intro a h1 h2
      omega

theorem push_ensures (hend : va + l.length ≤ n * PGSIZE) :
    Ensures (fun r ↦ img.Writes st.mem r.2.mem ∧ r.2.sp = va ∧ r.2.ustack = st.ustack ∧
        r.2.pushes = st.pushes ++ [⟨st.sp, k, va⟩] ∧
        (r.1 = true ↔ ∀ a, va ≤ a → a < va + l.length → img.pgdir.User (a / PGSIZE)))
      (fun _ ↦ False) (st.push img.pgdir k va l) := by
  refine (hi.copyoutLoop_ensures hend (Nat.lt_succ_self _)).bind ?_
  rintro ⟨copied, m₁⟩ ⟨hw, hr⟩
  exact ⟨hw, rfl, rfl, rfl, hr⟩

theorem stack_iff (hst : InStack n sp) (hle : k ≤ sp) :
    (∀ a, (sp - k) / 4 * 4 ≤ a → a < (sp - k) / 4 * 4 + k → img.pgdir.User (a / PGSIZE)) ↔
      (n - 1) * PGSIZE ≤ (sp - k) / 4 * 4 := by
  have h2 := hi.two_le
  have hlo := hst.lo
  have hhi := hst.hi
  have hal := hst.aligned
  constructor
  · intro hall
    by_contra hlt
    have hin : (n - 1) * PGSIZE - 4 < (sp - k) / 4 * 4 + k ∧ (sp - k) / 4 * 4 ≤ (n - 1) * PGSIZE - 4 := by
      simp only [PGSIZE] at *
      omega
    have hpage : ((n - 1) * PGSIZE - 4) / PGSIZE = n - 2 := by
      simp only [PGSIZE]
      omega
    have huser := hall _ hin.2 hin.1
    rw [hpage, hi.user_iff (by omega)] at huser
    omega
  · intro hge a h3 h4
    have hpage : a / PGSIZE = n - 1 := by
      simp only [PGSIZE] at *
      omega
    rw [hpage, hi.user_iff (by omega)]
    omega

theorem pushArg_ensures (hst : InStack n st.sp) (hlen : s.length + 1 ≤ st.sp) :
    Ensures (fun r ↦ img.Writes st.mem r.2.mem ∧
        r.2.sp = (st.sp - (s.length + 1)) / 4 * 4 ∧ r.2.ustack = st.ustack ∧
        r.2.pushes = st.pushes ++ [⟨st.sp, s.length + 1, (st.sp - (s.length + 1)) / 4 * 4⟩] ∧
        (r.1 = true ↔ (n - 1) * PGSIZE ≤ (st.sp - (s.length + 1)) / 4 * 4)) (fun _ ↦ False)
      (st.push img.pgdir (s.length + 1) (sub32 st.sp (s.length + 1) / 4 * 4) (s ++ [0])) := by
  have hnul : (s ++ [0]).length = s.length + 1 := by simp
  have hend : (st.sp - (s.length + 1)) / 4 * 4 + (s ++ [0]).length ≤ n * PGSIZE := by
    have := hst.hi
    omega
  rw [sub32_of_le hlen (hst.lt hi.lt)]
  refine (hi.push_ensures hend).mono ?_
  rintro r ⟨hw, hsp, hustack, hpushes, hr⟩
  rw [hnul, hi.stack_iff hst hlen] at hr
  exact ⟨hw, hsp, hustack, hpushes, hr⟩

theorem pushArgs_ensures (hst : InStack n st.sp) (hargc : st.argc ≤ MAXARG)
    (hfits : Fits (n * PGSIZE) st.sp (argv.take (MAXARG - st.argc))) :
    Ensures (fun r ↦ img.Writes st.mem r.2.mem ∧ (∀ c ∈ r.2.pushes, c ∈ st.pushes ∨ ¬ c.Wraps) ∧
        (r.1 = true → InStack n r.2.sp ∧ r.2.argc ≤ MAXARG))
      (fun _ ↦ False) (pushArgs img.pgdir argv st) := by
  induction argv generalizing st with
  | nil => exact ⟨.refl, fun c hc ↦ .inl hc, fun _ ↦ ⟨hst, hargc⟩⟩
  | cons s argv ih =>
    rw [pushArgs]
    by_cases hfull : st.argc ≥ MAXARG
    · rw [if_pos hfull]
      exact ⟨.refl, fun c hc ↦ .inl hc, fun h ↦ by cases h⟩
    · rw [if_neg hfull]
      have hsucc : MAXARG - st.argc = MAXARG - (st.argc + 1) + 1 := by omega
      rw [hsucc, List.take_succ_cons] at hfits
      obtain ⟨hlen, hnext⟩ := hfits
      refine (hi.pushArg_ensures hst hlen).bind ?_
      rintro ⟨copied, st₁⟩ ⟨hw, hsp, hustack, hpushes, hr⟩
      dsimp only at hw hsp hustack hpushes hr ⊢
      have hnew : ∀ c ∈ st₁.pushes, c ∈ st.pushes ∨ ¬ c.Wraps := by
        intro c hc
        rw [hpushes, List.mem_append, List.mem_singleton] at hc
        refine hc.imp_right ?_
        rintro rfl
        exact Nat.not_lt.mpr hlen
      cases copied with
      | false => exact ⟨hw, hnew, fun h ↦ by cases h⟩
      | true =>
        have hge : (n - 1) * PGSIZE ≤ st₁.sp := by
          rw [hsp]
          exact hr.mp rfl
        rw [← hsp] at hnext
        have hfits₁ := hnext (stack_page.mpr hge)
        rw [← argc_snoc hustack] at hfits₁
        refine (@ih { st₁ with ustack := st₁.ustack ++ [_] } (hst.down hsp hge) ?_ hfits₁).mono ?_
        · rw [argc_snoc hustack]
          omega
        · rintro r ⟨hw', hp', hr'⟩
          refine ⟨hw.trans hw', fun c hc ↦ ?_, hr'⟩
          rcases hp' c hc with hc | hc
          · exact hnew c hc
          · exact .inr hc

omit hi in
theorem push_pushes :
    Ensures (fun r ↦ r.2.pushes = st.pushes ++ [⟨st.sp, k, va⟩]) (fun _ ↦ True)
      (st.push img.pgdir k va l) :=
  (ensures_true _).bind (fun _ _ ↦ rfl)

omit hi in
theorem pushArgs_pushes :
    Ensures (fun r ↦ st.pushes ⊆ r.2.pushes) (fun _ ↦ True) (pushArgs img.pgdir argv st) := by
  induction argv generalizing st with
  | nil => exact fun c hc ↦ hc
  | cons s argv ih =>
    rw [pushArgs]
    split
    · exact fun c hc ↦ hc
    · refine push_pushes.bind ?_
      rintro ⟨copied, st₁⟩ hp
      have hsub : st.pushes ⊆ st₁.pushes := by
        rw [hp]
        exact List.subset_append_left _ _
      cases copied with
      | false => exact hsub
      | true => exact ih.mono (fun r hr ↦ List.Subset.trans hsub hr)

theorem fits_of_pushArgs (hst : InStack n st.sp) :
    Ensures (fun r ↦ (∀ c ∈ r.2.pushes, ¬ c.Wraps) →
        Fits (n * PGSIZE) st.sp (argv.take (MAXARG - st.argc)))
      (fun _ ↦ True) (pushArgs img.pgdir argv st) := by
  induction argv generalizing st with
  | nil =>
    intro _
    rw [List.take_nil]
    trivial
  | cons s argv ih =>
    rw [pushArgs]
    by_cases hfull : st.argc ≥ MAXARG
    · rw [if_pos hfull, Nat.sub_eq_zero_of_le hfull]
      exact fun _ ↦ trivial
    · have hsucc : MAXARG - st.argc = MAXARG - (st.argc + 1) + 1 := by omega
      rw [if_neg hfull, hsucc, List.take_succ_cons]
      by_cases hlen : s.length + 1 ≤ st.sp
      · refine ((hi.pushArg_ensures hst hlen).weaken (fun _ ↦ False.elim)).bind ?_
        rintro ⟨copied, st₁⟩ ⟨-, hsp, hustack, -, hr⟩
        dsimp only at hsp hustack hr ⊢
        rw [Fits, ← hsp]
        cases copied with
        | false =>
          refine fun _ ↦ ⟨hlen, fun hge ↦ ?_⟩
          rw [hsp] at hge
          exact absurd (hr.mpr (stack_page.mp hge)) (by simp)
        | true =>
          have hge : (n - 1) * PGSIZE ≤ st₁.sp := by
            rw [hsp]
            exact hr.mp rfl
          refine (@ih { st₁ with ustack := st₁.ustack ++ [_] } (hst.down hsp hge)).mono ?_
          refine fun r hfits hno ↦ ⟨hlen, fun _ ↦ ?_⟩
          rw [argc_snoc hustack] at hfits
          exact hfits hno
      · -- the pointer wraps, and the history says so
        refine push_pushes.bind ?_
        rintro ⟨copied, st₁⟩ hp
        have hmem : (⟨st.sp, s.length + 1, sub32 st.sp (s.length + 1) / 4 * 4⟩ : Push) ∈ st₁.pushes := by
          rw [hp]
          exact List.mem_append_right _ List.mem_cons_self
        have hwraps : Push.Wraps ⟨st.sp, s.length + 1, sub32 st.sp (s.length + 1) / 4 * 4⟩ :=
          Nat.lt_of_not_le hlen
        cases copied with
        | false => exact fun hno ↦ absurd hwraps (hno _ hmem)
        | true => exact pushArgs_pushes.mono (fun r hr hno ↦ absurd hwraps (hno _ (hr hmem)))

omit hi in
theorem length_frame : (st.frame.flatMap (toBytes 4)).length = (3 + st.argc + 1) * 4 := by
  have hwords (l : List ℕ) : (l.flatMap (toBytes 4)).length = l.length * 4 := by
    induction l with
    | nil => rfl
    | cons a l ih =>
      rw [List.flatMap_cons, List.length_append, length_toBytes, ih, List.length_cons]
      omega
  rw [hwords, Stack.frame, Stack.argc]
  simp only [List.length_append, List.length_cons, List.length_nil]

theorem inStack : InStack n img.sz := by
  rw [hi.sz]
  refine ⟨Nat.mul_le_mul_right _ (Nat.sub_le n 1), Nat.le_refl _, ?_⟩
  simp only [PGSIZE]
  omega

theorem pushStack_ensures (hfits : Fits img.sz img.sz (argv.take MAXARG)) :
    Ensures (fun r ↦ (∀ c ∈ r.2.pushes, ¬ c.Wraps) ∧ img.Writes m r.2.mem) (fun _ ↦ False)
      (pushStack img.pgdir img.sz argv m) := by
  have hst : InStack n (Stack.mk img.sz [] m []).sp := hi.inStack
  have hfits₀ : Fits (n * PGSIZE) (Stack.mk img.sz [] m []).sp
      (argv.take (MAXARG - (Stack.mk img.sz [] m []).argc)) := by
    rw [← hi.sz]
    exact hfits
  refine (hi.pushArgs_ensures hst (Nat.zero_le _) hfits₀).bind ?_
  rintro ⟨pushed, st⟩ ⟨hw, hp, hr⟩
  have hnew : ∀ c ∈ st.pushes, ¬ c.Wraps :=
    fun c hc ↦ (hp c hc).resolve_left (fun h ↦ by cases h)
  cases pushed with
  | false => exact ⟨hnew, hw⟩
  | true =>
    obtain ⟨hst₁, hargc⟩ := hr rfl
    dsimp only at hst₁ hargc
    -- the frame is shorter than a page
    have hle : (3 + st.argc + 1) * 4 ≤ st.sp := by
      have hlo := hst₁.lo
      have h2 := hi.two_le
      simp only [MAXARG, PGSIZE] at hargc hlo
      omega
    have hend : st.sp - (3 + st.argc + 1) * 4 + (st.frame.flatMap (toBytes 4)).length ≤ n * PGSIZE := by
      have hhi := hst₁.hi
      rw [length_frame]
      omega
    dsimp only
    rw [if_pos rfl, sub32_of_le hle (hst₁.lt hi.lt)]
    refine (hi.push_ensures hend).mono ?_
    rintro r ⟨hw', -, -, hpushes, -⟩
    refine ⟨fun c hc ↦ ?_, hw.trans hw'⟩
    rw [hpushes, List.mem_append, List.mem_singleton] at hc
    rcases hc with hc | rfl
    · exact hnew c hc
    · exact Nat.not_lt.mpr hle

theorem fits_of_pushStack :
    Ensures (fun r ↦ (∀ c ∈ r.2.pushes, ¬ c.Wraps) → Fits img.sz img.sz (argv.take MAXARG))
      (fun _ ↦ True) (pushStack img.pgdir img.sz argv m) := by
  have hst : InStack n (Stack.mk img.sz [] m []).sp := hi.inStack
  refine (hi.fits_of_pushArgs hst).bind ?_
  rintro ⟨pushed, st⟩ hfits
  rw [← hi.sz] at hfits
  cases pushed with
  | false => exact hfits
  | true =>
    refine push_pushes.mono (fun r hr hno ↦ hfits (fun c hc ↦ hno c ?_))
    rw [hr]
    exact List.mem_append_left _ hc

theorem pushStack_nullPte (hole : ∀ v, 0x8E000 ≤ v → v < 0xFE000 → ¬ img.pgdir.HasTable v)
    (hlo : img.sz + 2 ^ 25 ≤ s.length) (hhi : s.length < img.sz + 2 ^ 30) :
    pushStack img.pgdir img.sz (s :: argv) m = .error .nullPte := by
  have hsz := hi.sz
  have hn := hi.lt
  have hnone : img.pgdir.walk (PGROUNDDOWN (sub32 img.sz (s.length + 1) / 4 * 4)) = none := by
    by_contra hno
    refine hole (sub32 img.sz (s.length + 1) / 4 * 4 / PGSIZE) ?_ ?_ hno
    · simp only [sub32, PGSIZE] at *
      omega
    · simp only [sub32, PGSIZE] at *
      omega
  have hcopy : img.pgdir.copyout (sub32 img.sz (s.length + 1) / 4 * 4) (s ++ [0]) m =
      .error .nullPte := by
    rw [Pgdir.copyout, Pgdir.copyoutLoop, if_pos (by simp)]
    dsimp only
    rw [Pgdir.uva2ka, hnone]
    rfl
  have hargc : ¬ Stack.argc ⟨img.sz, [], m, []⟩ ≥ MAXARG :=
    Nat.not_le.mpr (show 0 < MAXARG by decide)
  rw [pushStack, pushArgs, if_neg hargc]
  dsimp only
  rw [Stack.push, hcopy]
  rfl

end IsImage

/-- What is asked of the argument loop and the final push: they come to an end without the use of a
null pointer, no stack pointer wraps, and only pages of the image that are mapped with `PTE_P` and
`PTE_U` are written. -/
def StackSafe (img : Image) (argv : List (List UInt8)) (m : Mem) : Prop :=
  ∃ r, pushStack img.pgdir img.sz argv m = .ok r ∧
    (∀ c ∈ r.2.pushes, ¬ c.Wraps) ∧ img.Writes m r.2.mem

theorem exec_stack_safe_iff {M : Machine} {data : ℕ} {ip : Inode} {m m' : Mem} {img : Image}
    (argv : List (List UInt8)) (hl : Linked data) (hfree : ∀ p ∈ m.freelist, Mem.Valid M p)
    (hload : loadImage M data ip m = .ok (some img, m')) :
    StackSafe img argv m' ↔ Fits img.sz img.sz (argv.take MAXARG) := by
  obtain ⟨n, hi⟩ := (loadImage_ensures hl hfree).of_ok hload img rfl
  constructor
  · rintro ⟨r, hr, hno, -⟩
    exact hi.fits_of_pushStack.of_ok hr hno
  · intro hfits
    obtain ⟨r, hr, hno, hw⟩ := (hi.pushStack_ensures hfits).exists_ok
    exact ⟨r, hr, hno, hw⟩

def bareProgram : Inode where
  readi off n := ((toBytes 4 ELF_MAGIC ++ List.replicate 48 0).drop off).take n
  readi_le _ _ := List.length_take_le _ _

def bigTask : Task where
  sz := 12 * 2 ^ 22
  pgdir :=
    { page := 2000
      pde := fun i ↦ if i < 12 then
          some ⟨2001 + i, fun j ↦ some ⟨30000 + i * 1024 + j, true, true⟩⟩
        else none }
  name := []
  eip := 0
  esp := 0

def manyPages : Mem := ⟨List.range' 3000 100, 0, fun _ _ ↦ 0⟩

def smallData : ℕ := KERNLINK + 0x8000

theorem linked_small : Linked smallData := by
  constructor <;> decide

theorem manyPages_valid : ∀ p ∈ manyPages.freelist, Mem.Valid smallMachine p := by
  decide

theorem bigTask_maps : Maps bigTask.sz bigTask.pgdir := by
  rw [Maps.iff (by decide)]
  intro v hv
  have hpages : pages bigTask.sz = 12 * 1024 := by decide
  rw [hpages, Pgdir.tr, Pgdir.walk_page, bigTask]
  by_cases hd : v / 1024 % 1024 < 12
  · simp only [hd, if_true, Option.map_some, Option.join_some]
    simp only [ne_eq, reduceCtorEq, not_false_eq_true, true_iff]
    omega
  · simp only [hd, if_false, Option.map_none, Option.join_none]
    simp only [ne_eq, not_true_eq_false, false_iff]
    omega

theorem loadImage_bareProgram : ∃ img m',
    loadImage smallMachine smallData bareProgram manyPages = .ok (some img, m') ∧
      IsImage smallData 2 img ∧ ∀ v, 0x8E000 ≤ v → v < 0xFE000 → ¬ img.pgdir.HasTable v := by
  refine loadImage_bare linked_small manyPages_valid (by decide) (by decide) (by decide) ?_
  rintro (⟨i, hi⟩ | hs)
  · cases hi
  · exact absurd hs (by decide)

theorem exec_stack_safe_iff_two : ∃ img m',
    loadImage smallMachine smallData bareProgram manyPages = .ok (some img, m') ∧
      (StackSafe img [[97], [98]] m' ↔ Fits img.sz img.sz [[97], [98]]) ∧
      StackSafe img [[97], [98]] m' := by
  obtain ⟨img, m', hload, hi, -⟩ := loadImage_bareProgram
  have hiff := exec_stack_safe_iff [[97], [98]] linked_small manyPages_valid hload
  refine ⟨img, m', hload, hiff, hiff.mpr ?_⟩
  rw [hi.sz]
  exact ⟨by decide, fun _ ↦ ⟨by decide, fun _ ↦ trivial⟩⟩

/-- A process of 48 megabytes passes one string of 40 million characters. -/
theorem exec_long_argument :
    Maps bigTask.sz bigTask.pgdir ∧ (List.replicate 40000000 (97 : UInt8)).length < bigTask.sz ∧
    (∃ img m', loadImage smallMachine smallData bareProgram manyPages = .ok (some img, m') ∧
      ¬ StackSafe img [List.replicate 40000000 97] m') ∧
    exec smallMachine smallData (fun _ ↦ some bareProgram) [47] [List.replicate 40000000 97] bigTask
      manyPages = .error .nullPte := by
  obtain ⟨img, m', hload, hi, hole⟩ := loadImage_bareProgram
  have hlen : (List.replicate 40000000 (97 : UInt8)).length = 40000000 := List.length_replicate
  have hpush : pushStack img.pgdir img.sz [List.replicate 40000000 97] m' = .error .nullPte := by
    refine hi.pushStack_nullPte hole ?_ ?_ <;> rw [hi.sz, hlen] <;> decide
  refine ⟨bigTask_maps, ?_, ⟨img, m', hload, ?_⟩, ?_⟩
  · rw [hlen]
    decide
  · rintro ⟨r, hr, -⟩
    rw [hpush] at hr
    cases hr
  · rw [exec]
    dsimp only
    rw [hload, ok_bind]
    dsimp only
    rw [hpush]
    rfl

end Xv6Bfs.Vm

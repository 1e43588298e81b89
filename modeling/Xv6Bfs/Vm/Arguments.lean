import Xv6Bfs.Vm.Loading

namespace Xv6Bfs.Vm

open Lib.Execution Lib.Bytes Function

variable {M : Machine} {data n va k : ℕ} {pgdir : Pgdir} {img : Image} {m m' : Mem} {st st' : Stack}
  {argv : List (List UInt8)} {s l : List UInt8}

def slotSize (s : List UInt8) : ℕ := (s.length + 1 + 3) / 4 * 4

def stringBytes (argv : List (List UInt8)) : ℕ := (argv.map slotSize).sum

def stackBytes (argv : List (List UInt8)) : ℕ := stringBytes argv + 4 * (argv.length + 4)

def addresses : (sp : ℕ) → List (List UInt8) → List ℕ
  | _, [] => []
  | sp, s :: argv => (sp - slotSize s) :: addresses (sp - slotSize s) argv

theorem stringBytes_cons : stringBytes (s :: argv) = slotSize s + stringBytes argv := by
  rw [stringBytes, List.map_cons, List.sum_cons, stringBytes]

theorem lt_slotSize : s.length < slotSize s := by
  rw [slotSize]
  omega

theorem Pgdir.copyout_page {v p : ℕ} {w : Bool} (he : pgdir.tr v = some ⟨p, w, true⟩)
    (hlo : v * PGSIZE ≤ va) (hhi : va + l.length ≤ (v + 1) * PGSIZE) (hpos : 0 < l.length) :
    pgdir.copyout va l m = .ok (true, m.write p (va - v * PGSIZE) l) := by
  have hdown : PGROUNDDOWN va = v * PGSIZE := by
    simp only [PGROUNDDOWN, PGSIZE] at hlo hhi ⊢
    omega
  have hmin : min (PGSIZE - (va - v * PGSIZE)) l.length = l.length := by
    rw [Nat.succ_mul] at hhi
    omega
  rw [Pgdir.copyout, Pgdir.copyoutLoop, if_pos hpos]
  dsimp only
  rw [hdown, Pgdir.uva2ka_of_tr he, ok_bind]
  simp only [if_true, hmin, List.drop_length, List.take_length]
  cases hl : l.length with
  | zero => omega
  | succ k => rfl

structure Image.Stores (img : Image) (n va : ℕ) (l : List UInt8) (m m' : Mem) : Prop where
  reads : img.pgdir.Reads m' va l
  outside : ∀ a, a < KERNBASE → a < va ∨ va + l.length ≤ a → img.pgdir.byte m' a = img.pgdir.byte m a
  others : ∀ v e, v < 2 ^ 19 → v + 1 ≠ n → img.pgdir.tr v = some e → m'.phys e.ppn = m.phys e.ppn

namespace IsImage

variable (hi : IsImage data n img)
include hi

theorem push_page (st : Stack) (k : ℕ) (hs : img.pgdir.Separate) (hlo : (n - 1) * PGSIZE ≤ va)
    (hhi : va + l.length ≤ n * PGSIZE) (hpos : 0 < l.length) :
    ∃ st', st.push img.pgdir k va l = .ok (true, st') ∧ st'.sp = va ∧ st'.ustack = st.ustack ∧
      img.Stores n va l st.mem st'.mem := by
  have h2 := hi.two_le
  have hlt := hi.lt
  obtain ⟨p, hp⟩ := hi.user (n - 1) (by omega)
  rw [decide_eq_true (by omega)] at hp
  have hsucc : n - 1 + 1 = n := by omega
  have hcopy : img.pgdir.copyout va l st.mem = _ :=
    Pgdir.copyout_page hp hlo (by rwa [hsucc]) hpos
  have hwithin : va - (n - 1) * PGSIZE + l.length ≤ PGSIZE := by
    rw [← hsucc, Nat.succ_mul] at hhi
    omega
  have hva : (n - 1) * PGSIZE + (va - (n - 1) * PGSIZE) = va := by omega
  have hpush : st.push img.pgdir k va l = .ok (true, { st with
      sp := va, mem := st.mem.write p (va - (n - 1) * PGSIZE) l,
      pushes := st.pushes ++ [⟨st.sp, k, va⟩] }) := by
    rw [Stack.push, hcopy]
    rfl
  refine ⟨_, hpush, rfl, rfl, ?_, fun a ha hout ↦ ?_, fun v e hv hne he ↦ ?_⟩
  · have hreads := Pgdir.reads_write (m := st.mem) hs (by omega) hp rfl hwithin
    rwa [hva] at hreads
  · rw [Pgdir.byte_write hs (by omega) hp rfl hwithin ha, hva, if_neg (by omega)]
  · refine update_of_ne (fun heq ↦ hne ?_) _ _
    have := hs v (n - 1) e _ hv (by omega) he hp heq
    omega

theorem user_lt {v : ℕ} {e : Pte} (hv : v < 2 ^ 20) (he : img.pgdir.tr v = some e)
    (hu : e.u = true) : v < 2 ^ 19 := by
  by_contra hno
  have hlt := hi.lt
  rw [hi.rest v (by omega) hv] at he
  rw [kernelEntry_user he] at hu
  cases hu

theorem copyout_last (hva : va / PGSIZE = 0xFFFFF) (hpos : 0 < l.length) :
    img.pgdir.copyout va l m = .ok (false, m) := by
  have hn := hi.lt
  have htr : img.pgdir.tr 0xFFFFF = kernelEntry data 0xFFFFF := hi.rest _ (by omega) (by decide)
  cases he : kernelEntry data 0xFFFFF with
  | none =>
    rw [kernelEntry, List.findSome?_eq_none_iff] at he
    have hentry := he ⟨DEVSPACE, DEVSPACE, 0, true⟩ (by simp [kmap])
    rw [covers_devices.entry, if_pos (by decide)] at hentry
    cases hentry
  | some e =>
    rw [he] at htr
    have hdown : PGROUNDDOWN va = 0xFFFFF * PGSIZE := by rw [PGROUNDDOWN, hva]
    rw [Pgdir.copyout, Pgdir.copyoutLoop, if_pos hpos]
    dsimp only
    rw [hdown, Pgdir.uva2ka_of_tr htr, ok_bind, kernelEntry_user he]
    rfl

omit hi in
theorem copyoutLoop_user {fuel : ℕ} (hfuel : l.length < fuel) (hva : va < 2 ^ 32) :
    Ensures (fun r ↦ r.1 = true → ∀ a, a < 2 ^ 32 → va ≤ a → a < va + l.length →
        pgdir.User (a / PGSIZE))
      (fun e ↦ e = .nullPte) (pgdir.copyoutLoop fuel va l m) := by
  induction fuel generalizing va l m with
  | zero => omega
  | succ fuel ih =>
    rw [Pgdir.copyoutLoop]
    by_cases hpos : l.length > 0
    swap
    · rw [if_neg hpos]
      intro _ a _ hle hlt
      omega
    have hdown : PGROUNDDOWN va = va / PGSIZE * PGSIZE := rfl
    rw [if_pos hpos]
    dsimp only
    rw [hdown]
    cases hw : pgdir.walk (va / PGSIZE * PGSIZE) with
    | none =>
      rw [Pgdir.uva2ka, hw]
      rfl
    | some x =>
      cases x with
      | none =>
        rw [Pgdir.uva2ka, hw]
        exact fun h ↦ absurd h Bool.false_ne_true
      | some e =>
        have he : pgdir.tr (va / PGSIZE) = some e := by
          rw [Pgdir.tr, hw]
          rfl
        rw [Pgdir.uva2ka_of_tr he, ok_bind]
        cases hu : e.u with
        | false => exact fun h ↦ absurd h Bool.false_ne_true
        | true =>
          simp only [if_true]
          generalize hj : min (PGSIZE - (va - va / PGSIZE * PGSIZE)) l.length = j
          have hdrop : (l.drop j).length = l.length - j := List.length_drop
          have hjpos : 0 < j := by
            simp only [PGSIZE] at hj
            omega
          refine (ih (by omega) (Nat.mod_lt _ (by decide))).mono (fun r hr htrue a ha hle hlt ↦ ?_)
          by_cases hpage : a / PGSIZE = va / PGSIZE
          · rw [hpage]
            exact ⟨e, he, hu⟩
          · refine hr htrue a ha ?_ ?_
            · simp only [PGSIZE] at hpage ⊢
              omega
            · rw [hdrop]
              simp only [PGSIZE] at hpage hj ⊢
              omega

omit hi in
theorem copyout_user (hva : va < 2 ^ 32) :
    Ensures (fun r ↦ r.1 = true → ∀ a, a < 2 ^ 32 → va ≤ a → a < va + l.length →
        pgdir.User (a / PGSIZE))
      (fun e ↦ e = .nullPte) (pgdir.copyout va l m) :=
  copyoutLoop_user (Nat.lt_succ_self _) hva

end IsImage

structure Pushed (n : ℕ) (img : Image) (st : Stack) (argv : List (List UInt8)) (st' : Stack) :
    Prop where
  inStack : InStack n st'.sp
  sp : st'.sp + stringBytes argv = st.sp
  ustack : st'.ustack = st.ustack ++ addresses st.sp argv
  strings : List.Forall₂ (fun a s ↦ (st'.sp ≤ a ∧ a + s.length < KERNBASE) ∧
    img.pgdir.Reads st'.mem a (s ++ [0])) (addresses st.sp argv) argv
  above : ∀ a, a < KERNBASE → st.sp ≤ a → img.pgdir.byte st'.mem a = img.pgdir.byte st.mem a
  others : ∀ v e, v < 2 ^ 19 → v + 1 ≠ n → img.pgdir.tr v = some e →
    st'.mem.phys e.ppn = st.mem.phys e.ppn

theorem Pushed.nil (hst : InStack n st.sp) : Pushed n img st [] st :=
  ⟨hst, rfl, (List.append_nil _).symm, .nil, fun _ _ _ ↦ rfl, fun _ _ _ _ _ ↦ rfl⟩

theorem Pushed.cons {st₁ : Stack} (h : Pushed n img st₁ argv st') (hn : n < 2 ^ 19)
    (hst : InStack n st.sp) (hle : slotSize s ≤ st.sp) (hsp : st₁.sp = st.sp - slotSize s)
    (hustack : st₁.ustack = st.ustack ++ [st.sp - slotSize s])
    (hstores : img.Stores n (st.sp - slotSize s) (s ++ [0]) st.mem st₁.mem) :
    Pushed n img st (s :: argv) st' := by
  have hlen : (s ++ [0]).length = s.length + 1 := by simp
  have hlt := lt_slotSize (s := s)
  have hhi := hst.hi
  have haddr := h.ustack
  have hstrings := h.strings
  have hbytes := h.sp
  rw [hsp] at haddr hstrings hbytes
  have hend : st.sp < KERNBASE := by
    simp only [PGSIZE] at hhi
    simp only [KERNBASE]
    omega
  refine ⟨h.inStack, ?_, ?_, .cons ⟨by omega, ?_⟩ hstrings, fun a ha hle' ↦ ?_, fun v e hv hne he ↦ ?_⟩
  · rw [stringBytes_cons]
    omega
  · rw [haddr, hustack, addresses, List.append_assoc, List.singleton_append]
  · exact hstores.reads.congr (fun i hi ↦ h.above _ (by omega) (by omega))
  · rw [h.above a ha (by omega), hstores.outside a ha (by omega)]
  · rw [h.others v e hv hne he, hstores.others v e hv hne he]

theorem slotSize_eq {sp : ℕ} (hst : InStack n sp) (hle : s.length + 1 ≤ sp) :
    (sp - (s.length + 1)) / 4 * 4 = sp - slotSize s := by
  have := hst.aligned
  rw [slotSize]
  omega

theorem wrapped_page {sp k : ℕ} (hwraps : sp < k) (hva : sub32 sp k / 4 * 4 < 2 ^ 32) :
    ∃ a, a < 2 ^ 32 ∧ sub32 sp k / 4 * 4 ≤ a ∧ a < sub32 sp k / 4 * 4 + k ∧ 2 ^ 19 ≤ a / PGSIZE := by
  rw [PGSIZE]
  by_cases hlo : 2 ^ 31 ≤ sub32 sp k / 4 * 4
  · exact ⟨_, hva, le_rfl, by omega, by omega⟩
  · have hk : 2 ^ 31 < k := by
      rw [sub32] at hlo
      omega
    exact ⟨2 ^ 31, by decide, by omega, by omega, by decide⟩

namespace IsImage

variable (hi : IsImage data n img) (hs : img.pgdir.Separate)
include hi hs

theorem pushArg_cases (hst : InStack n st.sp) :
    Ensures (fun r ↦ (r.1 = true → slotSize s ≤ st.sp ∧ r.2.sp = st.sp - slotSize s ∧
          InStack n r.2.sp ∧ r.2.ustack = st.ustack ∧
          img.Stores n (st.sp - slotSize s) (s ++ [0]) st.mem r.2.mem) ∧
        (r.1 = false → st.sp < (n - 1) * PGSIZE + slotSize s))
      (fun e ↦ e = .nullPte ∧ st.sp + 4096 < s.length + 1)
      (st.push img.pgdir (s.length + 1) (sub32 st.sp (s.length + 1) / 4 * 4) (s ++ [0])) := by
  have hnul : (s ++ [0]).length = s.length + 1 := by simp
  have hlo := hst.lo
  have hhi := hst.hi
  have hal := hst.aligned
  have hn := hi.lt
  have hslot := lt_slotSize (s := s)
  by_cases hroom : (n - 1) * PGSIZE + slotSize s ≤ st.sp
  · have hle : s.length + 1 ≤ st.sp := by omega
    obtain ⟨st', hpush, hsp, hustack, hstores⟩ := hi.push_page st (s.length + 1)
      (l := s ++ [0]) hs (show (n - 1) * PGSIZE ≤ st.sp - slotSize s by omega) (by omega) (by omega)
    rw [sub32_of_le hle (hst.lt hn), slotSize_eq hst hle, hpush]
    have hst' : InStack n st'.sp := by
      rw [hsp]
      exact hst.down (slotSize_eq hst hle).symm (by omega)
    exact ⟨fun _ ↦ ⟨by omega, hsp, hst', hustack, hstores⟩, fun h ↦ by cases h⟩
  have hno : st.sp < (n - 1) * PGSIZE + slotSize s := by omega
  by_cases hle : s.length + 1 ≤ st.sp
  · -- some of the bytes would be in the guard page
    refine ((hi.pushArg_ensures hst hle).weaken (fun _ ↦ False.elim)).mono ?_
    rintro r ⟨-, -, -, -, hr⟩
    rw [slotSize_eq hst hle] at hr
    have h2 := hi.two_le
    refine ⟨fun htrue ↦ absurd (hr.mp htrue) ?_, fun _ ↦ hno⟩
    simp only [PGSIZE] at hno ⊢
    omega
  · -- the stack pointer wraps
    have hva : sub32 st.sp (s.length + 1) / 4 * 4 < 2 ^ 32 := by
      rw [sub32]
      omega
    rw [Stack.push]
    by_cases hnear : s.length + 1 ≤ st.sp + 4096
    · have hpage : sub32 st.sp (s.length + 1) / 4 * 4 / PGSIZE = 0xFFFFF := by
        simp only [sub32, PGSIZE]
        omega
      rw [hi.copyout_last hpage (by omega), ok_bind]
      exact ⟨fun h ↦ absurd h Bool.false_ne_true, fun _ ↦ hno⟩
    · have hfar : st.sp + 4096 < s.length + 1 := by omega
      refine ((copyout_user hva).weaken fun e he ↦ ⟨he, hfar⟩).bind ?_
      rintro ⟨copied, m'⟩ hr
      refine ⟨fun htrue ↦ ?_, fun _ ↦ hno⟩
      -- one of the pages is in the kernel half
      obtain ⟨a, ha, hlo, hhi, hpage⟩ := wrapped_page (Nat.lt_of_not_le hle) hva
      obtain ⟨e, he, hu⟩ := hr htrue a ha hlo (by rwa [hnul])
      have hlt := hi.user_lt (by simp only [PGSIZE]; omega) he hu
      omega

theorem pushArgs_cases (hst : InStack n st.sp) (hargc : st.argc ≤ MAXARG) :
    Ensures (fun r ↦ (r.1 = true → Pushed n img st argv r.2 ∧ r.2.argc ≤ MAXARG) ∧
        (r.1 = false → (n - 1) * PGSIZE + stringBytes argv ≤ st.sp → MAXARG < st.argc + argv.length))
      (fun e ↦ e = .nullPte ∧ st.sp + 4095 < (argv.map List.length).sum + 4 * argv.length)
      (pushArgs img.pgdir argv st) := by
  induction argv generalizing st with
  | nil => exact ⟨fun _ ↦ ⟨.nil hst, hargc⟩, fun h ↦ by cases h⟩
  | cons s argv ih =>
    rw [pushArgs, List.map_cons, List.sum_cons, List.length_cons, stringBytes_cons]
    by_cases hfull : st.argc ≥ MAXARG
    · rw [if_pos hfull]
      exact ⟨fun h ↦ absurd h Bool.false_ne_true, fun _ _ ↦ by omega⟩
    rw [if_neg hfull]
    refine ((hi.pushArg_cases hs hst).weaken ?_).bind ?_
    · rintro e ⟨rfl, hlong⟩
      exact ⟨rfl, by omega⟩
    rintro ⟨copied, st₁⟩ ⟨hpushed, hno⟩
    dsimp only at hpushed hno ⊢
    cases copied with
    | false =>
      exact ⟨fun h ↦ absurd h Bool.false_ne_true, fun _ hroom ↦ absurd (hno rfl) (by omega)⟩
    | true =>
      obtain ⟨hle, hsp, hst₁, hustack, hstores⟩ := hpushed rfl
      have hlt := lt_slotSize (s := s)
      have hslot : slotSize s ≤ s.length + 4 := by
        rw [slotSize]
        omega
      have haddr : sub32 st.sp (s.length + 1) / 4 * 4 = st.sp - slotSize s := by
        rw [sub32_of_le (by omega) (hst.lt hi.lt), slotSize_eq hst (by omega)]
      have hargc₁ : Stack.argc { st₁ with ustack := st₁.ustack ++ [st.sp - slotSize s] } =
          st.argc + 1 := argc_snoc hustack
      rw [if_pos rfl, haddr]
      refine ((@ih { st₁ with ustack := st₁.ustack ++ [st.sp - slotSize s] } hst₁
        (by omega)).weaken ?_).mono ?_
      · rintro e ⟨rfl, hlong⟩
        dsimp only at hlong
        exact ⟨rfl, by omega⟩
      · rintro r ⟨hall, hshort⟩
        dsimp only at hshort
        refine ⟨fun htrue ↦ ⟨?_, (hall htrue).2⟩, fun hfalse hroom ↦ ?_⟩
        · exact (hall htrue).1.cons hi.lt hst hle hsp (by rw [hustack]) hstores
        · have := hshort hfalse (by omega)
          omega

end IsImage

def regions (esp : ℕ) (argv : List (List UInt8)) (ptrs : List ℕ) : List (ℕ × ℕ) :=
  (esp, 12) :: (esp + 12, 4 * (argv.length + 1)) :: ptrs.zip (argv.map (fun s ↦ s.length + 1))

/-- What the new program finds at its stack pointer: a return address, `argc`, `argv` and the array that
it points to, and the strings. -/
structure Passes (pgdir : Pgdir) (m : Mem) (sz esp : ℕ) (argv : List (List UInt8)) (ptrs : List ℕ) :
    Prop where
  words : pgdir.Reads m esp
    (([0xffffffff, argv.length, esp + 12] ++ ptrs ++ [0]).flatMap (toBytes 4))
  strings : List.Forall₂ (fun a s ↦ pgdir.Reads m a (s ++ [0])) ptrs argv
  disjoint : (regions esp argv ptrs).Pairwise (fun x y ↦ x.1 + x.2 ≤ y.1 ∨ y.1 + y.2 ≤ x.1)
  within : ∀ x ∈ regions esp argv ptrs, sz - PGSIZE ≤ x.1 ∧ x.1 + x.2 ≤ sz

theorem length_addresses (sp : ℕ) : (addresses sp argv).length = argv.length := by
  induction argv generalizing sp with
  | nil => rfl
  | cons s argv ih => rw [addresses, List.length_cons, ih, List.length_cons]

theorem addresses_descend (argv : List (List UInt8)) (sp : ℕ) (hle : stringBytes argv ≤ sp) :
    ((addresses sp argv).zip (argv.map (fun s ↦ s.length + 1))).Pairwise
        (fun x y ↦ y.1 + y.2 ≤ x.1) ∧
      ∀ x ∈ (addresses sp argv).zip (argv.map (fun s ↦ s.length + 1)),
        sp - stringBytes argv ≤ x.1 ∧ x.1 + x.2 ≤ sp := by
  induction argv generalizing sp with
  | nil => simp [addresses]
  | cons s argv ih =>
    rw [stringBytes_cons] at hle
    have hlt := lt_slotSize (s := s)
    obtain ⟨hpair, hall⟩ := ih (sp - slotSize s) (by omega)
    rw [addresses, List.map_cons, List.zip_cons_cons, List.pairwise_cons, List.forall_mem_cons,
      stringBytes_cons]
    refine ⟨⟨fun x hx ↦ (hall x hx).2, hpair⟩, ⟨?_, ?_⟩, fun x hx ↦ ?_⟩
    · dsimp only
      omega
    · dsimp only
      omega
    · have := hall x hx
      omega

theorem Pushed.passes (h : Pushed n img ⟨n * PGSIZE, [], m, []⟩ argv st) (hn : n < 2 ^ 19)
    (hroom : (n - 1) * PGSIZE + 4 * (argv.length + 4) ≤ st.sp)
    (hstores : img.Stores n (st.sp - 4 * (argv.length + 4)) (st.frame.flatMap (toBytes 4))
      st.mem m') :
    Passes img.pgdir m' (n * PGSIZE) (st.sp - 4 * (argv.length + 4)) argv
      (addresses (n * PGSIZE) argv) := by
  have hsp : st.sp + stringBytes argv = n * PGSIZE := h.sp
  have hustack : st.ustack = addresses (n * PGSIZE) argv := h.ustack
  have hargc' : st.argc = argv.length := by rw [Stack.argc, hustack, length_addresses]
  have hpage : (n - 1) * PGSIZE = n * PGSIZE - PGSIZE := by rw [Nat.sub_mul, Nat.one_mul]
  obtain ⟨hpair, hall⟩ := addresses_descend argv (n * PGSIZE) (by omega)
  have hframe : st.frame = [0xffffffff, argv.length, st.sp - 4 * (argv.length + 4) + 12] ++
      addresses (n * PGSIZE) argv ++ [0] := by
    rw [Stack.frame, hargc', hustack, sub32_of_le (by omega) (h.inStack.lt hn),
      show st.sp - (argv.length + 1) * 4 = st.sp - 4 * (argv.length + 4) + 12 by omega]
  have hlength : (st.frame.flatMap (toBytes 4)).length = 4 * (argv.length + 4) := by
    rw [IsImage.length_frame, hargc']
    omega
  refine ⟨hframe ▸ hstores.reads, h.strings.imp ?_, ?_, ?_⟩
  · rintro a s ⟨⟨hlo, hhi⟩, hreads⟩
    refine hreads.congr (fun i hi ↦ hstores.outside _ ?_ (by omega))
    rw [List.length_append, List.length_singleton] at hi
    omega
  · rw [regions, List.pairwise_cons, List.forall_mem_cons, List.pairwise_cons]
    refine ⟨⟨by dsimp only; omega, fun x hx ↦ ?_⟩, fun x hx ↦ ?_, hpair.imp .inr⟩
    · have := hall x hx
      dsimp only
      omega
    · have := hall x hx
      dsimp only
      omega
  · rw [regions, List.forall_mem_cons, List.forall_mem_cons]
    refine ⟨by dsimp only; omega, by dsimp only; omega, fun x hx ↦ ?_⟩
    have := hall x hx
    omega

namespace IsImage

variable (hi : IsImage data n img) (hs : img.pgdir.Separate)
include hi hs

theorem pushStack_cases (argv : List (List UInt8)) :
    Ensures (fun r ↦ (r.1 = true → stackBytes argv ≤ PGSIZE ∧
          Passes img.pgdir r.2.mem img.sz r.2.sp argv (addresses img.sz argv) ∧
          ∀ v e, v < 2 ^ 19 → v + 1 ≠ n → img.pgdir.tr v = some e → r.2.mem.phys e.ppn = m.phys e.ppn) ∧
        (r.1 = false → stackBytes argv ≤ PGSIZE → MAXARG < argv.length))
      (fun e ↦ e = .nullPte ∧ img.sz + 4095 < (argv.map List.length).sum + 4 * argv.length)
      (pushStack img.pgdir img.sz argv m) := by
  have hst : InStack n (Stack.mk img.sz [] m []).sp := hi.inStack
  have hn := hi.lt
  have h2 := hi.two_le
  have hpage : (n - 1) * PGSIZE = n * PGSIZE - PGSIZE := by rw [Nat.sub_mul, Nat.one_mul]
  refine (hi.pushArgs_cases hs hst (Nat.zero_le _)).bind ?_
  rw [hi.sz]
  rintro ⟨pushed, st⟩ ⟨hall, hno⟩
  cases pushed with
  | false =>
    refine ⟨fun h ↦ absurd h Bool.false_ne_true, fun _ hfits ↦ ?_⟩
    have hargc : Stack.argc ⟨n * PGSIZE, [], m, []⟩ = 0 := rfl
    have hle : PGSIZE ≤ n * PGSIZE := Nat.le_mul_of_pos_left _ (by omega)
    have := hno rfl (by dsimp only; rw [stackBytes] at hfits; omega)
    omega
  | true =>
    obtain ⟨hpushed, hargc⟩ := hall rfl
    dsimp only at hpushed hargc ⊢
    have hsp : st.sp + stringBytes argv = n * PGSIZE := hpushed.sp
    have hargc' : st.argc = argv.length := by
      rw [Stack.argc, hpushed.ustack, List.nil_append, length_addresses]
    have hlength : (st.frame.flatMap (toBytes 4)).length = 4 * (argv.length + 4) := by
      rw [length_frame, hargc']
      omega
    have hlo := hpushed.inStack.lo
    have hle : (3 + st.argc + 1) * 4 ≤ st.sp := by
      simp only [MAXARG, PGSIZE] at hargc hlo
      omega
    have hva : sub32 st.sp ((3 + st.argc + 1) * 4) = st.sp - 4 * (argv.length + 4) := by
      rw [sub32_of_le hle (hpushed.inStack.lt hn), hargc']
      omega
    rw [if_pos rfl, hva]
    by_cases hroom : (n - 1) * PGSIZE + 4 * (argv.length + 4) ≤ st.sp
    · obtain ⟨st', hpush, hsp', -, hstores⟩ := hi.push_page st ((3 + st.argc + 1) * 4) hs
        (show (n - 1) * PGSIZE ≤ st.sp - 4 * (argv.length + 4) by omega)
        (show _ + (st.frame.flatMap (toBytes 4)).length ≤ n * PGSIZE by omega) (by omega)
      rw [hpush]
      refine ⟨fun _ ↦ ⟨?_, ?_, fun v e hv hne he ↦ ?_⟩, fun h ↦ absurd h.symm Bool.false_ne_true⟩
      · rw [stackBytes]
        omega
      · rw [hsp']
        exact hpushed.passes hn hroom hstores
      · rw [hstores.others v e hv hne he, hpushed.others v e hv hne he]
    · -- some of the words would be in the guard page
      have hhi := hpushed.inStack.hi
      have hal := hpushed.inStack.aligned
      refine ((hi.push_ensures (by omega)).weaken (fun _ ↦ False.elim)).mono ?_
      rintro r ⟨-, -, -, -, hr⟩
      have hiff := hi.stack_iff hpushed.inStack (show 4 * (argv.length + 4) ≤ st.sp by omega)
      rw [show (st.sp - 4 * (argv.length + 4)) / 4 * 4 = st.sp - 4 * (argv.length + 4) by omega] at hiff
      rw [hlength, hiff] at hr
      refine ⟨fun htrue ↦ absurd (hr.mp htrue) (by omega), fun _ hfits ↦ ?_⟩
      rw [stackBytes] at hfits
      omega

omit hs in
theorem copyoutLoop_conserves {fuel : ℕ} (hva : va < 2 ^ 32) :
    Ensures (fun r ↦ Conserves img.pgdir.holds m img.pgdir.holds r.2) (fun _ ↦ True)
      (img.pgdir.copyoutLoop fuel va l m) := by
  induction fuel generalizing va l m with
  | zero => trivial
  | succ fuel ih =>
    have hpage : va / PGSIZE < 2 ^ 20 := by
      simp only [PGSIZE]
      omega
    have hdown : PGROUNDDOWN va = va / PGSIZE * PGSIZE := rfl
    rw [Pgdir.copyoutLoop]
    split
    swap
    · exact .refl
    dsimp only
    rw [hdown]
    cases hw : img.pgdir.walk (va / PGSIZE * PGSIZE) with
    | none =>
      rw [Pgdir.uva2ka, hw]
      trivial
    | some x =>
      cases x with
      | none =>
        rw [Pgdir.uva2ka, hw]
        exact Conserves.refl
      | some e =>
        have he : img.pgdir.tr (va / PGSIZE) = some e := by
          rw [Pgdir.tr, hw]
          rfl
        rw [Pgdir.uva2ka_of_tr he, ok_bind]
        cases hu : e.u with
        | false => exact Conserves.refl
        | true =>
          simp only [if_true]
          refine (ih (Nat.mod_lt _ (by decide))).mono (fun r hr ↦ Conserves.trans ?_ hr)
          exact conserves_write (hi.user_lt hpage he hu) he

omit hs in
theorem push_conserves (hva : va < 2 ^ 32) :
    Ensures (fun r ↦ Conserves img.pgdir.holds st.mem img.pgdir.holds r.2.mem) (fun _ ↦ True)
      (st.push img.pgdir k va l) :=
  (hi.copyoutLoop_conserves hva).bind (fun _ hr ↦ hr)

omit hs in
theorem pushStack_conserves {sz : ℕ} :
    Ensures (fun r ↦ Conserves img.pgdir.holds m img.pgdir.holds r.2.mem) (fun _ ↦ True)
      (pushStack img.pgdir sz argv m) := by
  have hsub (a b : ℕ) : sub32 a b < 2 ^ 32 := Nat.mod_lt _ (by decide)
  have hargs (argv : List (List UInt8)) (st : Stack) :
      Ensures (fun r ↦ Conserves img.pgdir.holds st.mem img.pgdir.holds r.2.mem) (fun _ ↦ True)
        (pushArgs img.pgdir argv st) := by
    induction argv generalizing st with
    | nil => exact Conserves.refl
    | cons s argv ih =>
      rw [pushArgs]
      split
      · exact Conserves.refl
      refine (hi.push_conserves ((Nat.div_mul_le_self _ 4).trans_lt (hsub _ _))).bind ?_
      rintro ⟨copied, st₁⟩ hr
      cases copied with
      | false => exact hr
      | true => exact (ih _).mono (fun r' hr' ↦ hr.trans hr')
  refine (hargs argv ⟨sz, [], m, []⟩).bind ?_
  rintro ⟨pushed, st⟩ hr
  cases pushed with
  | false => exact hr
  | true => exact (hi.push_conserves (hsub _ _)).mono (fun r' hr' ↦ hr.trans hr')

end IsImage

structure Pgdir.Kept (M : Machine) (pgdir : Pgdir) (m : Mem) : Prop where
  free : ∀ p ∈ m.freelist, Mem.Valid M p
  nodup : m.freelist.Nodup
  held : ∀ q, 0 < pgdir.holds q → Mem.Valid M q ∧ q ∉ m.freelist

theorem Pgdir.Kept.freevm {pgdir' : Pgdir} (h : pgdir.Kept M m)
    (hcons : Conserves (fun _ ↦ 0) m pgdir'.holds m') :
    Ensures (fun m'' ↦ ∀ q, 0 < pgdir'.holds q → m''.phys q = m'.phys q) (fun _ ↦ False)
      (pgdir.freevm M m') := by
  refine (Pgdir.freevm_ensures (fun q hq ↦ (h.held q hq).1)).mono (fun m'' hm q hq ↦ hm.phys q ?_)
  have hfree := List.count_eq_zero.mpr (Pgdir.not_free hcons h.nodup hq)
  have hnew : ¬ 0 < pgdir.holds q := fun hold ↦ (h.held q hold).2 (hcons.mem_of_held hq)
  omega

theorem Passes.congr {sz esp : ℕ} {ptrs : List ℕ} (h : Passes pgdir m sz esp argv ptrs)
    (hb : ∀ a, pgdir.byte m' a = pgdir.byte m a) : Passes pgdir m' sz esp argv ptrs :=
  ⟨h.words.congr (fun _ _ ↦ hb _), h.strings.imp (fun _ _ hr ↦ hr.congr (fun _ _ ↦ hb _)),
    h.disjoint, h.within⟩

theorem IsImage.byte_eq (hi : IsImage data n img)
    (hphys : ∀ q, 0 < img.pgdir.holds q → m'.phys q = m.phys q) (a : ℕ) :
    img.pgdir.byte m' a = img.pgdir.byte m a := by
  cases he : img.pgdir.tr (a / PGSIZE) with
  | none => rw [Pgdir.byte, Pgdir.byte, he]
  | some e =>
    cases hu : e.u with
    | false => simp only [Pgdir.byte, he, hu, Bool.false_eq_true, if_false]
    | true =>
      have hmod : img.pgdir.tr (a / PGSIZE % 2 ^ 20) = some e := by
        have htable : a / PGSIZE % 2 ^ 20 / 1024 % 1024 = a / PGSIZE / 1024 % 1024 := by omega
        have hentry : a / PGSIZE % 2 ^ 20 % 1024 = a / PGSIZE % 1024 := by omega
        rw [← he, Pgdir.tr, Pgdir.tr, Pgdir.walk_page, Pgdir.walk_page, htable, hentry]
      have hlt := hi.user_lt (Nat.mod_lt _ (by decide)) hmod hu
      rw [Pgdir.byte_of_tr he hu, Pgdir.byte_of_tr he hu, hphys _ (Pgdir.holds_pos hlt hmod)]

structure Committed (argv : List (List UInt8)) (img : Image) (m : Mem) (t' : Task) (m' : Mem) : Prop where
  pgdir : t'.pgdir = img.pgdir
  sz : t'.sz = img.sz
  fits : stackBytes argv ≤ PGSIZE
  passes : ∃ ptrs, Passes t'.pgdir m' t'.sz t'.esp argv ptrs
  others : ∀ v e, (v + 1) * PGSIZE < t'.sz → t'.pgdir.tr v = some e → m'.phys e.ppn = m.phys e.ppn

theorem exec_ensures (namei : List UInt8 → Option Inode) (path : List UInt8) (argv : List (List UInt8))
    {t : Task} (hl : Linked data) (ht : t.pgdir.Kept M m) :
    Ensures (fun r ↦ (r.1 = 0 ∧ ∃ ip img m', namei path = some ip ∧
          loadImage M data ip m = .ok (some img, m') ∧ Committed argv img m' r.2.1 r.2.2) ∨
        r.1 = -1 ∧ r.2.1 = t ∧ Conserves (fun _ ↦ 0) m (fun _ ↦ 0) r.2.2 ∧
          ∀ ip img m', namei path = some ip → loadImage M data ip m = .ok (some img, m') →
            stackBytes argv ≤ PGSIZE → MAXARG < argv.length)
      (fun e ↦ e = .nullPte ∧ ∃ ip img m', namei path = some ip ∧
        loadImage M data ip m = .ok (some img, m') ∧
        img.sz + 4095 < (argv.map List.length).sum + 4 * argv.length)
      (exec M data namei path argv t m) := by
  rw [exec]
  cases hnamei : namei path with
  | none => exact .inr ⟨rfl, rfl, .refl, fun _ _ _ h ↦ absurd h (by simp)⟩
  | some ip =>
    have hbuilds : Ensures _ _ (loadImage M data ip m) := loadImage_builds hl ht.free ht.nodup
    obtain ⟨⟨r, m'⟩, hload, -⟩ := hbuilds.exists_ok
    have hr := hbuilds.of_ok hload
    dsimp only
    rw [hload, ok_bind]
    cases r with
    | none =>
      refine .inr ⟨rfl, rfl, hr, fun ip' img m₁ hip hload' ↦ ?_⟩
      cases hip
      rw [hload] at hload'
      cases hload'
    | some img =>
      have hb : img.Built data m ip ip.programHeaders m' := hr
      obtain ⟨n, hi⟩ := hb.isImage
      have hn := hi.lt
      have hsep := Pgdir.separate hb.conserves ht.nodup
      refine ((((hi.pushStack_cases (m := m') hsep argv).and hi.pushStack_conserves).weaken
        (fun e he ↦ ⟨he.1.1, ip, img, m', rfl, hload, he.1.2⟩))).bind ?_
      rintro ⟨pushed, st⟩ ⟨⟨hpass, hfail⟩, hcons⟩
      have hcons' := hb.conserves.trans hcons
      dsimp only at hpass hfail hcons' ⊢
      cases pushed with
      | true =>
        obtain ⟨hfits, hpasses, hothers⟩ := hpass rfl
        obtain ⟨m'', hm, hkept⟩ := (ht.freevm hcons').exists_ok
        rw [if_pos rfl, hm]
        refine .inl ⟨rfl, ip, img, m', rfl, hload, rfl, rfl, hfits,
          ⟨_, hpasses.congr (hi.byte_eq hkept)⟩, fun v e hv he ↦ ?_⟩
        have hv' : v + 1 < n := by
          dsimp only at hv
          rw [hi.sz] at hv
          exact Nat.lt_of_mul_lt_mul_right hv
        rw [hkept _ (Pgdir.holds_pos (by omega) he), hothers v e (by omega) (by omega) he]
      | false =>
        obtain ⟨m'', hm, hfreed⟩ :=
          (Pgdir.freevm_ensures (fun q hq ↦ ht.free q (hcons'.mem_of_held hq))).exists_ok
        rw [if_neg Bool.false_ne_true, hm]
        exact .inr ⟨rfl, rfl, hcons'.trans hfreed, fun _ _ _ _ _ ↦ hfail rfl⟩

theorem exec_of_loaded (namei : List UInt8 → Option Inode) (path : List UInt8)
    (argv : List (List UInt8)) {ip : Inode} {t : Task} (hl : Linked data) (ht : t.pgdir.Kept M m)
    (hnamei : namei path = some ip) (hload : loadImage M data ip m = .ok (some img, m'))
    (hargc : argv.length < MAXARG) (htotal : (argv.map List.length).sum ≤ img.sz) :
    ∃ r t' m'', exec M data namei path argv t m = .ok (r, t', m'') ∧
      (r = 0 ∧ Committed argv img m' t' m'' ∨ r = -1 ∧ ¬ stackBytes argv ≤ PGSIZE) := by
  have hunique {ip' : Inode} {img' : Image} {m₁ : Mem} (hip : namei path = some ip')
      (hload' : loadImage M data ip' m = .ok (some img', m₁)) : img' = img ∧ m₁ = m' := by
    rw [hnamei] at hip
    cases hip
    rw [hload] at hload'
    cases hload'
    exact ⟨rfl, rfl⟩
  have hexec := exec_ensures namei path argv hl ht
  cases hr : exec M data namei path argv t m with
  | error e =>
    obtain ⟨-, ip', img', m₁, hip, hload', hlong⟩ := hexec.of_error hr
    obtain ⟨rfl, rfl⟩ := hunique hip hload'
    simp only [MAXARG] at hargc
    omega
  | ok r =>
    refine ⟨r.1, r.2.1, r.2.2, rfl, (hexec.of_ok hr).imp ?_ ?_⟩
    · rintro ⟨h0, ip', img', m₁, hip, hload', hc⟩
      obtain ⟨rfl, rfl⟩ := hunique hip hload'
      exact ⟨h0, hc⟩
    · rintro ⟨h1, -, -, hlong⟩
      refine ⟨h1, fun hfits ↦ ?_⟩
      have := hlong ip img m' hnamei hload hfits
      omega

/-- The arguments are passed if there is room for them in one page, and otherwise `exec` fails. -/
theorem exec_passes_arguments (namei : List UInt8 → Option Inode) (path : List UInt8)
    (argv : List (List UInt8)) {ip : Inode} {t : Task} (hl : Linked data) (ht : t.pgdir.Kept M m)
    (hnamei : namei path = some ip) (hload : loadImage M data ip m = .ok (some img, m'))
    (hargc : argv.length < MAXARG) (htotal : (argv.map List.length).sum ≤ img.sz) :
    ∃ r t' m'', exec M data namei path argv t m = .ok (r, t', m'') ∧
      (r = 0 ↔ stackBytes argv ≤ PGSIZE) ∧
      (r = 0 → t'.pgdir = img.pgdir ∧ t'.sz = img.sz ∧
        (∃ ptrs, Passes t'.pgdir m'' t'.sz t'.esp argv ptrs) ∧
        ∀ v e, (v + 1) * PGSIZE < t'.sz → t'.pgdir.tr v = some e → m''.phys e.ppn = m'.phys e.ppn) := by
  obtain ⟨r, t', m'', hexec, hr⟩ := exec_of_loaded namei path argv hl ht hnamei hload hargc htotal
  refine ⟨r, t', m'', hexec, ?_⟩
  rcases hr with ⟨rfl, hc⟩ | ⟨rfl, hno⟩
  · exact ⟨iff_of_true rfl hc.fits, fun _ ↦ ⟨hc.pgdir, hc.sz, hc.passes, hc.others⟩⟩
  · exact ⟨iff_of_false (by decide) hno, fun h ↦ absurd h (by decide)⟩

def smallTask : Task := ⟨onePage, [], 0, 0⟩

theorem smallTask_kept : smallTask.pgdir.Kept smallMachine manyPages := by
  refine ⟨manyPages_valid, manyPages_nodup, fun q hq ↦ ?_⟩
  rcases Pgdir.of_holds_pos hq with rfl | ⟨i, -, ht⟩ | ⟨v, hv, hu⟩
  · decide
  · obtain ⟨t, hpde, rfl⟩ := Option.map_eq_some_iff.mp ht
    change (if i = 0 then _ else _) = _ at hpde
    split at hpde
    · cases hpde
      decide
    · cases hpde
  · rw [Pgdir.userPage, show smallTask.pgdir = onePage.pgdir from rfl, onePage_tr hv] at hu
    split at hu
    · cases hu
      decide
    · cases hu

/-- Two arguments, and one that is too long. -/
theorem exec_passes_arguments_two : ∃ img m', loadImage smallMachine smallData bareProgram manyPages =
      .ok (some img, m') ∧
    (∃ t' m'', exec smallMachine smallData (fun _ ↦ some bareProgram) [47] [[97], [98, 99]] smallTask
        manyPages = .ok (0, t', m'') ∧
      ∃ ptrs, Passes t'.pgdir m'' t'.sz t'.esp [[97], [98, 99]] ptrs) ∧
    ∃ r t' m'', exec smallMachine smallData (fun _ ↦ some bareProgram) [47]
      [List.replicate 4096 97] smallTask manyPages = .ok (r, t', m'') ∧ r ≠ 0 := by
  obtain ⟨img, m', hload, hi, -⟩ := loadImage_bareProgram
  have hsz : img.sz = 8192 := hi.sz
  have hlong : (List.replicate 4096 (97 : UInt8)).length = 4096 := List.length_replicate
  refine ⟨img, m', hload, ?_, ?_⟩
  · obtain ⟨r, t', m'', hexec, hiff, hpass⟩ := exec_passes_arguments (fun _ ↦ some bareProgram) [47]
      [[97], [98, 99]] linked_small smallTask_kept rfl hload (by decide) (by rw [hsz]; decide)
    obtain rfl := hiff.mpr (by decide)
    obtain ⟨-, -, hptrs, -⟩ := hpass rfl
    exact ⟨t', m'', hexec, hptrs⟩
  · obtain ⟨r, t', m'', hexec, hiff, -⟩ := exec_passes_arguments (fun _ ↦ some bareProgram) [47]
      [List.replicate 4096 97] linked_small smallTask_kept rfl hload (by decide)
      (by rw [hsz, List.map_singleton, hlong]; decide)
    refine ⟨r, t', m'', hexec, fun hr ↦ absurd (hiff.mp hr) ?_⟩
    rw [stackBytes, stringBytes, List.map_singleton, slotSize, hlong]
    decide

end Xv6Bfs.Vm

import Xv6Bfs.Shell.Tokens

namespace Xv6Bfs.Shell

open Lib.Execution

/-- The three kinds of a redirection. -/
inductive Arrow
  | lt
  | gt
  | gtgt
  deriving DecidableEq, Repr

namespace Arrow

def token : Arrow → Token
  | .lt => .lt
  | .gt => .gt
  | .gtgt => .gtgt

def mode : Arrow → ℕ
  | .lt => O_RDONLY
  | .gt | .gtgt => O_WRONLY ||| O_CREATE

def fd : Arrow → ℕ
  | .lt => 0
  | .gt | .gtgt => 1

end Arrow

def redirTokens (rs : List (Arrow × Span)) : List Token :=
  rs.flatMap (fun r ↦ [r.1.token, .word r.2])

def argTokens (args : List (Span × List (Arrow × Span))) : List Token :=
  args.flatMap (fun a ↦ .word a.1 :: redirTokens a.2)

def wrap (rs : List (Arrow × Span)) (cmd : Cmd) : Cmd :=
  rs.foldl (fun cmd r ↦ .redir cmd r.2 r.1.mode r.1.fd) cmd

def backs : ℕ → Cmd → Cmd
  | 0, cmd => cmd
  | n + 1, cmd => backs n (.back cmd)

def addArgs (args : List (Span × List (Arrow × Span))) (cmd : Cmd) : Cmd :=
  args.foldl (fun cmd a ↦ wrap a.2 (cmd.addArg a.1)) cmd

section Trees

variable {rs rs' : List (Arrow × Span)} {ws : List Span} {w : Span} {cmd : Cmd}

theorem length_le_redirTokens (rs : List (Arrow × Span)) : rs.length ≤ (redirTokens rs).length := by
  induction rs with
  | nil => exact Nat.le_refl 0
  | cons r rs ih =>
    rw [List.length_cons, redirTokens, List.flatMap_cons, List.length_append, ← redirTokens]
    simp only [List.length_cons]
    omega

theorem length_le_argTokens (args : List (Span × List (Arrow × Span))) :
    args.length ≤ (argTokens args).length := by
  induction args with
  | nil => exact Nat.le_refl 0
  | cons a args ih =>
    rw [List.length_cons, argTokens, List.flatMap_cons, List.length_append, ← argTokens]
    simp only [List.length_cons]
    omega

theorem wrap_append : wrap (rs ++ rs') cmd = wrap rs' (wrap rs cmd) := List.foldl_append

theorem addArg_wrap : (wrap rs cmd).addArg w = wrap rs (cmd.addArg w) := by
  induction rs generalizing cmd with
  | nil => rfl
  | cons r rs ih => exact ih

theorem addArgs_wrap {args : List (Span × List (Arrow × Span))} :
    addArgs args (wrap rs (.exec ws)) =
      wrap (rs ++ args.flatMap Prod.snd) (.exec (ws ++ args.map Prod.fst)) := by
  induction args generalizing rs ws with
  | nil => simp [addArgs]
  | cons a args ih =>
    have hstep : wrap a.2 ((wrap rs (.exec ws)).addArg a.1) = wrap (rs ++ a.2) (.exec (ws ++ [a.1])) := by
      rw [addArg_wrap, wrap_append, Cmd.addArg]
    rw [addArgs, List.foldl_cons, hstep, ← addArgs, ih]
    simp

end Trees

def Follows (cs : List Char) (ts : List Token) : Prop := ts = [] ∨ starts cs ts = true

section Follow

variable {cs cs' : List Char} {ts ts' : List Token} {t : Token}

theorem starts_eq_false (hd : (cs.all fun c ↦ !cs'.elem c) = true) (h : Follows cs ts) :
    starts cs' ts = false := by
  cases ts with
  | nil => rfl
  | cons t ts =>
    have h : starts cs (t :: ts) = true := h.resolve_left (by simp)
    rw [starts] at h ⊢
    cases hf : t.first with
    | none => rfl
    | some c =>
      rw [hf] at h
      have hc := List.all_eq_true.mp hd c (by simpa using h)
      simpa using hc

theorem Follows.mono (h : Follows cs ts) (hcs : cs ⊆ cs') : Follows cs' ts := by
  refine h.imp_right (fun h ↦ ?_)
  cases ts with
  | nil => cases h
  | cons t ts =>
    rw [starts] at h ⊢
    cases hf : t.first with
    | none => simp [hf] at h
    | some c =>
      rw [hf] at h
      simpa using hcs (by simpa using h)

theorem starts_arrow (a : Arrow) : starts ['<', '>'] (a.token :: ts) = true := by
  cases a <;> simp [starts, Token.first, Arrow.token]

theorem exists_arrow (h : starts ['<', '>'] ts = true) : ∃ a ts', ts = Arrow.token a :: ts' := by
  cases ts with
  | nil => cases h
  | cons t ts =>
    cases t with
    | lt => exact ⟨.lt, ts, rfl⟩
    | gt => exact ⟨.gt, ts, rfl⟩
    | gtgt => exact ⟨.gtgt, ts, rfl⟩
    | _ => simp [starts, Token.first] at h

theorem redirect_token (a : Arrow) (w : Span) (cmd : Cmd) :
    cmd.redirect (some a.token) w = .redir cmd w a.mode a.fd := by
  cases a <;> rfl

end Follow

section Runs

variable {line : List Char} {s n fuel : ℕ} {ts rest : List Token}
  (hline : NUL ∉ line)
include hline

theorem backLoop_run (cmd : Cmd) (h : View line s (List.replicate n .amp ++ rest))
    (hr : starts ['&'] rest = false) (hf : n < fuel) :
    ∃ e, backLoop line fuel cmd s = .ok (backs n cmd, e) ∧ View line e rest := by
  induction n generalizing s cmd fuel with
  | zero =>
    obtain ⟨fuel, rfl⟩ := Nat.exists_eq_succ_of_ne_zero (Nat.ne_of_gt hf)
    obtain ⟨e, hp, he⟩ := h.peek hline ['&'] (by decide)
    refine ⟨e, ?_, he⟩
    rw [backLoop, hp, List.replicate_zero, List.nil_append, hr]
    rfl
  | succ n ih =>
    obtain ⟨fuel, rfl⟩ := Nat.exists_eq_succ_of_ne_zero (show fuel ≠ 0 by omega)
    obtain ⟨e₁, hp, h₁⟩ := h.peek hline ['&'] (by decide)
    obtain ⟨e₂, hg, h₂⟩ := View.get hline (t := .amp) h₁
    obtain ⟨e, hrun, he⟩ := ih (.back cmd) h₂ (show n < fuel by omega)
    refine ⟨e, ?_, he⟩
    rw [backLoop, hp, show starts ['&'] (List.replicate (n + 1) .amp ++ rest) = true from rfl]
    dsimp only
    rw [if_pos rfl, hg]
    exact hrun

theorem backLoop_sound (cmd : Cmd) (h : View line s ts) (hf : ts.length < fuel) :
    Ensures (fun r ↦ ∃ n rest, ts = List.replicate n .amp ++ rest ∧
      r.1 = backs n cmd ∧ View line r.2 rest) (fun _ ↦ False)
      (backLoop line fuel cmd s) := by
  obtain ⟨n, rest, rfl, hr⟩ : ∃ n rest, ts = List.replicate n Token.amp ++ rest ∧
      starts ['&'] rest = false := by
    clear h hf
    induction ts with
    | nil => exact ⟨0, [], rfl, rfl⟩
    | cons t ts ih =>
      by_cases ht : t = .amp
      · obtain ⟨n, rest, hts, hr⟩ := ih
        exact ⟨n + 1, rest, by rw [ht, hts]; rfl, hr⟩
      · refine ⟨0, t :: ts, rfl, ?_⟩
        cases t <;> simp_all [starts, Token.first]
  have hn : n < fuel := by
    rw [List.length_append, List.length_replicate] at hf
    omega
  obtain ⟨e, hrun, he⟩ := backLoop_run hline cmd h hr hn
  rw [hrun]
  exact ⟨n, rest, rfl, rfl, he⟩

theorem parseredirs_run (cmd : Cmd) {rs : List (Arrow × Span)} (h : View line s (redirTokens rs ++ rest))
    (hr : starts ['<', '>'] rest = false) (hf : rs.length < fuel) :
    ∃ e, parseredirs line fuel cmd s = .ok (wrap rs cmd, e) ∧ View line e rest := by
  induction rs generalizing s cmd fuel with
  | nil =>
    obtain ⟨fuel, rfl⟩ := Nat.exists_eq_succ_of_ne_zero (Nat.ne_of_gt hf)
    obtain ⟨e, hp, he⟩ := h.peek hline ['<', '>'] (by decide)
    refine ⟨e, ?_, he⟩
    rw [parseredirs, hp, show redirTokens [] ++ rest = rest from rfl, hr]
    rfl
  | cons r rs ih =>
    rw [List.length_cons] at hf
    obtain ⟨fuel, rfl⟩ := Nat.exists_eq_succ_of_ne_zero (show fuel ≠ 0 by omega)
    have htokens : redirTokens (r :: rs) ++ rest = r.1.token :: .word r.2 :: (redirTokens rs ++ rest) := rfl
    rw [htokens] at h
    obtain ⟨e₁, hp, h₁⟩ := h.peek hline ['<', '>'] (by decide)
    obtain ⟨e₂, hg₂, h₂⟩ := h₁.get hline
    obtain ⟨e₃, hg₃, h₃⟩ := h₂.get hline
    obtain ⟨e, hrun, he⟩ := ih (.redir cmd r.2 r.1.mode r.1.fd) h₃ (show rs.length < fuel by omega)
    refine ⟨e, ?_, he⟩
    rw [parseredirs, hp, starts_arrow]
    dsimp only
    rw [if_pos rfl, hg₂]
    dsimp only
    rw [hg₃]
    dsimp only
    rw [redirect_token]
    exact hrun

theorem parseredirs_sound (cmd : Cmd) (h : View line s ts) (hf : ts.length < fuel) :
    Ensures (fun r ↦ ∃ rs rest, ts = redirTokens rs ++ rest ∧ r.1 = wrap rs cmd ∧ View line r.2 rest)
      (fun e ↦ e ≠ .diverge) (parseredirs line fuel cmd s) := by
  induction fuel generalizing s ts cmd with
  | zero => omega
  | succ fuel ih =>
    obtain ⟨e₁, hp, h₁⟩ := h.peek hline ['<', '>'] (by decide)
    rw [parseredirs, hp]
    cases hs : starts ['<', '>'] ts with
    | false => exact ⟨[], ts, rfl, rfl, h₁⟩
    | true =>
      obtain ⟨a, ts, rfl⟩ := exists_arrow hs
      obtain ⟨e₂, hg₂, h₂⟩ := h₁.get hline
      dsimp only
      rw [if_pos rfl, hg₂]
      dsimp only
      cases ts with
      | nil =>
        obtain ⟨e₃, hg₃, -⟩ := h₂.get_nil hline
        rw [hg₃]
        exact Panic.noConfusion
      | cons t ts =>
        obtain ⟨e₃, hg₃, h₃⟩ := h₂.get hline
        rw [hg₃]
        cases t with
        | word w =>
          simp only [List.length_cons] at hf
          refine (ih (cmd.redirect (some a.token) w) h₃ (by omega)).mono ?_
          rintro r ⟨rs, rest, rfl, hr, he⟩
          refine ⟨(a, w) :: rs, rest, rfl, ?_, he⟩
          rw [hr, redirect_token]
          rfl
        | _ => exact Panic.noConfusion

theorem argLoop_run (cmd : Cmd) (argc : ℕ) {args : List (Span × List (Arrow × Span))}
    (h : View line s (argTokens args ++ rest)) (hr : Follows ['|', ')', '&', ';'] rest)
    (ha : argc + args.length < MAXARGS) (hf : args.length < fuel) :
    ∃ e, argLoop line fuel cmd argc s = .ok (addArgs args cmd, e) ∧ View line e rest := by
  induction args generalizing s cmd argc fuel with
  | nil =>
    obtain ⟨fuel, rfl⟩ := Nat.exists_eq_succ_of_ne_zero (Nat.ne_of_gt hf)
    obtain ⟨e, hp, he⟩ := h.peek hline ['|', ')', '&', ';'] (by decide)
    rw [show argTokens [] ++ rest = rest from rfl] at hp he
    rw [argLoop, hp]
    rcases hr with rfl | hr
    · obtain ⟨e', hg, he', -⟩ := he.get_nil hline
      refine ⟨e', ?_, he'⟩
      dsimp only [starts]
      rw [hg]
      rfl
    · rw [hr]
      exact ⟨e, rfl, he⟩
  | cons a args ih =>
    rw [List.length_cons] at ha hf
    obtain ⟨fuel, rfl⟩ := Nat.exists_eq_succ_of_ne_zero (show fuel ≠ 0 by omega)
    have htokens : argTokens (a :: args) ++ rest =
        .word a.1 :: (redirTokens a.2 ++ (argTokens args ++ rest)) := by
      simp [argTokens]
    rw [htokens] at h
    obtain ⟨e₁, hp, h₁⟩ := h.peek hline ['|', ')', '&', ';'] (by decide)
    obtain ⟨e₂, hg, h₂⟩ := h₁.get hline
    have hnext : starts ['<', '>'] (argTokens args ++ rest) = false := by
      cases args with
      | nil => exact starts_eq_false (by decide) hr
      | cons b args => rfl
    have hlen : a.2.length < line.length + 1 := by
      have hview := h₂.length_le hline
      have := length_le_redirTokens a.2
      rw [List.length_append] at hview
      omega
    obtain ⟨e₃, hrun, h₃⟩ := parseredirs_run hline (cmd.addArg a.1) h₂ hnext hlen
    obtain ⟨e, hloop, he⟩ := ih (wrap a.2 (cmd.addArg a.1)) (argc + 1) h₃ (by omega)
      (show args.length < fuel by omega)
    refine ⟨e, ?_, he⟩
    rw [argLoop, hp, show starts ['|', ')', '&', ';'] (.word a.1 :: _) = false from rfl]
    dsimp only
    rw [if_neg (by simp), hg]
    dsimp only
    rw [if_neg (by omega), hrun, ok_bind]
    exact hloop

theorem argLoop_sound (cmd : Cmd) {argc : ℕ} (h : View line s ts) (ha : argc < MAXARGS)
    (hf : ts.length < fuel) :
    Ensures (fun r ↦ ∃ args rest, ts = argTokens args ++ rest ∧ r.1 = addArgs args cmd ∧
      argc + args.length < MAXARGS ∧ View line r.2 rest)
      (fun e ↦ e ≠ .diverge) (argLoop line fuel cmd argc s) := by
  induction fuel generalizing s ts cmd argc with
  | zero => omega
  | succ fuel ih =>
    obtain ⟨e₁, hp, h₁⟩ := h.peek hline ['|', ')', '&', ';'] (by decide)
    rw [argLoop, hp]
    cases hs : starts ['|', ')', '&', ';'] ts with
    | true => exact ⟨[], ts, rfl, rfl, ha, h₁⟩
    | false =>
      dsimp only
      rw [if_neg (by simp)]
      cases ts with
      | nil =>
        obtain ⟨e₂, hg, h₂, -⟩ := h₁.get_nil hline
        rw [hg]
        exact ⟨[], [], rfl, rfl, ha, h₂⟩
      | cons t ts =>
        obtain ⟨e₂, hg, h₂⟩ := h₁.get hline
        rw [hg]
        cases t with
        | word w =>
          dsimp only
          rw [List.length_cons] at hf
          by_cases hmax : argc + 1 ≥ MAXARGS
          · rw [if_pos hmax]
            exact Panic.noConfusion
          rw [if_neg hmax]
          have hlen : ts.length < line.length + 1 := by
            have := h₂.length_le hline
            omega
          refine (parseredirs_sound hline (cmd.addArg w) h₂ hlen).bind ?_
          rintro ⟨c, e₃⟩ ⟨rs, rest, rfl, rfl, h₃⟩
          rw [List.length_append] at hf
          refine (ih (wrap rs (cmd.addArg w)) h₃ (Nat.lt_of_not_le hmax) (by omega)).mono ?_
          rintro r ⟨args, rest, rfl, hr, hargs, he⟩
          refine ⟨(w, rs) :: args, rest, ?_, hr, ?_, he⟩
          · simp [argTokens]
          · rw [List.length_cons]
            omega
        | _ => exact Panic.noConfusion

end Runs

end Xv6Bfs.Shell

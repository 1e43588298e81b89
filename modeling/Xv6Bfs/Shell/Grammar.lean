import Xv6Bfs.Shell.Loops

namespace Xv6Bfs.Shell

open Lib.Execution

inductive Symbol
  | line
  | pipe
  | exec
  deriving DecidableEq, Repr

/-- The grammar

    line ::= pipe '&'* [';' line]
    pipe ::= exec ['|' pipe]
    exec ::= '(' line ')' redir* | redir* (word redir*)*
    redir ::= ('<' | '>' | '>>') word

with fewer than `MAXARGS` words in a simple command, and the command for each derivation. -/
inductive Derives : Symbol → List Token → Cmd → Prop
  | line {ts : List Token} {c : Cmd} (n : ℕ) : Derives .pipe ts c →
    Derives .line (ts ++ List.replicate n .amp) (backs n c)
  | list {ts ts' : List Token} {c c' : Cmd} (n : ℕ) : Derives .pipe ts c → Derives .line ts' c' →
    Derives .line (ts ++ List.replicate n .amp ++ .semi :: ts') (.list (backs n c) c')
  | exec {ts : List Token} {c : Cmd} : Derives .exec ts c → Derives .pipe ts c
  | pipe {ts ts' : List Token} {c c' : Cmd} : Derives .exec ts c → Derives .pipe ts' c' →
    Derives .pipe (ts ++ .bar :: ts') (.pipe c c')
  | block {ts : List Token} {c : Cmd} (rs : List (Arrow × Span)) : Derives .line ts c →
    Derives .exec (.lparen :: ts ++ .rparen :: redirTokens rs) (wrap rs c)
  | simple (rs : List (Arrow × Span)) (args : List (Span × List (Arrow × Span))) :
    args.length < MAXARGS → Derives .exec (redirTokens rs ++ argTokens args)
      (wrap (rs ++ args.flatMap Prod.snd) (.exec (args.map Prod.fst)))

def Symbol.follow : Symbol → List Char
  | .line => [')']
  | .pipe => [')', '&', ';']
  | .exec => [')', '&', ';', '|']

def Symbol.depth : Symbol → ℕ
  | .line => 4
  | .pipe => 3
  | .exec => 2

def Symbol.parse (line : List Char) : Symbol → ℕ → ℕ → Except Panic (Cmd × ℕ)
  | .line => parseline line
  | .pipe => parsepipe line
  | .exec => parseexec line

def SoundAt (line : List Char) (fuel : ℕ) (nt : Symbol) (depth : ℕ)
    (parse : ℕ → ℕ → Except Panic (Cmd × ℕ)) : Prop :=
  ∀ s ts, View line s ts → Ensures
    (fun r ↦ ∃ ts₁ ts₂, ts = ts₁ ++ ts₂ ∧ Derives nt ts₁ r.1 ∧ View line r.2 ts₂)
    (fun e ↦ e = .diverge → fuel < 4 * ts.length + depth) (parse fuel s)

theorem exists_of_starts {c : Char} {ts : List Token} (h : starts [c] ts = true) :
    ∃ t ts', ts = t :: ts' ∧ t.first = some c := by
  cases ts with
  | nil => cases h
  | cons t ts =>
    refine ⟨t, ts, rfl, ?_⟩
    rw [starts] at h
    cases hf : t.first with
    | none => simp [hf] at h
    | some c' =>
      rw [hf] at h
      simpa using h

section Sound

variable {line : List Char} {fuel : ℕ} (hline : NUL ∉ line)
include hline

theorem parsepipe_sound (hexec : SoundAt line fuel .exec 2 (parseexec line))
    (hpipe : SoundAt line fuel .pipe 3 (parsepipe line)) :
    SoundAt line (fuel + 1) .pipe 3 (parsepipe line) := by
  intro s ts h
  rw [parsepipe]
  refine ((hexec s ts h).weaken (fun e he hd ↦ ?_)).bind ?_
  · have := he hd
    omega
  rintro ⟨c, s₁⟩ ⟨ts₁, ts₂, rfl, hc, h₁⟩
  obtain ⟨s₂, hp, h₂⟩ := h₁.peek hline ['|'] (by decide)
  dsimp only
  rw [hp]
  dsimp only
  cases hs : starts ['|'] ts₂ with
  | false => exact ⟨ts₁, ts₂, rfl, .exec hc, h₂⟩
  | true =>
    obtain ⟨t, ts₃, rfl, ht⟩ := exists_of_starts hs
    obtain rfl : t = .bar := by cases t <;> simp [Token.first] at ht ⊢
    obtain ⟨s₃, hg, h₃⟩ := h₂.get hline
    rw [if_pos rfl, hg]
    refine ((hpipe s₃ ts₃ h₃).weaken (fun e he hd ↦ ?_)).bind ?_
    · have := he hd
      simp only [List.length_append, List.length_cons]
      omega
    · rintro ⟨c', s₄⟩ ⟨ts₄, ts₅, rfl, hc', h₄⟩
      exact ⟨ts₁ ++ .bar :: ts₄, ts₅, by simp, .pipe hc hc', h₄⟩

theorem parseline_sound (hpipe : SoundAt line fuel .pipe 3 (parsepipe line))
    (hl : SoundAt line fuel .line 4 (parseline line)) :
    SoundAt line (fuel + 1) .line 4 (parseline line) := by
  intro s ts h
  have hlen := h.length_le hline
  rw [parseline]
  refine ((hpipe s ts h).weaken (fun e he hd ↦ ?_)).bind ?_
  · have := he hd
    omega
  rintro ⟨c, s₁⟩ ⟨ts₁, ts₂, rfl, hc, h₁⟩
  rw [List.length_append] at hlen
  refine ((backLoop_sound hline c h₁ (by omega)).weaken (fun e he ↦ he.elim)).bind ?_
  rintro ⟨c', s₂⟩ ⟨n, ts₃, rfl, rfl, h₂⟩
  obtain ⟨s₃, hp, h₃⟩ := h₂.peek hline [';'] (by decide)
  dsimp only
  rw [hp]
  dsimp only
  cases hs : starts [';'] ts₃ with
  | false => exact ⟨ts₁ ++ List.replicate n .amp, ts₃, by simp, .line n hc, h₃⟩
  | true =>
    obtain ⟨t, ts₄, rfl, ht⟩ := exists_of_starts hs
    obtain rfl : t = .semi := by cases t <;> simp [Token.first] at ht ⊢
    obtain ⟨s₄, hg, h₄⟩ := h₃.get hline
    rw [if_pos rfl, hg]
    refine ((hl s₄ ts₄ h₄).weaken (fun e he hd ↦ ?_)).bind ?_
    · have := he hd
      simp only [List.length_append, List.length_cons]
      omega
    · rintro ⟨c', s₅⟩ ⟨ts₅, ts₆, rfl, hc', h₅⟩
      exact ⟨ts₁ ++ List.replicate n .amp ++ .semi :: ts₅, ts₆, by simp, .list n hc hc', h₅⟩

theorem parseblock_sound (hl : SoundAt line fuel .line 4 (parseline line)) :
    SoundAt line (fuel + 1) .exec 1 (parseblock line) := by
  intro s ts h
  obtain ⟨s₁, hp, h₁⟩ := h.peek hline ['('] (by decide)
  rw [parseblock, hp]
  dsimp only
  cases hs : starts ['('] ts with
  | false => exact fun hd ↦ Panic.noConfusion hd
  | true =>
    obtain ⟨t, ts₂, rfl, ht⟩ := exists_of_starts hs
    obtain rfl : t = .lparen := by cases t <;> simp [Token.first] at ht ⊢
    obtain ⟨s₂, hg, h₂⟩ := h₁.get hline
    have hlen := h₂.length_le hline
    rw [if_pos rfl, hg]
    refine ((hl s₂ ts₂ h₂).weaken (fun e he hd ↦ ?_)).bind ?_
    · have := he hd
      simp only [List.length_cons]
      omega
    rintro ⟨c, s₃⟩ ⟨ts₃, ts₄, rfl, hc, h₃⟩
    obtain ⟨s₄, hp', h₄⟩ := h₃.peek hline [')'] (by decide)
    dsimp only
    rw [hp']
    dsimp only
    cases hs' : starts [')'] ts₄ with
    | false => exact fun hd ↦ Panic.noConfusion hd
    | true =>
      obtain ⟨t, ts₅, rfl, ht⟩ := exists_of_starts hs'
      obtain rfl : t = .rparen := by cases t <;> simp [Token.first] at ht ⊢
      obtain ⟨s₅, hg', h₅⟩ := h₄.get hline
      rw [if_pos rfl, hg']
      simp only [List.length_append, List.length_cons] at hlen
      refine ((parseredirs_sound hline c h₅ (by omega)).weaken (fun e he hd ↦ absurd hd he)).mono ?_
      rintro r ⟨rs, ts₆, rfl, hr, h₆⟩
      refine ⟨.lparen :: ts₃ ++ .rparen :: redirTokens rs, ts₆, by simp, ?_, h₆⟩
      rw [hr]
      exact .block rs hc

theorem parseexec_sound (hblock : SoundAt line fuel .exec 1 (parseblock line)) :
    SoundAt line (fuel + 1) .exec 2 (parseexec line) := by
  intro s ts h
  obtain ⟨s₁, hp, h₁⟩ := h.peek hline ['('] (by decide)
  have hlen := h₁.length_le hline
  rw [parseexec, hp]
  dsimp only
  cases hs : starts ['('] ts with
  | true =>
    rw [if_pos rfl]
    refine (hblock s₁ ts h₁).weaken (fun e he hd ↦ ?_)
    have := he hd
    omega
  | false =>
    rw [if_neg (by simp)]
    refine ((parseredirs_sound hline (.exec []) h₁ (by omega)).weaken (fun e he hd ↦ absurd hd he)).bind ?_
    rintro ⟨c, s₂⟩ ⟨rs, ts₂, rfl, rfl, h₂⟩
    rw [List.length_append] at hlen
    refine ((argLoop_sound hline (wrap rs (.exec [])) h₂ (by decide) (by omega)).weaken
      (fun e he hd ↦ absurd hd he)).mono ?_
    rintro r ⟨args, ts₃, rfl, hr, hmax, h₃⟩
    refine ⟨redirTokens rs ++ argTokens args, ts₃, by simp, ?_, h₃⟩
    rw [hr, addArgs_wrap, List.nil_append]
    exact .simple rs args (by simpa using hmax)

theorem parse_sound (fuel : ℕ) :
    SoundAt line fuel .line 4 (parseline line) ∧ SoundAt line fuel .pipe 3 (parsepipe line) ∧
      SoundAt line fuel .exec 1 (parseblock line) ∧ SoundAt line fuel .exec 2 (parseexec line) := by
  induction fuel with
  | zero =>
    have hzero (nt : Symbol) {depth : ℕ} {parse : ℕ → ℕ → Except Panic (Cmd × ℕ)} (hd : 0 < depth)
        (hp : ∀ s, parse 0 s = .error .diverge) : SoundAt line 0 nt depth parse := by
      intro s ts _
      rw [hp s]
      intro _
      omega
    exact ⟨hzero .line (by decide) (fun s ↦ by rw [parseline]),
      hzero .pipe (by decide) (fun s ↦ by rw [parsepipe]),
      hzero .exec (by decide) (fun s ↦ by rw [parseblock]),
      hzero .exec (by decide) (fun s ↦ by rw [parseexec])⟩
  | succ fuel ih =>
    obtain ⟨hl, hpipe, hblock, hexec⟩ := ih
    exact ⟨parseline_sound hline hpipe hl, parsepipe_sound hline hexec hpipe,
      parseblock_sound hline hl, parseexec_sound hline hblock⟩

end Sound

section Complete

variable {line : List Char} {nt : Symbol} {ts ts' rest : List Token} {c c' : Cmd}

def CompleteAt (line : List Char) (nt : Symbol) (ts : List Token) (c : Cmd) : Prop :=
  ∀ s rest fuel, View line s (ts ++ rest) → Follows nt.follow rest →
    4 * (ts ++ rest).length + nt.depth ≤ fuel →
    ∃ e, nt.parse line fuel s = .ok (c, e) ∧ View line e rest

theorem follows_amps (n : ℕ) (h : Follows [')', ';'] rest) :
    Follows [')', '&', ';'] (List.replicate n .amp ++ rest) := by
  cases n with
  | zero => exact h.mono (by decide)
  | succ n => exact .inr rfl

variable (hline : NUL ∉ line)
include hline

theorem pipe_exec (h : CompleteAt line .exec ts c) : CompleteAt line .pipe ts c := by
  intro s rest fuel hv hfol hfuel
  obtain ⟨fuel, rfl⟩ := Nat.exists_eq_add_of_lt (show 0 < fuel by simp only [Symbol.depth] at hfuel; omega)
  rw [Nat.zero_add] at hfuel ⊢
  obtain ⟨e, hrun, he⟩ := h s rest fuel hv (hfol.mono (by decide))
    (by simp only [Symbol.depth] at hfuel ⊢; omega)
  obtain ⟨e', hp, he'⟩ := he.peek hline ['|'] (by decide)
  have hbar : starts ['|'] rest = false := starts_eq_false (by decide) hfol
  refine ⟨e', ?_, he'⟩
  simp only [Symbol.parse] at hrun ⊢
  rw [parsepipe, hrun, ok_bind]
  dsimp only
  rw [hp, hbar]
  rfl

theorem pipe_pipe (h : CompleteAt line .exec ts c) (h' : CompleteAt line .pipe ts' c') :
    CompleteAt line .pipe (ts ++ .bar :: ts') (.pipe c c') := by
  intro s rest fuel hv hfol hfuel
  rw [List.append_assoc, List.cons_append] at hv hfuel
  simp only [Symbol.depth, List.length_append, List.length_cons] at hfuel
  obtain ⟨fuel, rfl⟩ := Nat.exists_eq_add_of_lt (show 0 < fuel by omega)
  rw [Nat.zero_add] at hfuel ⊢
  obtain ⟨e, hrun, he⟩ := h s _ fuel hv (.inr rfl)
    (by simp only [Symbol.depth, List.length_append, List.length_cons]; omega)
  obtain ⟨e₁, hp, he₁⟩ := he.peek hline ['|'] (by decide)
  obtain ⟨e₂, hg, he₂⟩ := he₁.get hline
  obtain ⟨e₃, hrun', he₃⟩ := h' e₂ rest fuel he₂ hfol
    (by simp only [Symbol.depth, List.length_append]; omega)
  refine ⟨e₃, ?_, he₃⟩
  simp only [Symbol.parse] at hrun hrun' ⊢
  rw [parsepipe, hrun, ok_bind]
  dsimp only
  rw [hp, show starts ['|'] (.bar :: (ts' ++ rest)) = true from rfl]
  dsimp only
  rw [if_pos rfl, hg]
  dsimp only
  rw [hrun']
  rfl

theorem line_amps (n : ℕ) (h : CompleteAt line .pipe ts c) :
    CompleteAt line .line (ts ++ List.replicate n .amp) (backs n c) := by
  intro s rest fuel hv hfol hfuel
  have hlen := hv.length_le hline
  rw [List.append_assoc] at hv
  simp only [Symbol.depth, List.length_append, List.length_replicate] at hfuel hlen
  obtain ⟨fuel, rfl⟩ := Nat.exists_eq_add_of_lt (show 0 < fuel by omega)
  rw [Nat.zero_add] at hfuel ⊢
  obtain ⟨e, hrun, he⟩ := h s _ fuel hv (follows_amps n (hfol.mono (by decide)))
    (by simp only [Symbol.depth, List.length_append, List.length_replicate]; omega)
  have hamp : starts ['&'] rest = false := starts_eq_false (by decide) hfol
  have hsemi : starts [';'] rest = false := starts_eq_false (by decide) hfol
  obtain ⟨e₁, hback, he₁⟩ := backLoop_run hline c he hamp (show n < line.length + 1 by omega)
  obtain ⟨e₂, hp, he₂⟩ := he₁.peek hline [';'] (by decide)
  refine ⟨e₂, ?_, he₂⟩
  simp only [Symbol.parse] at hrun ⊢
  rw [parseline, hrun, ok_bind]
  dsimp only
  rw [hback, ok_bind]
  dsimp only
  rw [hp, hsemi]
  rfl

theorem line_list (n : ℕ) (h : CompleteAt line .pipe ts c) (h' : CompleteAt line .line ts' c') :
    CompleteAt line .line (ts ++ List.replicate n .amp ++ .semi :: ts') (.list (backs n c) c') := by
  intro s rest fuel hv hfol hfuel
  have hlen := hv.length_le hline
  rw [List.append_assoc, List.append_assoc, List.cons_append] at hv
  simp only [Symbol.depth, List.length_append, List.length_replicate, List.length_cons] at hfuel hlen
  obtain ⟨fuel, rfl⟩ := Nat.exists_eq_add_of_lt (show 0 < fuel by omega)
  rw [Nat.zero_add] at hfuel ⊢
  obtain ⟨e, hrun, he⟩ := h s _ fuel hv (follows_amps n (.inr rfl))
    (by simp only [Symbol.depth, List.length_append, List.length_replicate, List.length_cons]; omega)
  obtain ⟨e₁, hback, he₁⟩ := backLoop_run hline c he (show starts ['&'] (.semi :: _) = false from rfl)
    (show n < line.length + 1 by omega)
  obtain ⟨e₂, hp, he₂⟩ := he₁.peek hline [';'] (by decide)
  obtain ⟨e₃, hg, he₃⟩ := he₂.get hline
  obtain ⟨e₄, hrun', he₄⟩ := h' e₃ rest fuel he₃ hfol
    (by simp only [Symbol.depth, List.length_append]; omega)
  refine ⟨e₄, ?_, he₄⟩
  simp only [Symbol.parse] at hrun hrun' ⊢
  rw [parseline, hrun, ok_bind]
  dsimp only
  rw [hback, ok_bind]
  dsimp only
  rw [hp, show starts [';'] (.semi :: (ts' ++ rest)) = true from rfl]
  dsimp only
  rw [if_pos rfl, hg]
  dsimp only
  rw [hrun']
  rfl

theorem exec_block (rs : List (Arrow × Span)) (h : CompleteAt line .line ts c) :
    CompleteAt line .exec (.lparen :: ts ++ .rparen :: redirTokens rs) (wrap rs c) := by
  intro s rest fuel hv hfol hfuel
  rw [List.append_assoc, List.cons_append, List.cons_append] at hv
  simp only [Symbol.depth, List.length_append, List.length_cons] at hfuel
  obtain ⟨fuel, rfl⟩ := Nat.exists_eq_add_of_lt (show 1 < fuel by omega)
  obtain ⟨e₁, hp₁, he₁⟩ := hv.peek hline ['('] (by decide)
  obtain ⟨e₂, hp₂, he₂⟩ := he₁.peek hline ['('] (by decide)
  obtain ⟨e₃, hg₃, he₃⟩ := he₂.get hline
  obtain ⟨e₄, hrun, he₄⟩ := h e₃ _ fuel he₃ (.inr rfl)
    (by simp only [Symbol.depth, List.length_append, List.length_cons]; omega)
  obtain ⟨e₅, hp₅, he₅⟩ := he₄.peek hline [')'] (by decide)
  obtain ⟨e₆, hg₆, he₆⟩ := he₅.get hline
  have hlen := he₆.length_le hline
  have hrs := length_le_redirTokens rs
  rw [List.length_append] at hlen
  obtain ⟨e₇, hredirs, he₇⟩ := parseredirs_run hline c he₆ (starts_eq_false (by decide) hfol)
    (show rs.length < line.length + 1 by omega)
  refine ⟨e₇, ?_, he₇⟩
  simp only [Symbol.parse] at hrun ⊢
  rw [show 1 + fuel + 1 = fuel + 1 + 1 by omega, parseexec, hp₁,
    show starts ['('] (.lparen :: _) = true from rfl]
  dsimp only
  rw [if_pos rfl, parseblock, hp₂, show starts ['('] (.lparen :: _) = true from rfl]
  dsimp only
  rw [if_pos rfl, hg₃]
  dsimp only
  rw [hrun, ok_bind]
  dsimp only
  rw [hp₅, show starts [')'] (.rparen :: _) = true from rfl]
  dsimp only
  rw [if_pos rfl, hg₆]
  exact hredirs

theorem exec_simple (rs : List (Arrow × Span)) (args : List (Span × List (Arrow × Span)))
    (hmax : args.length < MAXARGS) :
    CompleteAt line .exec (redirTokens rs ++ argTokens args)
      (wrap (rs ++ args.flatMap Prod.snd) (.exec (args.map Prod.fst))) := by
  intro s rest fuel hv hfol hfuel
  have hlen := hv.length_le hline
  rw [List.append_assoc] at hv
  have hrs := length_le_redirTokens rs
  have hargs := length_le_argTokens args
  simp only [Symbol.depth, List.length_append] at hfuel hlen
  obtain ⟨fuel, rfl⟩ := Nat.exists_eq_add_of_lt (show 0 < fuel by omega)
  have hopen : starts ['('] (redirTokens rs ++ (argTokens args ++ rest)) = false := by
    cases rs with
    | nil =>
      cases args with
      | nil => exact starts_eq_false (by decide) hfol
      | cons a args => rfl
    | cons r rs =>
      obtain ⟨a, w⟩ := r
      cases a <;> rfl
  have harrow : starts ['<', '>'] (argTokens args ++ rest) = false := by
    cases args with
    | nil => exact starts_eq_false (by decide) hfol
    | cons a args => rfl
  obtain ⟨e₁, hp, he₁⟩ := hv.peek hline ['('] (by decide)
  obtain ⟨e₂, hredirs, he₂⟩ := parseredirs_run hline (.exec []) he₁ harrow
    (show rs.length < line.length + 1 by omega)
  obtain ⟨e₃, hloop, he₃⟩ := argLoop_run hline (wrap rs (.exec [])) 0 he₂
    (hfol.mono (by decide)) (by omega) (show args.length < line.length + 1 by omega)
  refine ⟨e₃, ?_, he₃⟩
  rw [Symbol.parse, Nat.zero_add, parseexec, hp, hopen]
  dsimp only
  rw [if_neg (by simp), hredirs, ok_bind]
  dsimp only
  rw [hloop, addArgs_wrap, List.nil_append]

theorem Derives.complete (h : Derives nt ts c) : CompleteAt line nt ts c := by
  induction h with
  | line n _ ih => exact line_amps hline n ih
  | list n _ _ ih ih' => exact line_list hline n ih ih'
  | exec _ ih => exact pipe_exec hline ih
  | pipe _ _ ih ih' => exact pipe_pipe hline ih ih'
  | block rs _ ih => exact exec_block hline rs ih
  | simple rs args hmax => exact exec_simple hline rs args hmax

end Complete

end Xv6Bfs.Shell

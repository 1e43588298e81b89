import Xv6Bfs.Shell.Grammar

namespace Xv6Bfs.Shell

open Lib.Execution

section Strings

/-- The words of a command, in the order of `nulterminate`. -/
def Cmd.words : Cmd → List Span
  | .exec argv => argv
  | .redir cmd file _ _ => cmd.words ++ [file]
  | .pipe left right | .list left right => left.words ++ right.words
  | .back cmd => cmd.words

def cstring (buf : List Char) (q : ℕ) : List Char := (buf.drop q).takeWhile (· ≠ NUL)

def Span.text (line : List Char) (w : Span) : List Char := (line.drop w.q).take (w.eq - w.q)

variable {line buf : List Char} {ts : List Token} {c : Cmd} {w : Span}

theorem words_wrap {rs : List (Arrow × Span)} :
    (wrap rs c).words = c.words ++ rs.map Prod.snd := by
  induction rs generalizing c with
  | nil => simp [wrap]
  | cons r rs ih =>
    rw [wrap, List.foldl_cons, ← wrap, ih, Cmd.words]
    simp

theorem words_backs {n : ℕ} : (backs n c).words = c.words := by
  induction n generalizing c with
  | zero => rfl
  | succ n ih => exact ih

def spans (ts : List Token) : List Span :=
  ts.filterMap fun t ↦ match t with
    | .word w => some w
    | _ => none

theorem spans_append (ts ts' : List Token) : spans (ts ++ ts') = spans ts ++ spans ts' :=
  List.filterMap_append

theorem spans_amps (n : ℕ) : spans (List.replicate n .amp) = [] := by
  induction n with
  | zero => rfl
  | succ n ih => exact ih

theorem spans_redirTokens (rs : List (Arrow × Span)) : spans (redirTokens rs) = rs.map Prod.snd := by
  induction rs with
  | nil => rfl
  | cons r rs ih =>
    obtain ⟨arrow, file⟩ := r
    rw [redirTokens, List.flatMap_cons, ← redirTokens, spans_append, ih]
    cases arrow <;> rfl

theorem spans_argTokens (args : List (Span × List (Arrow × Span))) :
    (spans (argTokens args)).Perm (args.map Prod.fst ++ (args.flatMap Prod.snd).map Prod.snd) := by
  induction args with
  | nil => exact .refl _
  | cons a args ih =>
    have hhead : spans (.word a.1 :: redirTokens a.2) = a.1 :: a.2.map Prod.snd :=
      congrArg (a.1 :: ·) (spans_redirTokens a.2)
    rw [argTokens, List.flatMap_cons, ← argTokens, spans_append, hhead, List.map_cons,
      List.flatMap_cons, List.map_append]
    exact ((ih.append_left _).trans (List.perm_append_comm_assoc _ _ _)).cons _

theorem Derives.words_perm {nt : Symbol} (h : Derives nt ts c) : c.words.Perm (spans ts) := by
  induction h with
  | line n _ ih => rwa [words_backs, spans_append, spans_amps, List.append_nil]
  | list n _ _ ih ih' =>
    rw [Cmd.words, words_backs, spans_append, spans_append, spans_amps, List.append_nil]
    exact ih.append ih'
  | exec _ ih => exact ih
  | pipe _ _ ih ih' =>
    rw [Cmd.words, spans_append]
    exact ih.append ih'
  | block rs _ ih =>
    have htokens (x : List Token) : spans (.lparen :: x ++ .rparen :: redirTokens rs) =
        spans x ++ spans (redirTokens rs) := spans_append x _
    rw [words_wrap, htokens, spans_redirTokens]
    exact ih.append_right _
  | simple rs args _ =>
    rw [words_wrap, Cmd.words, spans_append, spans_redirTokens, List.map_append]
    exact (List.perm_append_comm_assoc _ _ _).trans ((spans_argTokens args).symm.append_left _)

theorem mem_spans (hw : w ∈ spans ts) : .word w ∈ ts := by
  obtain ⟨t, ht, he⟩ := List.mem_filterMap.mp hw
  cases t with
  | word w' =>
    cases he
    exact ht
  | _ => cases he

theorem Derives.words_mem {nt : Symbol} (h : Derives nt ts c) (hw : w ∈ c.words) : .word w ∈ ts :=
  mem_spans (h.words_perm.mem_iff.mp hw)

def terminate (ws : List Span) (buf : List Char) : List Char :=
  ws.foldl (fun buf w ↦ buf.set w.eq NUL) buf

theorem nulterminate_eq : nulterminate c buf = terminate c.words buf := by
  induction c generalizing buf with
  | exec argv => rfl
  | redir c file mode fd ih =>
    rw [nulterminate, ih, Cmd.words, terminate, terminate, List.foldl_append]
    rfl
  | pipe _ _ ihl ihr | list _ _ ihl ihr =>
    rw [nulterminate, ihl, ihr, Cmd.words, terminate, terminate, terminate, List.foldl_append]
  | back c ih => exact ih

theorem getElem?_terminate {ws : List Span} {i : ℕ} (hi : i < buf.length) :
    (terminate ws buf)[i]? = if ws.any (fun w ↦ w.eq = i) then some NUL else buf[i]? := by
  induction ws generalizing buf with
  | nil => rfl
  | cons w ws ih =>
    rw [terminate, List.foldl_cons, ← terminate, ih (by rwa [List.length_set]), List.any_cons]
    by_cases hw : w.eq = i
    · subst hw
      simp [hi]
    · rw [List.getElem?_set_ne hw]
      simp [hw]

theorem cstring_terminate {ws : List Span} (hline : NUL ∉ line) (hgood : ∀ w ∈ ws, w.Good line)
    (hw : w ∈ ws) : cstring (terminate ws (line ++ [NUL])) w.q = w.text line := by
  have hgw := hgood w hw
  have hlt : w.eq < (line ++ [NUL]).length := by
    have := hgw.le_length
    rw [List.length_append]
    simp only [List.length_singleton]
    omega
  have hend : (terminate ws (line ++ [NUL]))[w.eq]? = some NUL := by
    rw [getElem?_terminate hlt, if_pos]
    exact List.any_eq_true.mpr ⟨w, hw, by simp⟩
  have hin (i : ℕ) (h1 : w.q ≤ i) (h2 : i < w.eq) :
      (terminate ws (line ++ [NUL]))[i]? = (line)[i]? := by
    have hi : i < line.length := Nat.lt_of_lt_of_le h2 hgw.le_length
    rw [getElem?_terminate (by omega), if_neg, List.getElem?_append_left hi]
    -- no word ends within another one
    intro hany
    obtain ⟨w', hw', he⟩ := List.any_eq_true.mp hany
    have he : w'.eq = i := of_decide_eq_true he
    have hout := (hgood w' hw').outside (he ▸ hi)
    rw [he, hgw.inside i h1 h2] at hout
    cases hout
  have htake : ((terminate ws (line ++ [NUL])).drop w.q).take (w.eq - w.q) = w.text line := by
    apply List.ext_getElem?
    intro i
    rw [Span.text, List.getElem?_take, List.getElem?_take, List.getElem?_drop, List.getElem?_drop]
    split
    · exact hin _ (Nat.le_add_right _ _) (by omega)
    · rfl
  have hdrop : (terminate ws (line ++ [NUL])).drop w.q =
      w.text line ++ NUL :: (terminate ws (line ++ [NUL])).drop (w.eq + 1) := by
    rw [← htake]
    conv_lhs => rw [← List.take_append_drop (w.eq - w.q) ((terminate ws (line ++ [NUL])).drop w.q)]
    rw [List.drop_drop, show w.q + (w.eq - w.q) = w.eq by have := hgw.lt; omega]
    congr 1
    obtain ⟨hlen, he⟩ := List.getElem?_eq_some_iff.mp hend
    rw [List.drop_eq_getElem_cons hlen, he]
  rw [cstring, hdrop, List.takeWhile_append_of_pos, List.takeWhile_cons_of_neg (by simp), List.append_nil]
  intro a ha
  have hmem : a ∈ line := List.mem_of_mem_drop (List.mem_of_mem_take ha)
  exact decide_eq_true (fun he ↦ hline (he ▸ hmem))

end Strings

section Parsecmd

variable {line : List Char} {c : Cmd}

theorem parsecmd_ensures (hline : NUL ∉ line) :
    Ensures (fun r ↦ Derives .line (tokens line) r.1 ∧ r.2 = nulterminate r.1 (line ++ [NUL]))
      (fun e ↦ e ≠ .diverge) (parsecmd line) := by
  have hstart := View.start line
  have hlen := hstart.length_le hline
  refine (((parse_sound hline _).1 0 _ hstart).weaken (fun e he hd ↦ ?_)).bind ?_
  · have := he hd
    omega
  rintro ⟨c, s⟩ ⟨ts₁, ts₂, hts, hc, h₁⟩
  obtain ⟨s₂, hp, -⟩ := h₁.peek hline [] (by simp)
  have hs₂ : s₂ = skip line isWhite s := (congrArg Prod.snd hp).symm
  dsimp only
  rw [hp]
  dsimp only
  split
  · exact Panic.noConfusion
  · rename_i hs
    have hnil : ts₂ = [] := (h₁.eq_nil_iff hline).mp (hs₂ ▸ not_not.mp hs)
    rw [hnil, List.append_nil] at hts
    exact ⟨hts ▸ hc, rfl⟩

theorem parsecmd_complete (hline : NUL ∉ line) (h : Derives .line (tokens line) c) :
    parsecmd line = .ok (c, nulterminate c (line ++ [NUL])) := by
  have hstart := View.start line
  have hlen := hstart.length_le hline
  rw [← List.append_nil (tokens line)] at hstart
  obtain ⟨e, hrun, he⟩ := h.complete hline 0 [] (4 * line.length + 4) hstart (.inl rfl) (by
    rw [List.append_nil, Symbol.depth]
    omega)
  obtain ⟨e₂, hp, -⟩ := he.peek hline [] (by simp)
  have he₂ : e₂ = skip line isWhite e := (congrArg Prod.snd hp).symm
  simp only [Symbol.parse] at hrun
  rw [parsecmd, hrun, ok_bind]
  dsimp only
  rw [hp]
  dsimp only
  rw [if_neg (not_not.mpr (he₂.trans ((he.eq_nil_iff hline).mpr rfl)))]

theorem parsecmd_words {buf : List Char} (hline : NUL ∉ line) (h : parsecmd line = .ok (c, buf)) {w : Span}
    (hw : w ∈ c.words) : .word w ∈ tokens line ∧ cstring buf w.q = w.text line := by
  obtain ⟨hder, hbuf⟩ := (parsecmd_ensures hline).of_ok h
  dsimp only at hder hbuf
  refine ⟨hder.words_mem hw, ?_⟩
  rw [hbuf, nulterminate_eq]
  refine cstring_terminate hline (fun w' hw' ↦ ?_) hw
  exact tokensFrom_good hline (Nat.zero_le _) (hder.words_mem hw')

end Parsecmd

/-- `parsecmd` comes to an end, it returns exactly the commands that the grammar has for the line,
and their words are the words of the line. -/
theorem parsecmd_accepts_grammar {line : List Char} (hline : NUL ∉ line) :
    parsecmd line ≠ .error .diverge ∧
      (∀ c, (∃ buf, parsecmd line = .ok (c, buf)) ↔ Derives .line (tokens line) c) ∧
      ∀ c buf, parsecmd line = .ok (c, buf) → ∀ w ∈ c.words, cstring buf w.q = w.text line := by
  have hens := parsecmd_ensures hline
  refine ⟨fun he ↦ hens.of_error he rfl, fun c ↦ ⟨?_, fun h ↦ ⟨_, parsecmd_complete hline h⟩⟩,
    fun c buf he w hw ↦ (parsecmd_words hline he hw).2⟩
  rintro ⟨buf, he⟩
  exact (hens.of_ok he).1

/-- `a b >f | (c;d) >>g &` without its blanks. -/
def sampleLine : List Char :=
  ['a', ' ', 'b', '>', 'f', '|', '(', 'c', ';', 'd', ')', '>', '>', 'g', '&']

def sampleCmd : Cmd :=
  .back (.pipe (.redir (.exec [⟨0, 1⟩, ⟨2, 3⟩]) ⟨4, 5⟩ 0x201 1)
    (.redir (.list (.exec [⟨7, 8⟩]) (.exec [⟨9, 10⟩])) ⟨13, 14⟩ 0x201 1))

theorem parsecmd_accepts_grammar_sample :
    NUL ∉ sampleLine ∧ Derives .line (tokens sampleLine) sampleCmd ∧
      ∃ buf, parsecmd sampleLine = .ok (sampleCmd, buf) ∧ cstring buf 13 = ['g'] := by
  have hline : NUL ∉ sampleLine := by decide
  obtain ⟨-, hiff, hstrings⟩ := parsecmd_accepts_grammar hline
  have hrun : Ensures (fun r ↦ r.1 = sampleCmd) (fun _ ↦ False) (parsecmd sampleLine) := by
    decide +kernel
  obtain ⟨⟨c, buf⟩, he, rfl⟩ := hrun.exists_ok
  exact ⟨hline, (hiff _).mp ⟨buf, he⟩, buf, he, hstrings _ _ he ⟨13, 14⟩ (by decide)⟩

def Cmd.nodes : Cmd → List Cmd
  | .exec argv => [.exec argv]
  | .redir cmd file mode fd => .redir cmd file mode fd :: cmd.nodes
  | .pipe left right => .pipe left right :: (left.nodes ++ right.nodes)
  | .list left right => .list left right :: (left.nodes ++ right.nodes)
  | .back cmd => .back cmd :: cmd.nodes

theorem Cmd.words_subset {c d : Cmd} (h : d ∈ c.nodes) : d.words ⊆ c.words := by
  induction c with
  | exec argv => rw [List.mem_singleton.mp h]; exact List.Subset.refl _
  | redir cmd file mode fd ih =>
    rcases List.mem_cons.mp h with rfl | h
    · exact List.Subset.refl _
    · exact fun w hw ↦ List.mem_append_left _ (ih h hw)
  | pipe left right ihl ihr | list left right ihl ihr =>
    rcases List.mem_cons.mp h with rfl | h
    · exact List.Subset.refl _
    · rcases List.mem_append.mp h with h | h
      · exact fun w hw ↦ List.mem_append_left _ (ihl h hw)
      · exact fun w hw ↦ List.mem_append_right _ (ihr h hw)
  | back cmd ih =>
    rcases List.mem_cons.mp h with rfl | h
    · exact List.Subset.refl _
    · exact ih h

/-- The strings of a command are the words of the line: each of them is used once, and it can be read
from the line that has become the strings. -/
theorem strings_are_words {line buf : List Char} {c : Cmd} (hline : NUL ∉ line)
    (h : parsecmd line = .ok (c, buf)) :
    (∀ argv, .exec argv ∈ c.nodes → ∀ w ∈ argv,
      .word w ∈ tokens line ∧ cstring buf w.q = w.text line) ∧
    (∀ cmd file mode fd, .redir cmd file mode fd ∈ c.nodes →
      .word file ∈ tokens line ∧ cstring buf file.q = file.text line) ∧
    c.words.Perm (spans (tokens line)) := by
  refine ⟨fun argv hargv w hw ↦ parsecmd_words hline h (Cmd.words_subset hargv hw),
    fun cmd file mode fd hr ↦ parsecmd_words hline h (Cmd.words_subset hr ?_),
    ((parsecmd_ensures hline).of_ok h).1.words_perm⟩
  exact List.mem_append_right _ (List.mem_singleton_self _)

theorem strings_are_words_sample :
    ∃ buf, parsecmd sampleLine = .ok (sampleCmd, buf) ∧ cstring buf 2 = ['b'] ∧ cstring buf 4 = ['f'] := by
  have hrun : Ensures (fun r ↦ r.1 = sampleCmd) (fun _ ↦ False) (parsecmd sampleLine) := by
    decide +kernel
  obtain ⟨⟨c, buf⟩, he, rfl⟩ := hrun.exists_ok
  obtain ⟨hargs, hfiles, -⟩ := strings_are_words (by decide) he
  exact ⟨buf, he, (hargs [⟨0, 1⟩, ⟨2, 3⟩] (by decide) ⟨2, 3⟩ (by decide)).2,
    (hfiles (.exec [⟨0, 1⟩, ⟨2, 3⟩]) ⟨4, 5⟩ 0x201 1 (by decide)).2⟩

end Xv6Bfs.Shell

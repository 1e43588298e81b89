import Xv6Bfs.Lib.Execution
import Xv6Bfs.Param

namespace Xv6Bfs.Shell

open Lib.Execution

def MAXARGS : ℕ := 20

def NUL : Char := Char.ofNat 0

def whitespace : List Char := [' ', Char.ofNat 9, Char.ofNat 13, Char.ofNat 10, Char.ofNat 11]

def symbols : List Char := ['<', '|', '>', '&', ';', '(', ')']

/-- The word between the pointers `q` and `eq`, which count from the start of the line. -/
structure Span where
  q : ℕ
  eq : ℕ
  deriving DecidableEq, Repr

/-- What `gettoken` finds. It returns `+` for `gtgt` and `a` for a word. Only for words the
callers look at `q` and `eq`. -/
inductive Token
  | bar
  | lparen
  | rparen
  | semi
  | amp
  | lt
  | gt
  | gtgt
  | word (w : Span)
  deriving DecidableEq, Repr

inductive Cmd
  | exec (argv : List Span)
  | redir (cmd : Cmd) (file : Span) (mode fd : ℕ)
  | pipe (left right : Cmd)
  | list (left right : Cmd)
  | back (cmd : Cmd)
  deriving DecidableEq, Repr

/-- The calls of `panic`, and a loop or a recursion that does not end. -/
inductive Panic
  | leftovers
  | missingFile
  | parseblock
  | missingParen
  | syntaxError
  | tooManyArgs
  | diverge
  deriving DecidableEq, Repr

section Lexer

variable (line : List Char)

def char (s : ℕ) : Char := line.getD s NUL

def skip (f : Char → Bool) (s : ℕ) : ℕ := s + ((line.drop s).takeWhile f).length

def isWhite (c : Char) : Bool := whitespace.contains c

def isWord (c : Char) : Bool := !whitespace.contains c && !symbols.contains c

def single (c : Char) : Option Token :=
  if c = '|' then some .bar
  else if c = '(' then some .lparen
  else if c = ')' then some .rparen
  else if c = ';' then some .semi
  else if c = '&' then some .amp
  else if c = '<' then some .lt
  else none

def scan (s : ℕ) : Option Token × ℕ :=
  if char line s = NUL then (none, s)
  else match single (char line s) with
    | some t => (some t, s + 1)
    | none =>
      if char line s = '>' then
        if char line (s + 1) = '>' then (some .gtgt, s + 2) else (some .gt, s + 1)
      else (some (.word ⟨s, skip line isWord s⟩), skip line isWord s)

/-- The result is `none` for 0. -/
def gettoken (s : ℕ) : Option Token × ℕ :=
  let (ret, s) := scan line (skip line isWhite s)
  (ret, skip line isWhite s)

def peek (toks : List Char) (s : ℕ) : Bool × ℕ :=
  let s := skip line isWhite s
  (decide (char line s ≠ NUL) && toks.contains (char line s), s)

end Lexer

namespace Cmd

/-- The command around `cmd` that `parseredirs` builds for the token `tok` and its file. -/
def redirect (tok : Option Token) (file : Span) (cmd : Cmd) : Cmd :=
  match tok with
  | some .lt => .redir cmd file O_RDONLY 0
  | some .gt => .redir cmd file (O_WRONLY ||| O_CREATE) 1
  | some .gtgt => .redir cmd file (O_WRONLY ||| O_CREATE) 1
  | _ => cmd

/-- `cmd->argv[argc] = q` and `cmd->eargv[argc] = eq` in the `execcmd` below the
redirections. -/
def addArg (w : Span) : Cmd → Cmd
  | .exec argv => .exec (argv ++ [w])
  | .redir cmd file mode fd => .redir (cmd.addArg w) file mode fd
  | cmd => cmd

end Cmd

section Parser

variable (line : List Char)

def backLoop : ℕ → Cmd → ℕ → Except Panic (Cmd × ℕ)
  | 0, _, _ => .error .diverge
  | fuel + 1, cmd, s =>
    let (found, s) := peek line ['&'] s
    if found then
      let (_, s) := gettoken line s
      backLoop fuel (.back cmd) s
    else .ok (cmd, s)

def parseredirs : ℕ → Cmd → ℕ → Except Panic (Cmd × ℕ)
  | 0, _, _ => .error .diverge
  | fuel + 1, cmd, s =>
    let (found, s) := peek line ['<', '>'] s
    if found then
      let (tok, s) := gettoken line s
      match gettoken line s with
      | (some (.word w), s) => parseredirs fuel (cmd.redirect tok w) s
      | _ => .error .missingFile
    else .ok (cmd, s)

def argLoop : ℕ → Cmd → ℕ → ℕ → Except Panic (Cmd × ℕ)
  | 0, _, _, _ => .error .diverge
  | fuel + 1, cmd, argc, s =>
    let (found, s) := peek line ['|', ')', '&', ';'] s
    if found then .ok (cmd, s)
    else match gettoken line s with
      | (none, s) => .ok (cmd, s)
      | (some (.word w), s) =>
        let cmd := cmd.addArg w
        let argc := argc + 1
        if argc ≥ MAXARGS then .error .tooManyArgs
        else do
          let (cmd, s) ← parseredirs line (line.length + 1) cmd s
          argLoop fuel cmd argc s
      | _ => .error .syntaxError

mutual

def parseline : ℕ → ℕ → Except Panic (Cmd × ℕ)
  | 0, _ => .error .diverge
  | fuel + 1, s => do
    let (cmd, s) ← parsepipe fuel s
    let (cmd, s) ← backLoop line (line.length + 1) cmd s
    let (found, s) := peek line [';'] s
    if found then
      let (_, s) := gettoken line s
      let (right, s) ← parseline fuel s
      .ok (.list cmd right, s)
    else .ok (cmd, s)

def parsepipe : ℕ → ℕ → Except Panic (Cmd × ℕ)
  | 0, _ => .error .diverge
  | fuel + 1, s => do
    let (cmd, s) ← parseexec fuel s
    let (found, s) := peek line ['|'] s
    if found then
      let (_, s) := gettoken line s
      let (right, s) ← parsepipe fuel s
      .ok (.pipe cmd right, s)
    else .ok (cmd, s)

def parseblock : ℕ → ℕ → Except Panic (Cmd × ℕ)
  | 0, _ => .error .diverge
  | fuel + 1, s =>
    let (found, s) := peek line ['('] s
    if found then do
      let (_, s) := gettoken line s
      let (cmd, s) ← parseline fuel s
      let (found, s) := peek line [')'] s
      if found then
        let (_, s) := gettoken line s
        parseredirs line (line.length + 1) cmd s
      else .error .missingParen
    else .error .parseblock

def parseexec : ℕ → ℕ → Except Panic (Cmd × ℕ)
  | 0, _ => .error .diverge
  | fuel + 1, s =>
    let (found, s) := peek line ['('] s
    if found then parseblock fuel s
    else do
      let (ret, s) ← parseredirs line (line.length + 1) (.exec []) s
      argLoop line (line.length + 1) ret 0 s

end

/-- The characters of the line and its `NUL`, after the words of the command have got a `NUL`
behind them. -/
def nulterminate : Cmd → List Char → List Char
  | .exec argv, buf => argv.foldl (fun buf w ↦ buf.set w.eq NUL) buf
  | .redir cmd file _ _, buf => (nulterminate cmd buf).set file.eq NUL
  | .pipe left right, buf => nulterminate right (nulterminate left buf)
  | .list left right, buf => nulterminate right (nulterminate left buf)
  | .back cmd, buf => nulterminate cmd buf

def parsecmd : Except Panic (Cmd × List Char) := do
  let (cmd, s) ← parseline line (4 * line.length + 4) 0
  let (_, s) := peek line [] s
  if s ≠ line.length then .error .leftovers
  else .ok (cmd, nulterminate cmd (line ++ [NUL]))

end Parser

end Xv6Bfs.Shell

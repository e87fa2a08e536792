import Mathlib

/-!
# The parser of the shell (`user/sh.c`)

A line is the list of its characters before the null; a pointer into it is an index, and the
character at or past the end is null.  The parsing functions take the cursor and return the new one;
they panic with a message, and take fuel for the recursion.  The redirections that `parseexec` finds
are put around the `execcmd` at the end, since its arguments are still filled in while the source
puts them around it.
-/

namespace Xv6.Shell

abbrev Line := List (BitVec 8)

/-- The first index of a word and the index past it. -/
abbrev Word := ℕ × ℕ

def less : BitVec 8 := 0x3c
def greater : BitVec 8 := 0x3e
def bar : BitVec 8 := 0x7c
def amp : BitVec 8 := 0x26
def semi : BitVec 8 := 0x3b
def lparen : BitVec 8 := 0x28
def rparen : BitVec 8 := 0x29

/-- `" \t\r\n\v"`. -/
def whitespace : List (BitVec 8) := [0x20, 0x09, 0x0d, 0x0a, 0x0b]

def symbols : List (BitVec 8) := [less, bar, greater, amp, semi, lparen, rparen]

def MAXARGS : ℕ := 10

def O_RDONLY : ℕ := 0x000
def O_WRONLY : ℕ := 0x001
def O_CREATE : ℕ := 0x200
def O_TRUNC : ℕ := 0x400

/-! ## Commands -/

structure Redir where
  file : Word
  mode : ℕ
  fd : ℕ
deriving DecidableEq, Repr

inductive Cmd
  | exec (argv : List Word)
  | redir (cmd : Cmd) (redir : Redir)
  | pipe (left right : Cmd)
  | list (left right : Cmd)
  | back (cmd : Cmd)
deriving DecidableEq, Repr

/-- A panic of the shell, or fuel that ran out. -/
inductive Stop
  | panic (message : String)
  | fuel
deriving DecidableEq, Repr

/-! ## Tokens -/

/-- What `gettoken` returns: `0`, the character of a symbol, `'+'` for `>>`, or `'a'`. -/
inductive Tok
  | eof
  | sym (c : BitVec 8)
  | append
  | word
deriving DecidableEq, Repr

/-- `*s`. -/
def charAt (s : Line) (i : ℕ) : BitVec 8 := s.getD i 0

def isSpace (c : BitVec 8) : Bool := c ∈ whitespace

/-- `while(s < es && strchr(whitespace, *s)) s++`. -/
def skip (s : Line) (i : ℕ) : ℕ := i + ((s.drop i).takeWhile isSpace).length

/-- A character of a word. -/
def wordChar (c : BitVec 8) : Bool := c ∉ whitespace ∧ c ∉ symbols

/-- The token at `q` and the index past it. -/
def scan (s : Line) (q : ℕ) : Tok × ℕ :=
  if charAt s q = 0 then (.eof, q)
  else if charAt s q ∈ [bar, lparen, rparen, semi, amp, less] then (.sym (charAt s q), q + 1)
  else if charAt s q = greater then
    if charAt s (q + 1) = greater then (.append, q + 2) else (.sym greater, q + 1)
  else (.word, q + ((s.drop q).takeWhile wordChar).length)

/-- The token, its place (`q` and `eq`) and the cursor after it. -/
def gettoken (s : Line) (i : ℕ) : Tok × Word × ℕ :=
  let q := skip s i
  let (ret, e) := scan s q
  (ret, (q, e), skip s e)

def peek (s : Line) (i : ℕ) (toks : List (BitVec 8)) : Bool × ℕ :=
  let i := skip s i
  (charAt s i ≠ 0 ∧ charAt s i ∈ toks, i)

/-! ## The parser -/

/-- The `switch` of `parseredirs`. -/
def redirOf (tok : Tok) (file : Word) : List Redir :=
  match tok with
  | .sym c =>
    if c = less then [⟨file, O_RDONLY, 0⟩]
    else if c = greater then [⟨file, O_WRONLY ||| O_CREATE ||| O_TRUNC, 1⟩]
    else []
  | .append => [⟨file, O_WRONLY ||| O_CREATE, 1⟩]
  | .eof => []
  | .word => []

/-- A command with redirections around it, the first one innermost. -/
def wrap (cmd : Cmd) (rs : List Redir) : Cmd := rs.foldl .redir cmd

def parseredirs (s : Line) : ℕ → ℕ → Except Stop (List Redir × ℕ)
  | 0, _ => .error .fuel
  | fuel + 1, i =>
    let (more, i) := peek s i [less, greater]
    if more then
      let (tok, _, i) := gettoken s i
      let (next, file, i) := gettoken s i
      if next ≠ .word then .error (.panic "missing file for redirection")
      else do
        let (rs, i) ← parseredirs s fuel i
        return (redirOf tok file ++ rs, i)
    else .ok ([], i)

/-- The loop of `parseexec`. -/
def argLoop (s : Line) : ℕ → List Word → List Redir → ℕ → Except Stop (Cmd × ℕ)
  | 0, _, _, _ => .error .fuel
  | fuel + 1, argv, rs, i =>
    let (done, i) := peek s i [bar, rparen, amp, semi]
    if done then .ok (wrap (.exec argv) rs, i)
    else
      let (tok, w, i) := gettoken s i
      if tok = .eof then .ok (wrap (.exec argv) rs, i)
      else if tok ≠ .word then .error (.panic "syntax")
      else if argv.length + 1 ≥ MAXARGS then .error (.panic "too many args")
      else do
        let (more, i) ← parseredirs s fuel i
        argLoop s fuel (argv ++ [w]) (rs ++ more) i

/-- The loop of `parseline` over `&`. -/
def backLoop (s : Line) : ℕ → Cmd → ℕ → Except Stop (Cmd × ℕ)
  | 0, _, _ => .error .fuel
  | fuel + 1, cmd, i =>
    let (more, i) := peek s i [amp]
    if more then
      let (_, _, i) := gettoken s i
      backLoop s fuel (.back cmd) i
    else .ok (cmd, i)

mutual

def parseline (s : Line) : ℕ → ℕ → Except Stop (Cmd × ℕ)
  | 0, _ => .error .fuel
  | fuel + 1, i => do
    let (cmd, i) ← parsepipe s fuel i
    let (cmd, i) ← backLoop s fuel cmd i
    let (more, i) := peek s i [semi]
    if more then do
      let (_, _, i) := gettoken s i
      let (right, i) ← parseline s fuel i
      return (.list cmd right, i)
    else return (cmd, i)

def parsepipe (s : Line) : ℕ → ℕ → Except Stop (Cmd × ℕ)
  | 0, _ => .error .fuel
  | fuel + 1, i => do
    let (cmd, i) ← parseexec s fuel i
    let (more, i) := peek s i [bar]
    if more then do
      let (_, _, i) := gettoken s i
      let (right, i) ← parsepipe s fuel i
      return (.pipe cmd right, i)
    else return (cmd, i)

def parseblock (s : Line) : ℕ → ℕ → Except Stop (Cmd × ℕ)
  | 0, _ => .error .fuel
  | fuel + 1, i => do
    let (opened, i) := peek s i [lparen]
    if !opened then .error (.panic "parseblock")
    else do
      let (_, _, i) := gettoken s i
      let (cmd, i) ← parseline s fuel i
      let (closed, i) := peek s i [rparen]
      if !closed then .error (.panic "syntax - missing )")
      else do
        let (_, _, i) := gettoken s i
        let (rs, i) ← parseredirs s fuel i
        return (wrap cmd rs, i)

def parseexec (s : Line) : ℕ → ℕ → Except Stop (Cmd × ℕ)
  | 0, _ => .error .fuel
  | fuel + 1, i => do
    let (opened, i) := peek s i [lparen]
    if opened then parseblock s fuel i
    else do
      let (rs, i) ← parseredirs s fuel i
      argLoop s fuel [] rs i

end

/-! ## Termination of the strings -/

/-- The null at the end of every argument and file name. -/
def nulterminate : Cmd → Line → Line
  | .exec argv, b => argv.foldl (fun b w => b.set w.2 0) b
  | .redir cmd r, b => (nulterminate cmd b).set r.file.2 0
  | .pipe left right, b => nulterminate right (nulterminate left b)
  | .list left right, b => nulterminate right (nulterminate left b)
  | .back cmd, b => nulterminate cmd b

/-- The tree and the line, with its null, after `parsecmd`. -/
def parsecmd (fuel : ℕ) (s : Line) : Except Stop (Cmd × Line) := do
  let (cmd, i) ← parseline s fuel 0
  let (_, i) := peek s i []
  if i ≠ s.length then .error (.panic "syntax")
  else return (cmd, nulterminate cmd (s ++ [0]))

end Xv6.Shell

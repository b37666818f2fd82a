import Xv6.Param

/-!
The parser of `sh.c`. A pointer into the line is modelled by what is behind it, up to
the NUL: the end `es` is the empty list. The recursion of the parser is bounded by an
argument that goes down with every call, and running out of it is an error of its own.
-/

namespace Xv6.Sh

abbrev Ptr := List UInt8

def MAXARGS : Nat := 10

def O_RDONLY : Nat := 0
def O_WRONLY : Nat := 1
def O_CREATE : Nat := 512

/-- `" \t\r\n\v"` -/
def whitespace : List UInt8 := [32, 9, 13, 10, 11]

/-- `"<|>&;()"` -/
def symbols : List UInt8 := [60, 124, 62, 38, 59, 40, 41]

/-- What `gettoken` returns; `append` is `'+'` and `word` is `'a'`. -/
inductive Tok where
  | none
  | bar
  | lparen
  | rparen
  | semi
  | amp
  | lt
  | gt
  | append
  | word
deriving DecidableEq

/-- The messages of `panic`, and the end of the recursion. -/
inductive Panic where
  /-- "missing file for redirection" -/
  | missingFile
  /-- "parseblock" -/
  | parseblock
  /-- "syntax - missing )" -/
  | missingParen
  /-- "syntax" -/
  | badSyntax
  /-- "too many args" -/
  | tooManyArgs
  /-- "leftovers: …" and "syntax" -/
  | leftovers
  | outOfFuel
deriving DecidableEq

/-- `while(s < es && strchr(whitespace, *s)) s++;` -/
def skip (s : Ptr) : Ptr := s.dropWhile whitespace.contains

def plain (c : UInt8) : Bool := !whitespace.contains c && !symbols.contains c

/-- The `switch` of `gettoken`: the token at `s` and the end of it. -/
def scan : Ptr → Tok × Ptr
  | [] => (.none, [])
  | c :: s =>
    if c = 124 then (.bar, s)
    else if c = 40 then (.lparen, s)
    else if c = 41 then (.rparen, s)
    else if c = 59 then (.semi, s)
    else if c = 38 then (.amp, s)
    else if c = 60 then (.lt, s)
    else if c = 62 then if s.head? = some 62 then (.append, s.tail) else (.gt, s)
    else (.word, (c :: s).dropWhile plain)

/-- A part of the line, from `q` up to `eq`. -/
structure Span where
  q : Ptr
  eq : Ptr
deriving DecidableEq

/-- The results of `gettoken`: the token, `*q` and `*eq`, and the new `*ps`. -/
structure Token where
  tok : Tok
  span : Span
  rest : Ptr

def gettoken (s : Ptr) : Token :=
  let q := skip s
  ⟨(scan q).1, ⟨q, (scan q).2⟩, skip (scan q).2⟩

/-- `peek`; the pointer of the caller is moved to `skip s`. -/
def peek (s : Ptr) (toks : List UInt8) : Bool :=
  match skip s with
  | [] => false
  | c :: _ => toks.contains c

/-- A redirection: the file, the mode and the descriptor. -/
structure Redir (σ : Type) where
  file : σ
  mode : Nat
  fd : Nat
deriving DecidableEq

/-- `struct cmd`, over what stands for strings: spans of the line or texts. -/
inductive Cmd (σ : Type) where
  | exec (argv : List σ)
  | redir (cmd : Cmd σ) (r : Redir σ)
  | pipe (left right : Cmd σ)
  | list (left right : Cmd σ)
  | back (cmd : Cmd σ)
deriving DecidableEq

/-- `redircmd` for redirections one after the other. -/
def Cmd.wrap {σ : Type} (cmd : Cmd σ) (rs : List (Redir σ)) : Cmd σ := rs.foldl .redir cmd

/-- `parseredirs`. The node of `parseexec` gets its arguments later, so the redirections
around it are collected in a list. -/
def parseredirs : Nat → List (Redir Span) → Ptr → Except Panic (List (Redir Span) × Ptr)
  | 0, _, _ => .error .outOfFuel
  | n + 1, rs, s =>
    if peek s [60, 62] then
      let tok := (gettoken (skip s)).tok
      let file := gettoken (gettoken (skip s)).rest
      if file.tok ≠ .word then .error .missingFile
      else match tok with
        | .lt => parseredirs n (rs ++ [⟨file.span, O_RDONLY, 0⟩]) file.rest
        | .gt => parseredirs n (rs ++ [⟨file.span, O_WRONLY ||| O_CREATE, 1⟩]) file.rest
        | .append => parseredirs n (rs ++ [⟨file.span, O_WRONLY ||| O_CREATE, 1⟩]) file.rest
        | _ => parseredirs n rs file.rest
    else .ok (rs, skip s)

/-- The loop of `parseexec` over the arguments. -/
def parseargs : Nat → List Span → List (Redir Span) → Ptr →
    Except Panic (List Span × List (Redir Span) × Ptr)
  | 0, _, _, _ => .error .outOfFuel
  | n + 1, argv, rs, s =>
    if peek s [124, 41, 38, 59] then .ok (argv, rs, skip s)
    else
      let t := gettoken (skip s)
      if t.tok = .none then .ok (argv, rs, t.rest)
      else if t.tok ≠ .word then .error .badSyntax
      else if MAXARGS ≤ argv.length + 1 then .error .tooManyArgs
      else do
        let (rs, s) ← parseredirs n rs t.rest
        parseargs n (argv ++ [t.span]) rs s

/-- The loop of `parseline` over `&`. -/
def parsebacks : Nat → Cmd Span → Ptr → Except Panic (Cmd Span × Ptr)
  | 0, _, _ => .error .outOfFuel
  | n + 1, cmd, s =>
    if peek s [38] then parsebacks n (.back cmd) (gettoken (skip s)).rest
    else .ok (cmd, skip s)

mutual

def parseline : Nat → Ptr → Except Panic (Cmd Span × Ptr)
  | 0, _ => .error .outOfFuel
  | n + 1, s => do
      let (cmd, s) ← parsepipe n s
      let (cmd, s) ← parsebacks n cmd s
      if peek s [59] then do
        let (right, s) ← parseline n (gettoken (skip s)).rest
        .ok (.list cmd right, s)
      else .ok (cmd, skip s)

def parsepipe : Nat → Ptr → Except Panic (Cmd Span × Ptr)
  | 0, _ => .error .outOfFuel
  | n + 1, s => do
      let (cmd, s) ← parseexec n s
      if peek s [124] then do
        let (right, s) ← parsepipe n (gettoken (skip s)).rest
        .ok (.pipe cmd right, s)
      else .ok (cmd, skip s)

def parseexec : Nat → Ptr → Except Panic (Cmd Span × Ptr)
  | 0, _ => .error .outOfFuel
  | n + 1, s =>
    if peek s [40] then parseblock n (skip s)
    else do
      let (rs, s) ← parseredirs n [] (skip s)
      let (argv, rs, s) ← parseargs n [] rs s
      .ok (Cmd.wrap (.exec argv) rs, s)

def parseblock : Nat → Ptr → Except Panic (Cmd Span × Ptr)
  | 0, _ => .error .outOfFuel
  | n + 1, s =>
    if peek s [40] then do
      let (cmd, s) ← parseline n (gettoken (skip s)).rest
      if peek s [41] then do
        let (rs, s) ← parseredirs n [] (gettoken (skip s)).rest
        .ok (cmd.wrap rs, s)
      else .error .missingParen
    else .error .parseblock

end

/-- `parsecmd` up to `nulterminate`. -/
def parsecmd (line : Ptr) : Except Panic (Cmd Span) := do
  let (cmd, s) ← parseline (4 * line.length + 4) line
  if skip s = [] then .ok cmd else .error .leftovers

/-- `*p = 0` in the array `buf` that holds the line and its NUL. -/
def clear (buf : List UInt8) (p : Ptr) : List UInt8 := buf.set (buf.length - 1 - p.length) 0

/-- `nulterminate`, on the array that holds the line and its NUL. -/
def nulterminate (buf : List UInt8) : Cmd Span → List UInt8
  | .exec argv => argv.foldl (fun buf arg => clear buf arg.eq) buf
  | .redir cmd r => clear (nulterminate buf cmd) r.file.eq
  | .pipe left right => nulterminate (nulterminate buf left) right
  | .list left right => nulterminate (nulterminate buf left) right
  | .back cmd => nulterminate buf cmd

end Xv6.Sh

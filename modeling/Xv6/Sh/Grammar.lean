import Mathlib.Data.List.TakeWhile
import Mathlib.Tactic.FinCases
import Xv6.Lib.Except
import Xv6.Sh.Tokens

/-!
The grammar of the shell, over the tokens of a line. What the parser consumes is a
sentence of the grammar, and the tree it builds is that of the derivation.
-/

namespace Xv6.Sh

open Lib List

abbrev Tree := Cmd (List UInt8)

def Redir.map {σ τ : Type} (f : σ → τ) (r : Redir σ) : Redir τ := ⟨f r.file, r.mode, r.fd⟩

def Cmd.map {σ τ : Type} (f : σ → τ) : Cmd σ → Cmd τ
  | .exec argv => .exec (argv.map f)
  | .redir cmd r => .redir (cmd.map f) (r.map f)
  | .pipe left right => .pipe (left.map f) (right.map f)
  | .list left right => .list (left.map f) (right.map f)
  | .back cmd => .back (cmd.map f)

/-- The tree that the spans of a line spell. -/
def Cmd.text (cmd : Cmd Span) : Tree := cmd.map Span.text

def Cmd.strings {σ : Type} : Cmd σ → List σ
  | .exec argv => argv
  | .redir cmd r => cmd.strings ++ [r.file]
  | .pipe left right => left.strings ++ right.strings
  | .list left right => left.strings ++ right.strings
  | .back cmd => cmd.strings

/-- `cmd &…&` -/
def Cmd.backs {σ : Type} (cmd : Cmd σ) : Nat → Cmd σ
  | 0 => cmd
  | n + 1 => .back (cmd.backs n)

/-- `redirs ::= (('<'|'>'|'>>') word)*` -/
inductive Redirs : List Lexeme → List (Redir (List UInt8)) → Prop where
  | nil : Redirs [] []
  | input {ts rs file} (h : Redirs ts rs) :
      Redirs (.lt :: .word file :: ts) (⟨file, O_RDONLY, 0⟩ :: rs)
  | output {ts rs file} (h : Redirs ts rs) :
      Redirs (.gt :: .word file :: ts) (⟨file, O_WRONLY ||| O_CREATE, 1⟩ :: rs)
  | append {ts rs file} (h : Redirs ts rs) :
      Redirs (.append :: .word file :: ts) (⟨file, O_WRONLY ||| O_CREATE, 1⟩ :: rs)

/-- `(word redirs)*` -/
inductive Words : List Lexeme → List (List UInt8) → List (Redir (List UInt8)) → Prop where
  | nil : Words [] [] []
  | cons {ts ts' arg args rs rs'} (hredirs : Redirs ts rs) (h : Words ts' args rs') :
      Words (.word arg :: (ts ++ ts')) (arg :: args) (rs ++ rs')

inductive Nonterminal where
  | line
  | pipe
  | exec
  | block
deriving DecidableEq

/-- The grammar: `line ::= pipe '&'* [';' line]`, `pipe ::= exec ['|' pipe]`,
`exec ::= block | redirs (word redirs)*`, `block ::= '(' line ')' redirs`. -/
inductive Derives : Nonterminal → List Lexeme → Tree → Prop where
  | line {ts c} (n : Nat) (h : Derives .pipe ts c) :
      Derives .line (ts ++ List.replicate n .amp) (c.backs n)
  | lines {ts ts' c c'} (n : Nat) (h : Derives .pipe ts c) (h' : Derives .line ts' c') :
      Derives .line (ts ++ (List.replicate n .amp ++ .semi :: ts')) (.list (c.backs n) c')
  | pipe {ts c} (h : Derives .exec ts c) : Derives .pipe ts c
  | pipes {ts ts' c c'} (h : Derives .exec ts c) (h' : Derives .pipe ts' c') :
      Derives .pipe (ts ++ .bar :: ts') (.pipe c c')
  | exec {ts ts' args rs rs'} (hredirs : Redirs ts rs) (hwords : Words ts' args rs')
      (hargs : args.length ≤ MAXARGS - 1) :
      Derives .exec (ts ++ ts') (Cmd.wrap (.exec args) (rs ++ rs'))
  | execBlock {ts c} (h : Derives .block ts c) : Derives .exec ts c
  | block {ts ts' c rs} (h : Derives .line ts c) (hredirs : Redirs ts' rs) :
      Derives .block (.lparen :: (ts ++ .rparen :: ts')) (c.wrap rs)

/-- A word of the line: a run of plain characters that ends at its `eq`. -/
structure WordAt (s : Ptr) (x : Span) : Prop where
  suffix : x.q <:+ s
  text : x.q = x.text ++ x.eq
  nonempty : x.text ≠ []
  plain : ∀ c ∈ x.text, plain c = true
  ends : ∀ c, x.eq.head? = some c → Sh.plain c = false

/-- Between `s` and `s'` are the tokens `ts`, some of them the words `xs`. -/
structure Parsed (s : Ptr) (ts : List Lexeme) (xs : List Span) (s' : Ptr) : Prop where
  tokens : tokens s = ts ++ Sh.tokens s'
  suffix : s' <:+ s
  words : ∀ x ∈ xs, WordAt s x

theorem WordAt.mono {s s' : Ptr} {x : Span} (h : WordAt s' x) (hs : s' <:+ s) : WordAt s x :=
  ⟨h.suffix.trans hs, h.text, h.nonempty, h.plain, h.ends⟩

theorem wordAt_run {s rest : Ptr} {c : UInt8} (hs : c :: rest <:+ s) (hc : plain c = true) :
    WordAt s ⟨c :: rest, rest.dropWhile plain⟩ := by
  have hsplit : c :: rest = (c :: rest.takeWhile plain) ++ rest.dropWhile plain := by
    rw [cons_append, takeWhile_append_dropWhile]
  have htext : Span.text ⟨c :: rest, rest.dropWhile plain⟩ = c :: rest.takeWhile plain := by
    unfold Span.text
    rw [hsplit, length_append, Nat.add_sub_cancel, take_left]
  refine ⟨hs, ?_, ?_, ?_, ?_⟩
  · rw [htext]
    exact hsplit
  · rw [htext]
    exact cons_ne_nil _ _
  · intro x hx
    rw [htext] at hx
    rcases mem_cons.mp hx with rfl | hx
    · exact hc
    · exact mem_takeWhile_imp hx
  · intro x hx
    have hhead := List.head?_dropWhile_not plain rest
    dsimp only at hx
    rw [hx] at hhead
    simpa using hhead

theorem skip_suffix (s : Ptr) : skip s <:+ s := dropWhile_suffix _

namespace Parsed

variable {s s1 s' : Ptr} {ts ts' : List Lexeme} {xs xs' : List Span}

theorem skip (s : Ptr) : Parsed s [] [] (skip s) :=
  ⟨(tokens_skip s).symm, skip_suffix s, fun _ hx => nomatch hx⟩

theorem trans (h : Parsed s ts xs s1) (h' : Parsed s1 ts' xs' s') :
    Parsed s (ts ++ ts') (xs ++ xs') s' := by
  refine ⟨?_, h'.suffix.trans h.suffix, fun x hx => ?_⟩
  · rw [h.tokens, h'.tokens, append_assoc]
  · rcases mem_append.mp hx with hx | hx
    · exact h.words x hx
    · exact (h'.words x hx).mono h.suffix

theorem mono (h : Parsed s ts xs s') (hxs : ∀ x ∈ xs', x ∈ xs) : Parsed s ts xs' s' :=
  ⟨h.tokens, h.suffix, fun x hx => h.words x (hxs x hx)⟩

theorem gettoken_suffix (s : Ptr) : (gettoken s).rest <:+ s := by
  rcases gettoken_cases s with hs | ⟨l, s', _, _, heq, _, hrest⟩
  · rw [(gettoken_end hs).2]
    exact nil_suffix
  · have hskip := skip_suffix s
    rw [heq] at hskip
    rw [hrest]
    exact (skip_suffix s').trans ((suffix_append _ _).trans hskip)

theorem token {l : Lexeme} {ls : List Lexeme} (h : Sh.tokens s = l :: ls) :
    Parsed s [l] [] (gettoken s).rest :=
  ⟨by rw [h, (tokens_cons h).2]; rfl, gettoken_suffix s, fun _ hx => nomatch hx⟩

theorem none (h : (gettoken s).tok = .none) : Parsed s [] [] (gettoken s).rest := by
  have hrest : Sh.tokens (gettoken s).rest = [] := by
    rw [(gettoken_end (skip_of_none h)).2, tokens_eq]
    rfl
  refine ⟨?_, gettoken_suffix s, fun _ hx => nomatch hx⟩
  rw [hrest, tokens_eq, lexeme_eq_none.mpr h]
  rfl

theorem word (h : (gettoken s).tok = .word) :
    Parsed s [.word (gettoken s).span.text] [(gettoken s).span] (gettoken s).rest := by
  have hlex : (gettoken s).lexeme = some (.word (gettoken s).span.text) := by
    unfold Token.lexeme
    rw [h]
  refine ⟨?_, gettoken_suffix s, fun x hx => ?_⟩
  · rw [tokens_eq, hlex]
    rfl
  · rw [mem_singleton.mp hx]
    rcases gettoken_cases s with hs | ⟨l, s', hl, _, heq, hlexeme, _⟩
    · rw [(gettoken_end hs).1] at h
      cases h
    · cases hlex.symm.trans hlexeme
      obtain ⟨c, text, htext⟩ := exists_cons_of_ne_nil hl.nonempty
      have hplain := hl.plain c (by rw [htext]; exact mem_cons_self)
      rw [Lexeme.chars, htext, cons_append] at heq
      have hsuffix := heq ▸ skip_suffix s
      rw [gettoken_word heq hplain]
      exact wordAt_run hsuffix hplain

end Parsed

section

variable {s : Ptr}

theorem not_plain_of_all {toks : List UInt8} (h : (toks.all fun c => !plain c) = true) :
    ∀ c ∈ toks, plain c = false := by
  simpa using h

theorem peek_redirs : peek s [60, 62] = true ↔
    ∃ l ls, tokens s = l :: ls ∧ (l = .lt ∨ l = .gt ∨ l = .append) := by
  rw [peek_eq (not_plain_of_all rfl)]
  cases tokens s with
  | nil => simp
  | cons l ls => cases l <;> simp [Lexeme.symbol]

theorem peek_args : peek s [124, 41, 38, 59] = true ↔
    ∃ l ls, tokens s = l :: ls ∧ (l = .bar ∨ l = .rparen ∨ l = .amp ∨ l = .semi) := by
  rw [peek_eq (not_plain_of_all rfl)]
  cases tokens s with
  | nil => simp
  | cons l ls => cases l <;> simp [Lexeme.symbol]

theorem peek_symbol (l : Lexeme) (hl : l ∈ [.amp, .semi, .bar, .lparen, .rparen]) :
    peek s l.symbol.toList = true ↔ ∃ ls, tokens s = l :: ls := by
  have hplain : ∀ c ∈ l.symbol.toList, plain c = false := by
    fin_cases hl <;> exact not_plain_of_all rfl
  rw [peek_eq hplain]
  cases tokens s with
  | nil => simp
  | cons l' ls => fin_cases hl <;> cases l' <;> simp [Lexeme.symbol]

end

section

variable {σ τ : Type}

theorem map_wrap (f : σ → τ) (cmd : Cmd σ) (rs : List (Redir σ)) :
    (cmd.wrap rs).map f = (cmd.map f).wrap (rs.map (Redir.map f)) := by
  unfold Cmd.wrap
  induction rs generalizing cmd with
  | nil => rfl
  | cons r rs ih => exact ih (.redir cmd r)

theorem strings_wrap (cmd : Cmd σ) (rs : List (Redir σ)) :
    (cmd.wrap rs).strings = cmd.strings ++ rs.map Redir.file := by
  unfold Cmd.wrap
  induction rs generalizing cmd with
  | nil => simp
  | cons r rs ih =>
    rw [foldl_cons, ih]
    simp [Cmd.strings]

theorem back_backs (cmd : Cmd σ) (n : Nat) : (Cmd.back cmd).backs n = cmd.backs (n + 1) := by
  induction n with
  | zero => rfl
  | succ n ih => exact congrArg Cmd.back ih

theorem map_backs (f : σ → τ) (cmd : Cmd σ) (n : Nat) :
    (cmd.backs n).map f = (cmd.map f).backs n := by
  induction n with
  | zero => rfl
  | succ n ih => exact congrArg Cmd.back ih

theorem strings_backs (cmd : Cmd σ) (n : Nat) : (cmd.backs n).strings = cmd.strings := by
  induction n with
  | zero => rfl
  | succ n ih => exact ih

end

section

variable {n : Nat} {s s' : Ptr}

theorem parseredirs_sound {rs rs' : List (Redir Span)} (h : parseredirs n rs s = .ok (rs', s')) :
    ∃ ts new, rs' = rs ++ new ∧ Redirs ts (new.map (Redir.map Span.text)) ∧
      Parsed s ts (new.map Redir.file) s' := by
  induction n generalizing rs s with
  | zero => cases h
  | succ n ih =>
    unfold parseredirs at h
    split at h
    · next hpeek =>
      rw [gettoken_skip] at h
      dsimp only at h
      split at h
      · cases h
      · next hfile =>
        obtain ⟨l, ls, hs, hl⟩ := peek_redirs.mp hpeek
        have htok := lexeme_tok (tokens_cons hs).1
        have hword := Parsed.word (not_not.mp hfile)
        have hop := (Parsed.token hs).trans hword
        -- the rest of the redirections, behind this one
        have hrest {r : Redir Span} (hr : r.file = (gettoken (gettoken s).rest).span)
            (h : parseredirs n (rs ++ [r]) (gettoken (gettoken s).rest).rest = .ok (rs', s')) :
            ∃ ts new, rs' = rs ++ r :: new ∧ Redirs ts (new.map (Redir.map Span.text)) ∧
              Parsed s (l :: .word (gettoken (gettoken s).rest).span.text :: ts)
                ((r :: new).map Redir.file) s' := by
          obtain ⟨ts, new, hnew, hredirs, hparsed⟩ := ih h
          refine ⟨ts, new, by rw [hnew, append_assoc]; rfl, hredirs, ?_⟩
          have hboth := hop.trans hparsed
          rw [map_cons, hr]
          exact hboth
        rcases hl with rfl | rfl | rfl <;> rw [htok] at h
        · obtain ⟨ts, new, hnew, hredirs, hparsed⟩ := hrest rfl h
          exact ⟨_, _, hnew, Redirs.input hredirs, hparsed⟩
        · obtain ⟨ts, new, hnew, hredirs, hparsed⟩ := hrest rfl h
          exact ⟨_, _, hnew, Redirs.output hredirs, hparsed⟩
        · obtain ⟨ts, new, hnew, hredirs, hparsed⟩ := hrest rfl h
          exact ⟨_, _, hnew, Redirs.append hredirs, hparsed⟩
    · cases h
      exact ⟨[], [], (append_nil _).symm, Redirs.nil, Parsed.skip s⟩

theorem parseargs_sound {argv argv' : List Span} {rs rs' : List (Redir Span)}
    (hargv : argv.length ≤ MAXARGS - 1) (h : parseargs n argv rs s = .ok (argv', rs', s')) :
    argv'.length ≤ MAXARGS - 1 ∧ ∃ ts args new, argv' = argv ++ args ∧ rs' = rs ++ new ∧
      Words ts (args.map Span.text) (new.map (Redir.map Span.text)) ∧
      Parsed s ts (args ++ new.map Redir.file) s' := by
  induction n generalizing argv rs s with
  | zero => cases h
  | succ n ih =>
    unfold parseargs at h
    split at h
    · cases h
      exact ⟨hargv, [], [], [], by simp, by simp, Words.nil, Parsed.skip s⟩
    · rw [gettoken_skip] at h
      dsimp only at h
      split at h
      · next hnone =>
        cases h
        exact ⟨hargv, [], [], [], by simp, by simp, Words.nil, Parsed.none hnone⟩
      · split at h
        · cases h
        · next hword =>
          split at h
          · cases h
          · next hroom =>
            obtain ⟨⟨rs1, s1⟩, hredirs, h⟩ := bind_eq_ok.mp h
            obtain ⟨ts, new, rfl, hts, hparsed⟩ := parseredirs_sound hredirs
            obtain ⟨hlen, ts', args, new', hargs, hnew', hwords, hparsed'⟩ := ih (by
              rw [length_append, length_singleton]
              omega) h
            have hall := ((Parsed.word (not_not.mp hword)).trans hparsed).trans hparsed'
            refine ⟨hlen, _, (gettoken s).span :: args, new ++ new', ?_, ?_,
              (by simpa using Words.cons hts hwords), ?_⟩
            · rw [hargs, append_assoc]
              rfl
            · rw [hnew', append_assoc]
            · rw [append_assoc] at hall
              refine hall.mono fun x hx => ?_
              simp only [mem_append, mem_cons, map_append] at hx ⊢
              tauto

theorem parsebacks_sound {cmd cmd' : Cmd Span} (h : parsebacks n cmd s = .ok (cmd', s')) :
    ∃ m, cmd' = cmd.backs m ∧ Parsed s (List.replicate m .amp) [] s' := by
  induction n generalizing cmd s with
  | zero => cases h
  | succ n ih =>
    unfold parsebacks at h
    split at h
    · next hpeek =>
      rw [gettoken_skip] at h
      obtain ⟨ls, hs⟩ := (peek_symbol .amp (by decide)).mp hpeek
      obtain ⟨m, hcmd, hparsed⟩ := ih h
      refine ⟨m + 1, by rw [hcmd, back_backs], ?_⟩
      exact (Parsed.token hs).trans hparsed
    · cases h
      exact ⟨0, rfl, Parsed.skip s⟩

def parse (n : Nat) : Nonterminal → Ptr → Except Panic (Cmd Span × Ptr)
  | .line => parseline n
  | .pipe => parsepipe n
  | .exec => parseexec n
  | .block => parseblock n

/-- With the bound `n` on the recursion, what is parsed has a derivation. -/
def SoundAt (n : Nat) : Prop := ∀ (nt : Nonterminal) (s s' : Ptr) (cmd : Cmd Span),
  parse n nt s = .ok (cmd, s') → ∃ ts, Derives nt ts cmd.text ∧ Parsed s ts cmd.strings s'

variable {cmd : Cmd Span}

theorem parseline_sound (ih : SoundAt n) (h : parseline (n + 1) s = .ok (cmd, s')) :
    ∃ ts, Derives .line ts cmd.text ∧ Parsed s ts cmd.strings s' := by
  rw [parseline] at h
  obtain ⟨⟨c, s1⟩, hpipe, h⟩ := bind_eq_ok.mp h
  obtain ⟨ts, hts, hparsed⟩ := ih .pipe _ _ _ hpipe
  obtain ⟨⟨c1, s2⟩, hbacks, h⟩ := bind_eq_ok.mp h
  obtain ⟨m, rfl, hamps⟩ := parsebacks_sound hbacks
  have hfirst := hparsed.trans hamps
  rw [append_nil] at hfirst
  dsimp only at h
  split at h
  · next hpeek =>
    rw [gettoken_skip] at h
    obtain ⟨ls, hs⟩ := (peek_symbol .semi (by decide)).mp hpeek
    obtain ⟨⟨right, s3⟩, hline, h⟩ := bind_eq_ok.mp h
    cases h
    obtain ⟨ts', hts', hparsed'⟩ := ih .line _ _ _ hline
    have hall := hfirst.trans ((Parsed.token hs).trans hparsed')
    rw [append_assoc] at hall
    refine ⟨_, ?_, hall.mono fun x hx => ?_⟩
    · unfold Cmd.text Cmd.map
      rw [map_backs]
      exact Derives.lines m hts hts'
    · simpa [Cmd.strings, strings_backs] using hx
  · cases h
    have hall := hfirst.trans (Parsed.skip s2)
    rw [append_nil] at hall
    refine ⟨_, ?_, hall.mono fun x hx => ?_⟩
    · unfold Cmd.text
      rw [map_backs]
      exact Derives.line m hts
    · simpa [strings_backs] using hx

theorem parsepipe_sound (ih : SoundAt n) (h : parsepipe (n + 1) s = .ok (cmd, s')) :
    ∃ ts, Derives .pipe ts cmd.text ∧ Parsed s ts cmd.strings s' := by
  rw [parsepipe] at h
  obtain ⟨⟨c, s1⟩, hexec, h⟩ := bind_eq_ok.mp h
  obtain ⟨ts, hts, hparsed⟩ := ih .exec _ _ _ hexec
  dsimp only at h
  split at h
  · next hpeek =>
    rw [gettoken_skip] at h
    obtain ⟨ls, hs⟩ := (peek_symbol .bar (by decide)).mp hpeek
    obtain ⟨⟨right, s2⟩, hpipe, h⟩ := bind_eq_ok.mp h
    cases h
    obtain ⟨ts', hts', hparsed'⟩ := ih .pipe _ _ _ hpipe
    have hall := hparsed.trans ((Parsed.token hs).trans hparsed')
    exact ⟨_, Derives.pipes hts hts', hall⟩
  · cases h
    have hall := hparsed.trans (Parsed.skip s1)
    rw [append_nil, append_nil] at hall
    exact ⟨_, Derives.pipe hts, hall⟩

theorem parseexec_sound (ih : SoundAt n) (h : parseexec (n + 1) s = .ok (cmd, s')) :
    ∃ ts, Derives .exec ts cmd.text ∧ Parsed s ts cmd.strings s' := by
  rw [parseexec] at h
  split at h
  · obtain ⟨ts, hts, hparsed⟩ := ih .block _ _ _ h
    exact ⟨ts, Derives.execBlock hts, (Parsed.skip s).trans hparsed⟩
  · obtain ⟨⟨rs, s1⟩, hredirs, h⟩ := bind_eq_ok.mp h
    obtain ⟨⟨argv, rs', s2⟩, hargs, h⟩ := bind_eq_ok.mp h
    cases h
    obtain ⟨ts, new, rfl, hts, hparsed⟩ := parseredirs_sound hredirs
    obtain ⟨hlen, ts', args, new', rfl, rfl, hwords, hparsed'⟩ :=
      parseargs_sound (Nat.zero_le _) hargs
    have hall := ((Parsed.skip s).trans hparsed).trans hparsed'
    refine ⟨_, ?_, hall.mono fun x hx => ?_⟩
    · unfold Cmd.text
      rw [map_wrap, map_append]
      exact Derives.exec hts hwords (by rwa [length_map])
    · simp only [strings_wrap, Cmd.strings, mem_append, nil_append, map_append]
        at hx ⊢
      tauto

theorem parseblock_sound (ih : SoundAt n) (h : parseblock (n + 1) s = .ok (cmd, s')) :
    ∃ ts, Derives .block ts cmd.text ∧ Parsed s ts cmd.strings s' := by
  rw [parseblock] at h
  split at h
  · next hopen =>
    rw [gettoken_skip] at h
    obtain ⟨ls, hs⟩ := (peek_symbol .lparen (by decide)).mp hopen
    obtain ⟨⟨c, s1⟩, hline, h⟩ := bind_eq_ok.mp h
    obtain ⟨ts, hts, hparsed⟩ := ih .line _ _ _ hline
    dsimp only at h
    split at h
    · next hclose =>
      rw [gettoken_skip] at h
      obtain ⟨ls', hs'⟩ := (peek_symbol .rparen (by decide)).mp hclose
      obtain ⟨⟨rs, s2⟩, hredirs, h⟩ := bind_eq_ok.mp h
      cases h
      obtain ⟨ts', new, rfl, hts', hparsed'⟩ := parseredirs_sound hredirs
      have hall := (Parsed.token hs).trans (hparsed.trans ((Parsed.token hs').trans hparsed'))
      refine ⟨_, ?_, hall.mono fun x hx => ?_⟩
      · unfold Cmd.text
        rw [map_wrap]
        exact Derives.block hts hts'
      · simpa [strings_wrap] using hx
    · cases h
  · cases h

theorem parse_sound (n : Nat) : SoundAt n := by
  induction n with
  | zero =>
    intro nt s s' cmd h
    cases nt <;> cases h
  | succ n ih =>
    intro nt s s' cmd h
    cases nt with
    | line => exact parseline_sound ih h
    | pipe => exact parsepipe_sound ih h
    | exec => exact parseexec_sound ih h
    | block => exact parseblock_sound ih h

end

end Xv6.Sh

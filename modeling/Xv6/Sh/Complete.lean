import Xv6.Sh.Grammar

/-!
The parser accepts every sentence of the grammar, and it terminates: a recursion of
four levels for each token is enough.
-/

namespace Xv6.Sh

open Lib List

def follow : Nonterminal → List Lexeme
  | .line => [.rparen]
  | .pipe => [.rparen, .amp, .semi]
  | .exec => [.rparen, .amp, .semi, .bar]
  | .block => [.rparen, .amp, .semi, .bar]

/-- What comes behind a sentence: nothing, or a token that may follow it. -/
def Follows (nt : Nonterminal) (us : List Lexeme) : Prop := ∀ l, us.head? = some l → l ∈ follow nt

/-- The bound on the recursion that `n` tokens need. -/
def fuel (n : Nat) : Nonterminal → Nat
  | .line => 4 * n + 4
  | .pipe => 4 * n + 3
  | .exec => 4 * n + 2
  | .block => 4 * n + 1

variable {rs : List (Redir (List UInt8))} {l : Lexeme} {ls : List Lexeme} {args : List (List UInt8)}

section

variable {n : Nat} {s : Ptr} {us : List Lexeme}

theorem Redirs.length {ts : List Lexeme} (h : Redirs ts rs) : ts.length = 2 * rs.length := by
  induction h with
  | nil => rfl
  | input _ ih | output _ ih | append _ ih =>
    simp only [length_cons, ih]
    omega

theorem gettoken_two {text : List UInt8} (hs : tokens s = l :: .word text :: ls) :
    (gettoken s).tok = l.tok ∧ (gettoken (gettoken s).rest).tok = .word ∧
      (gettoken (gettoken s).rest).span.text = text ∧
      tokens (gettoken (gettoken s).rest).rest = ls := by
  obtain ⟨hl, hrest⟩ := tokens_cons hs
  obtain ⟨hword, hlast⟩ := tokens_cons hrest
  have htok := lexeme_tok hword
  refine ⟨lexeme_tok hl, htok, ?_, hlast⟩
  unfold Token.lexeme at hword
  rw [htok] at hword
  cases hword
  rfl

def redirOf {σ : Type} (l : Lexeme) (file : σ) : Redir σ :=
  if l = .lt then ⟨file, O_RDONLY, 0⟩ else ⟨file, O_WRONLY ||| O_CREATE, 1⟩

theorem parseredirs_round {text : List UInt8}
    (hl : l = .lt ∨ l = .gt ∨ l = .append) (hs : tokens s = l :: .word text :: ls)
    (acc : List (Redir Span)) :
    ∃ x s', parseredirs (n + 1) acc s = parseredirs n (acc ++ [redirOf l x]) s' ∧
      x.text = text ∧ tokens s' = ls := by
  obtain ⟨htok, hword, htext, hrest⟩ := gettoken_two hs
  have hpeek := peek_redirs.mpr ⟨_, _, hs, hl⟩
  refine ⟨_, _, ?_, htext, hrest⟩
  simp only [parseredirs, hpeek, gettoken_skip, htok, hword]
  rcases hl with rfl | rfl | rfl <;> rfl

theorem parseredirs_complete {ts : List Lexeme} (h : Redirs ts rs) (hs : tokens s = ts ++ us)
    (hus : ∀ l, us.head? = some l → l ≠ .lt ∧ l ≠ .gt ∧ l ≠ .append) (hn : rs.length < n)
    (acc : List (Redir Span)) :
    ∃ new s', parseredirs n acc s = .ok (acc ++ new, s') ∧
      new.map (Redir.map Span.text) = rs ∧ tokens s' = us := by
  -- by induction on what is left, one operator and its file a round
  have hround {l : Lexeme} {text : List UInt8} {ls : List Lexeme}
      {rs : List (Redir (List UInt8))} {s : Ptr} {n : Nat} (acc : List (Redir Span))
      (hl : l = .lt ∨ l = .gt ∨ l = .append) (hs : tokens s = l :: .word text :: ls)
      (hn : rs.length + 1 < n)
      (ih : ∀ {s n}, tokens s = ls → rs.length < n → ∀ acc, ∃ new s',
        parseredirs n acc s = .ok (acc ++ new, s') ∧ new.map (Redir.map Span.text) = rs ∧
          tokens s' = us) :
      ∃ new s', parseredirs n acc s = .ok (acc ++ new, s') ∧
        new.map (Redir.map Span.text) = redirOf l text :: rs ∧ tokens s' = us := by
    obtain ⟨n, rfl⟩ : ∃ m, n = m + 1 := ⟨n - 1, by omega⟩
    obtain ⟨x, s1, hparse, rfl, hs1⟩ := parseredirs_round (n := n) hl hs acc
    obtain ⟨new, s', hrest, hnew, hs'⟩ := ih hs1 (Nat.lt_of_succ_lt_succ hn) (acc ++ [redirOf l x])
    refine ⟨redirOf l x :: new, s', ?_, ?_, hs'⟩
    · rw [hparse, hrest, append_assoc]
      rfl
    · rw [map_cons, hnew]
      congr 1
      unfold redirOf
      split <;> rfl
  induction h generalizing s n acc with
  | nil =>
    obtain ⟨n, rfl⟩ := Nat.exists_eq_add_of_lt hn
    refine ⟨[], skip s, ?_, rfl, by rw [tokens_skip]; exact hs⟩
    have hpeek : ¬ peek s [60, 62] = true := by
      rw [peek_redirs]
      rintro ⟨l, ls, htokens, hl⟩
      rw [nil_append] at hs
      have hnot := hus l (by rw [← hs, htokens]; rfl)
      tauto
    simp only [parseredirs, hpeek, append_nil]
    rfl
  | input h ih => exact hround acc (Or.inl rfl) hs hn fun hs hn acc => ih hs hn acc
  | output h ih => exact hround acc (Or.inr (Or.inl rfl)) hs hn fun hs hn acc => ih hs hn acc
  | append h ih => exact hround acc (Or.inr (Or.inr rfl)) hs hn fun hs hn acc => ih hs hn acc

/-- In front of the next argument there is no operator of a redirection and no block. -/
theorem words_head {ts : List Lexeme} (h : Words ts args rs) (hus : Follows .exec us) (l : Lexeme)
    (hl : (ts ++ us).head? = some l) : l ≠ .lparen ∧ l ≠ .lt ∧ l ≠ .gt ∧ l ≠ .append := by
  cases h with
  | nil =>
    have hfollow := hus l hl
    simp only [follow, mem_cons, not_mem_nil, or_false] at hfollow
    rcases hfollow with rfl | rfl | rfl | rfl <;> simp
  | cons _ _ =>
    cases hl
    simp

theorem parseargs_complete {ts : List Lexeme} (h : Words ts args rs) (hs : tokens s = ts ++ us)
    (hus : Follows .exec us) (argv : List Span) (hargs : argv.length + args.length ≤ MAXARGS - 1)
    (hn : ts.length < n) (acc : List (Redir Span)) :
    ∃ args' new s', parseargs n argv acc s = .ok (argv ++ args', acc ++ new, s') ∧
      args'.map Span.text = args ∧ new.map (Redir.map Span.text) = rs ∧ tokens s' = us := by
  induction h generalizing s n acc argv with
  | nil =>
    obtain ⟨n, rfl⟩ := Nat.exists_eq_add_of_lt hn
    rw [nil_append] at hs
    cases us with
    | nil =>
      have hpeek : ¬ peek s [124, 41, 38, 59] = true := by
        rw [peek_args]
        rintro ⟨l, ls, htokens, _⟩
        rw [hs] at htokens
        cases htokens
      have hnone := tokens_nil hs
      refine ⟨[], [], (gettoken s).rest, ?_, rfl, rfl, ?_⟩
      · simp only [parseargs, hpeek, gettoken_skip, hnone, append_nil]
        rfl
      · have hend := (Parsed.none hnone).tokens
        rw [hs] at hend
        exact hend.symm
    | cons l us =>
      have hl := hus l rfl
      have hpeek : peek s [124, 41, 38, 59] = true := by
        apply peek_args.mpr
        refine ⟨l, us, hs, ?_⟩
        simp only [follow, mem_cons, not_mem_nil, or_false] at hl
        tauto
      refine ⟨[], [], skip s, ?_, rfl, rfl, by rw [tokens_skip]; exact hs⟩
      simp only [parseargs, hpeek, append_nil]
      rfl
  | @cons ts ts' arg args rs rs' hredirs h ih =>
    obtain ⟨n, rfl⟩ := Nat.exists_eq_add_of_lt (Nat.zero_lt_of_lt hn)
    rw [length_cons, length_append, hredirs.length] at hn
    rw [length_cons] at hargs
    rw [cons_append, append_assoc] at hs
    have hpeek : ¬ peek s [124, 41, 38, 59] = true := by
      rw [peek_args]
      rintro ⟨l, ls, htokens, hl⟩
      rw [hs] at htokens
      cases htokens
      simp at hl
    obtain ⟨hlex, hrest⟩ := tokens_cons hs
    have hword : (gettoken s).tok = .word := lexeme_tok hlex
    have htext : (gettoken s).span.text = arg := by
      unfold Token.lexeme at hlex
      rw [hword] at hlex
      cases hlex
      rfl
    obtain ⟨new, s1, hparse, hnew, hs1⟩ := parseredirs_complete (n := 0 + n) hredirs hrest
        (fun l hl => (words_head h hus l hl).2) (by omega) acc
    obtain ⟨args', new', s', hparse', hargs', hnew', hs'⟩ := ih (n := 0 + n) hs1
      (argv ++ [(gettoken s).span]) (by
        rw [length_append, length_singleton]
        omega) (by omega) (acc ++ new)
    refine ⟨(gettoken s).span :: args', new ++ new', s', ?_, ?_, ?_, hs'⟩
    · have hroom : ¬ MAXARGS ≤ argv.length + 1 := by omega
      have hsome : (gettoken s).tok ≠ .none := by
        rw [hword]
        exact nofun
      rw [parseargs, if_neg hpeek, gettoken_skip]
      dsimp only
      rw [if_neg hsome, if_neg (not_not.mpr hword), if_neg hroom, hparse, ok_bind]
      dsimp only
      rw [hparse', append_assoc, append_assoc]
      rfl
    · simp [htext, hargs']
    · simp [hnew, hnew']

theorem parsebacks_complete (m : Nat) (hs : tokens s = List.replicate m .amp ++ us)
    (hus : us.head? ≠ some .amp) (hn : m < n) (cmd : Cmd Span) :
    ∃ s', parsebacks n cmd s = .ok (cmd.backs m, s') ∧ tokens s' = us := by
  induction m generalizing s n cmd with
  | zero =>
    obtain ⟨n, rfl⟩ := Nat.exists_eq_add_of_lt hn
    have hpeek : ¬ peek s [38] = true := by
      intro hpeek
      obtain ⟨ls, htokens⟩ := (peek_symbol .amp (by decide)).mp hpeek
      apply hus
      rw [← nil_append us, ← replicate_zero, ← hs, htokens]
      rfl
    refine ⟨skip s, ?_, by rw [tokens_skip]; exact hs⟩
    simp only [parsebacks, hpeek]
    rfl
  | succ m ih =>
    obtain ⟨n, rfl⟩ : ∃ k, n = k + 1 := ⟨n - 1, by omega⟩
    rw [replicate_succ, cons_append] at hs
    have hpeek : peek s [38] = true := (peek_symbol .amp (by decide)).mpr ⟨_, hs⟩
    obtain ⟨s', hparse, hs'⟩ := ih (tokens_cons hs).2 (Nat.lt_of_succ_lt_succ hn) (.back cmd)
    refine ⟨s', ?_, hs'⟩
    rw [parsebacks, if_pos hpeek, gettoken_skip, hparse, back_backs]

/-- A sentence that is followed by what may follow it is parsed, and the tree is that of
its derivation. -/
def CompleteFor (nt : Nonterminal) (ts : List Lexeme) (t : Tree) : Prop :=
  ∀ (s : Ptr) (us : List Lexeme) (n : Nat), tokens s = ts ++ us → Follows nt us →
    fuel (tokens s).length nt ≤ n →
    ∃ cmd s', parse n nt s = .ok (cmd, s') ∧ cmd.text = t ∧ tokens s' = us

theorem not_peek {nt : Nonterminal} (hus : Follows nt us) (hs : tokens s = us) (l : Lexeme)
    (hl : l ∈ [.amp, .semi, .bar, .lparen, .rparen]) (hnot : l ∉ follow nt) :
    ¬ peek s l.symbol.toList = true := by
  rw [peek_symbol l hl]
  rintro ⟨ls, htokens⟩
  exact hnot (hus l (by rw [← hs, htokens]; rfl))

theorem Follows.amps (hus : Follows .pipe us) (m : Nat) :
    Follows .pipe (List.replicate m .amp ++ us) := by
  cases m with
  | zero => exact hus
  | succ m =>
    intro l hl
    cases hl
    decide

theorem Follows.mono {nt nt' : Nonterminal} (hus : Follows nt us) (h : follow nt ⊆ follow nt') :
    Follows nt' us := fun l hl => h (hus l hl)

theorem follows_cons {nt : Nonterminal} (hl : l ∈ follow nt) : Follows nt (l :: us) := by
  intro l' hl'
  cases hl'
  exact hl

section

variable {ts ts' : List Lexeme} {c c' : Tree}

theorem line_complete (m : Nat) (ih : CompleteFor .pipe ts c) :
    CompleteFor .line (ts ++ List.replicate m .amp) (c.backs m) := by
  intro s us n hs hus hn
  obtain ⟨n, rfl⟩ : ∃ k, n = k + 1 := ⟨n - 1, by dsimp only [fuel] at hn; omega⟩
  rw [append_assoc] at hs
  have hlength := congrArg List.length hs
  simp only [length_append, length_replicate] at hlength
  dsimp only [fuel] at hn
  have hpipe : Follows .pipe us := hus.mono (by decide)
  obtain ⟨cmd, s1, hparse, rfl, hs1⟩ := ih s _ n hs (hpipe.amps m) (by dsimp only [fuel]; omega)
  obtain ⟨s2, hbacks, hs2⟩ := parsebacks_complete (n := n) m hs1 (by
    intro hamp
    exact absurd (hus _ hamp) (by decide)) (by omega) cmd
  have hpeek : ¬ peek s2 [59] = true := not_peek hus hs2 .semi (by decide) (by decide)
  refine ⟨cmd.backs m, skip s2, ?_, map_backs _ _ _, by rw [tokens_skip]; exact hs2⟩
  change parseline (n + 1) s = _
  change parsepipe n s = _ at hparse
  rw [parseline, hparse, ok_bind]
  dsimp only
  rw [hbacks, ok_bind]
  dsimp only
  rw [if_neg hpeek]

theorem lines_complete (m : Nat) (ih : CompleteFor .pipe ts c) (ih' : CompleteFor .line ts' c') :
    CompleteFor .line (ts ++ (List.replicate m .amp ++ .semi :: ts')) (.list (c.backs m) c') := by
  intro s us n hs hus hn
  obtain ⟨n, rfl⟩ : ∃ k, n = k + 1 := ⟨n - 1, by dsimp only [fuel] at hn; omega⟩
  rw [append_assoc, append_assoc, cons_append] at hs
  have hlength := congrArg List.length hs
  simp only [length_append, length_replicate, length_cons] at hlength
  dsimp only [fuel] at hn
  have hsemi : Follows .pipe (.semi :: (ts' ++ us)) := follows_cons (by decide)
  obtain ⟨cmd, s1, hparse, rfl, hs1⟩ := ih s _ n hs (hsemi.amps m) (by dsimp only [fuel]; omega)
  obtain ⟨s2, hbacks, hs2⟩ := parsebacks_complete (n := n) m hs1 (by simp) (by omega) cmd
  have hpeek : peek s2 [59] = true := (peek_symbol .semi (by decide)).mpr ⟨_, hs2⟩
  have hrest := (tokens_cons hs2).2
  obtain ⟨right, s3, hright, rfl, hs3⟩ := ih' _ us n hrest hus (by
    rw [hrest, length_append]
    dsimp only [fuel]
    omega)
  refine ⟨.list (cmd.backs m) right, s3, ?_, ?_, hs3⟩
  · change parseline (n + 1) s = _
    change parsepipe n s = _ at hparse
    change parseline n _ = _ at hright
    rw [parseline, hparse, ok_bind]
    dsimp only
    rw [hbacks, ok_bind]
    dsimp only
    rw [if_pos hpeek, gettoken_skip, hright, ok_bind]
  · exact congrArg (fun l => Cmd.list l right.text) (map_backs _ _ _)

theorem pipe_complete (ih : CompleteFor .exec ts c) : CompleteFor .pipe ts c := by
  intro s us n hs hus hn
  obtain ⟨n, rfl⟩ : ∃ k, n = k + 1 := ⟨n - 1, by dsimp only [fuel] at hn; omega⟩
  dsimp only [fuel] at hn
  obtain ⟨cmd, s1, hparse, rfl, hs1⟩ := ih s us n hs (hus.mono (by decide))
    (by dsimp only [fuel]; omega)
  have hpeek : ¬ peek s1 [124] = true := not_peek hus hs1 .bar (by decide) (by decide)
  refine ⟨cmd, skip s1, ?_, rfl, by rw [tokens_skip]; exact hs1⟩
  change parsepipe (n + 1) s = _
  change parseexec n s = _ at hparse
  rw [parsepipe, hparse, ok_bind]
  dsimp only
  rw [if_neg hpeek]

theorem pipes_complete (ih : CompleteFor .exec ts c) (ih' : CompleteFor .pipe ts' c') :
    CompleteFor .pipe (ts ++ .bar :: ts') (.pipe c c') := by
  intro s us n hs hus hn
  obtain ⟨n, rfl⟩ : ∃ k, n = k + 1 := ⟨n - 1, by dsimp only [fuel] at hn; omega⟩
  rw [append_assoc, cons_append] at hs
  have hlength := congrArg List.length hs
  simp only [length_append, length_cons] at hlength
  dsimp only [fuel] at hn
  obtain ⟨cmd, s1, hparse, rfl, hs1⟩ := ih s _ n hs (follows_cons (by decide))
    (by dsimp only [fuel]; omega)
  have hpeek : peek s1 [124] = true := (peek_symbol .bar (by decide)).mpr ⟨_, hs1⟩
  have hrest := (tokens_cons hs1).2
  obtain ⟨right, s2, hright, rfl, hs2⟩ := ih' _ us n hrest hus (by
    rw [hrest, length_append]
    dsimp only [fuel]
    omega)
  refine ⟨.pipe cmd right, s2, ?_, rfl, hs2⟩
  change parsepipe (n + 1) s = _
  change parseexec n s = _ at hparse
  change parsepipe n _ = _ at hright
  rw [parsepipe, hparse, ok_bind]
  dsimp only
  rw [if_pos hpeek, gettoken_skip, hright, ok_bind]

theorem exec_complete {rs' : List (Redir (List UInt8))}
    (hredirs : Redirs ts rs) (hwords : Words ts' args rs') (hargs : args.length ≤ MAXARGS - 1) :
    CompleteFor .exec (ts ++ ts') (Cmd.wrap (.exec args) (rs ++ rs')) := by
  intro s us n hs hus hn
  obtain ⟨n, rfl⟩ : ∃ k, n = k + 1 := ⟨n - 1, by dsimp only [fuel] at hn; omega⟩
  rw [append_assoc] at hs
  have hlength := congrArg List.length hs
  simp only [length_append, hredirs.length] at hlength
  dsimp only [fuel] at hn
  have hhead := words_head hwords hus
  have hpeek : ¬ peek s [40] = true := by
    intro hpeek
    obtain ⟨ls, htokens⟩ := (peek_symbol .lparen (by decide)).mp hpeek
    rw [hs] at htokens
    cases hredirs with
    | nil =>
      rw [nil_append] at htokens
      exact (hhead .lparen (by rw [htokens]; rfl)).1 rfl
    | input _ | output _ | append _ => cases htokens
  obtain ⟨new, s1, hparse, hnew, hs1⟩ := parseredirs_complete (s := skip s) (n := n) hredirs
    (by rw [tokens_skip]; exact hs) (fun l hl => (hhead l hl).2) (by omega) []
  obtain ⟨argv, new', s2, hparse', hargv, hnew', hs2⟩ := parseargs_complete (n := n) hwords hs1 hus
    [] (by simpa using hargs) (by omega) ([] ++ new)
  refine ⟨Cmd.wrap (.exec argv) (new ++ new'), s2, ?_, ?_, hs2⟩
  · change parseexec (n + 1) s = _
    rw [parseexec, if_neg hpeek, hparse, ok_bind]
    dsimp only
    rw [hparse', ok_bind]
    rfl
  · unfold Cmd.text
    rw [map_wrap, map_append, hnew, hnew']
    exact congrArg (fun args => Cmd.wrap (.exec args) (rs ++ rs')) hargv

theorem execBlock_complete (ih : CompleteFor .block ts c) (hts : ts.head? = some .lparen) :
    CompleteFor .exec ts c := by
  intro s us n hs hus hn
  obtain ⟨n, rfl⟩ : ∃ k, n = k + 1 := ⟨n - 1, by dsimp only [fuel] at hn; omega⟩
  dsimp only [fuel] at hn
  have hpeek : peek s [40] = true := by
    apply (peek_symbol .lparen (by decide)).mpr
    obtain ⟨ts, rfl⟩ := List.head?_eq_some_iff.mp hts
    exact ⟨_, hs⟩
  obtain ⟨cmd, s', hparse, hcmd, hs'⟩ := ih (skip s) us n (by rw [tokens_skip]; exact hs) hus
    (by rw [tokens_skip]; dsimp only [fuel]; omega)
  refine ⟨cmd, s', ?_, hcmd, hs'⟩
  change parseexec (n + 1) s = _
  rw [parseexec, if_pos hpeek]
  exact hparse

theorem block_complete (ih : CompleteFor .line ts c) (hredirs : Redirs ts' rs) :
    CompleteFor .block (.lparen :: (ts ++ .rparen :: ts')) (c.wrap rs) := by
  intro s us n hs hus hn
  obtain ⟨n, rfl⟩ : ∃ k, n = k + 1 := ⟨n - 1, by dsimp only [fuel] at hn; omega⟩
  rw [cons_append, append_assoc, cons_append] at hs
  have hlength := congrArg List.length hs
  simp only [length_append, length_cons, hredirs.length] at hlength
  dsimp only [fuel] at hn
  have hopen : peek s [40] = true := (peek_symbol .lparen (by decide)).mpr ⟨_, hs⟩
  have hrest := (tokens_cons hs).2
  obtain ⟨cmd, s1, hparse, rfl, hs1⟩ := ih _ _ n hrest (follows_cons (by decide)) (by
    rw [hrest]
    simp only [length_append, length_cons, hredirs.length]
    dsimp only [fuel]
    omega)
  have hclose : peek s1 [41] = true := (peek_symbol .rparen (by decide)).mpr ⟨_, hs1⟩
  obtain ⟨new, s2, hparse', hnew, hs2⟩ := parseredirs_complete (n := n) hredirs (tokens_cons hs1).2
    (fun l hl => (words_head Words.nil hus l hl).2) (by omega) []
  refine ⟨cmd.wrap new, s2, ?_, ?_, hs2⟩
  · change parseblock (n + 1) s = _
    change parseline n _ = _ at hparse
    rw [parseblock, if_pos hopen, gettoken_skip, hparse, ok_bind]
    dsimp only
    rw [if_pos hclose, gettoken_skip, hparse', ok_bind]
    rfl
  · unfold Cmd.text
    rw [map_wrap, hnew]

end

theorem Derives.block_head {ts : List Lexeme} {c : Tree} (h : Derives .block ts c) :
    ts.head? = some .lparen := by
  cases h with
  | block _ _ => rfl

theorem parse_complete {nt : Nonterminal} {ts : List Lexeme} {t : Tree} (h : Derives nt ts t) :
    CompleteFor nt ts t := by
  induction h with
  | line m _ ih => exact line_complete m ih
  | lines m _ _ ih ih' => exact lines_complete m ih ih'
  | pipe _ ih => exact pipe_complete ih
  | pipes _ _ ih ih' => exact pipes_complete ih ih'
  | exec hredirs hwords hargs => exact exec_complete hredirs hwords hargs
  | execBlock h ih => exact execBlock_complete ih h.block_head
  | block _ hredirs ih => exact block_complete ih hredirs

end

section

variable {n : Nat} {s : Ptr}

theorem Parsed.length_le {s s' : Ptr} {ts : List Lexeme} {xs : List Span} (h : Parsed s ts xs s') :
    (Sh.tokens s').length ≤ (Sh.tokens s).length := by
  rw [h.tokens, length_append]
  exact Nat.le_add_left _ _

theorem tokens_rest_lt (h : tokens s = l :: ls) :
    (tokens (gettoken s).rest).length < (tokens s).length := by
  rw [(tokens_cons h).2, h, length_cons]
  exact Nat.lt_succ_self _

theorem parseredirs_errs (hn : (tokens s).length < n) (rs : List (Redir Span)) :
    Errs (· ≠ .outOfFuel) (parseredirs n rs s) := by
  induction n generalizing s rs with
  | zero => exact absurd hn (Nat.not_lt_zero _)
  | succ n ih =>
    rw [parseredirs]
    split
    · next hpeek =>
      rw [gettoken_skip]
      dsimp only
      split
      · exact errs_error.mpr nofun
      · next hfile =>
        obtain ⟨l, ls, hs, _⟩ := peek_redirs.mp hpeek
        have hfirst := tokens_rest_lt hs
        have hsecond := (Parsed.word (not_not.mp hfile)).length_le
        split
        all_goals exact ih (by omega) _
    · exact errs_ok _

theorem parseargs_errs (hn : (tokens s).length < n) (argv : List Span) (rs : List (Redir Span)) :
    Errs (· ≠ .outOfFuel) (parseargs n argv rs s) := by
  induction n generalizing s argv rs with
  | zero => exact absurd hn (Nat.not_lt_zero _)
  | succ n ih =>
    rw [parseargs]
    split
    · exact errs_ok _
    · rw [gettoken_skip]
      dsimp only
      split
      · exact errs_ok _
      · split
        · exact errs_error.mpr nofun
        · next hword =>
          split
          · exact errs_error.mpr nofun
          · have hlt := tokens_rest_lt (Parsed.word (not_not.mp hword)).tokens
            apply (parseredirs_errs (by omega) rs).bind
            rintro ⟨rs', s'⟩ hredirs
            obtain ⟨ts, new, _, _, hparsed⟩ := parseredirs_sound hredirs
            have hle := hparsed.length_le
            exact ih (show (tokens s').length < n by omega) _ _

theorem parsebacks_errs (hn : (tokens s).length < n) (cmd : Cmd Span) :
    Errs (· ≠ .outOfFuel) (parsebacks n cmd s) := by
  induction n generalizing s cmd with
  | zero => exact absurd hn (Nat.not_lt_zero _)
  | succ n ih =>
    rw [parsebacks]
    split
    · next hpeek =>
      rw [gettoken_skip]
      obtain ⟨ls, hs⟩ := (peek_symbol .amp (by decide)).mp hpeek
      have hlt := tokens_rest_lt hs
      exact ih (by omega) _
    · exact errs_ok _

/-- The bound `n` on the recursion is enough. -/
def EnoughAt (n : Nat) : Prop := ∀ (nt : Nonterminal) (s : Ptr),
  fuel (tokens s).length nt ≤ n → Errs (· ≠ .outOfFuel) (parse n nt s)

theorem parseline_errs (ih : EnoughAt n) (hn : 4 * (tokens s).length + 4 ≤ n + 1) :
    Errs (· ≠ .outOfFuel) (parseline (n + 1) s) := by
  rw [parseline]
  have hpipe := ih .pipe s (by dsimp only [fuel]; omega)
  apply hpipe.bind
  rintro ⟨c, s1⟩ hparse
  obtain ⟨ts, _, hparsed⟩ := parse_sound n .pipe _ _ _ hparse
  have hle := hparsed.length_le
  apply (parsebacks_errs (by omega) c).bind
  rintro ⟨c1, s2⟩ hbacks
  obtain ⟨m, _, hamps⟩ := parsebacks_sound hbacks
  have hle' := hamps.length_le
  dsimp only
  split
  · next hpeek =>
    rw [gettoken_skip]
    obtain ⟨ls, hs⟩ := (peek_symbol .semi (by decide)).mp hpeek
    have hlt := tokens_rest_lt hs
    have hline := ih .line (gettoken s2).rest (by dsimp only [fuel]; omega)
    exact hline.bind fun _ _ => errs_ok _
  · exact errs_ok _

theorem parsepipe_errs (ih : EnoughAt n) (hn : 4 * (tokens s).length + 3 ≤ n + 1) :
    Errs (· ≠ .outOfFuel) (parsepipe (n + 1) s) := by
  rw [parsepipe]
  have hexec := ih .exec s (by dsimp only [fuel]; omega)
  apply hexec.bind
  rintro ⟨c, s1⟩ hparse
  obtain ⟨ts, _, hparsed⟩ := parse_sound n .exec _ _ _ hparse
  have hle := hparsed.length_le
  dsimp only
  split
  · next hpeek =>
    rw [gettoken_skip]
    obtain ⟨ls, hs⟩ := (peek_symbol .bar (by decide)).mp hpeek
    have hlt := tokens_rest_lt hs
    have hpipe := ih .pipe (gettoken s1).rest (by dsimp only [fuel]; omega)
    exact hpipe.bind fun _ _ => errs_ok _
  · exact errs_ok _

theorem parseexec_errs (ih : EnoughAt n) (hn : 4 * (tokens s).length + 2 ≤ n + 1) :
    Errs (· ≠ .outOfFuel) (parseexec (n + 1) s) := by
  rw [parseexec]
  split
  · exact ih .block (skip s) (by rw [tokens_skip]; dsimp only [fuel]; omega)
  · apply (parseredirs_errs (by rw [tokens_skip]; omega) []).bind
    rintro ⟨rs, s1⟩ hredirs
    obtain ⟨ts, new, _, _, hparsed⟩ := parseredirs_sound hredirs
    have hle := hparsed.length_le
    rw [tokens_skip] at hle
    exact (parseargs_errs (by omega) [] rs).bind fun _ _ => errs_ok _

theorem parseblock_errs (ih : EnoughAt n) (hn : 4 * (tokens s).length + 1 ≤ n + 1) :
    Errs (· ≠ .outOfFuel) (parseblock (n + 1) s) := by
  rw [parseblock]
  split
  · next hopen =>
    rw [gettoken_skip]
    obtain ⟨ls, hs⟩ := (peek_symbol .lparen (by decide)).mp hopen
    have hlt := tokens_rest_lt hs
    have hline := ih .line (gettoken s).rest (by dsimp only [fuel]; omega)
    apply hline.bind
    rintro ⟨c, s1⟩ hparse
    obtain ⟨ts, _, hparsed⟩ := parse_sound n .line _ _ _ hparse
    have hle := hparsed.length_le
    dsimp only
    split
    · next hclose =>
      rw [gettoken_skip]
      obtain ⟨ls', hs'⟩ := (peek_symbol .rparen (by decide)).mp hclose
      have hlt' := tokens_rest_lt hs'
      exact (parseredirs_errs (by omega) []).bind fun _ _ => errs_ok _
    · exact errs_error.mpr (by decide)
  · exact errs_error.mpr (by decide)

theorem parse_enough (n : Nat) : EnoughAt n := by
  induction n with
  | zero =>
    intro nt s hn
    cases nt <;> dsimp only [fuel] at hn <;> omega
  | succ n ih =>
    intro nt s hn
    cases nt with
    | line => exact parseline_errs ih hn
    | pipe => exact parsepipe_errs ih hn
    | exec => exact parseexec_errs ih hn
    | block => exact parseblock_errs ih hn

end

end Xv6.Sh

import Xv6.Sh.Correct

/-!
Trees of the shell printed as lines: a tree is put together again from its tokens, with
parentheses where the grammar asks for them, and the parser gives the same tree.
-/

namespace Xv6.Sh

open List

/-- The tokens with a blank behind each. -/
def spell (ls : List Lexeme) : List UInt8 := ls.flatMap fun l => l.chars ++ [32]

/-- A blank ends every token. -/
theorem longest_blank (l : Lexeme) (s : Ptr) : l.Longest (32 :: s) := by
  intro l' s' hl' heq
  by_contra hlt
  have hblank : 32 ∈ l'.chars := by
    rw [append_eq_append_iff] at heq
    obtain ⟨a, ha, -⟩ | ⟨a, ha, hs⟩ := heq
    · rw [ha, length_append] at hlt
      omega
    · cases a with
      | nil => simp [ha] at hlt
      | cons d a =>
        cases hs
        simp [ha]
  cases l' with
  | word text => exact absurd (hl'.plain 32 hblank) (by decide)
  | bar | lparen | rparen | semi | amp | lt | gt | append => revert hblank; decide

theorem lexes_spell {ls : List Lexeme} (h : ∀ l ∈ ls, l.Proper) : Lexes (spell ls) ls := by
  induction ls with
  | nil => exact .nil
  | cons l ls ih =>
    have hrest := ih fun l' hl' => h l' (mem_cons_of_mem _ hl')
    have hspell : spell (l :: ls) = l.chars ++ 32 :: spell ls := by
      simp [spell]
    rw [hspell]
    exact .token (h l mem_cons_self) (longest_blank l _) (.space (by decide) hrest)

def Redir.Written {σ : Type} (r : Redir σ) : Prop :=
  (r.mode = O_RDONLY ∧ r.fd = 0) ∨ (r.mode = O_WRONLY ||| O_CREATE ∧ r.fd = 1)

def Cmd.Written {σ : Type} : Cmd σ → Prop
  | .exec argv => argv.length ≤ MAXARGS - 1
  | .redir cmd r => cmd.Written ∧ r.Written
  | .pipe left right => left.Written ∧ right.Written
  | .list left right => left.Written ∧ right.Written
  | .back cmd => cmd.Written

def paren (b : Bool) (ls : List Lexeme) : List Lexeme :=
  if b then .lparen :: (ls ++ [.rparen]) else ls

def Redir.lexemes (r : Redir (List UInt8)) : List Lexeme :=
  [if r.fd = 0 then .lt else .gt, .word r.file]

/-- The tokens of a tree: 0 where an `exec` has to stand, 1 for a `pipe`, 2 for a `pipe`
with `&` behind it, 3 for a `line`. -/
def Cmd.lexemes : Nat → Tree → List Lexeme
  | _, .exec argv => argv.map .word
  | _, .redir cmd r => cmd.lexemes 0 ++ r.lexemes
  | k, .pipe left right => paren (k < 1) (left.lexemes 0 ++ .bar :: right.lexemes 1)
  | k, .back cmd => paren (k < 2) (cmd.lexemes 2 ++ [.amp])
  | k, .list left right => paren (k < 3) (left.lexemes 2 ++ .semi :: right.lexemes 3)

def Cmd.print (t : Tree) : List UInt8 := spell (t.lexemes 3)

section

variable {ts ts' : List Lexeme} {t : Tree}

theorem wrap_written {σ : Type} {cmd : Cmd σ} {rs : List (Redir σ)} (h : cmd.Written)
    (hrs : ∀ r ∈ rs, r.Written) : (cmd.wrap rs).Written := by
  unfold Cmd.wrap
  induction rs generalizing cmd with
  | nil => exact h
  | cons r rs ih =>
    exact ih ⟨h, hrs r mem_cons_self⟩ fun r' hr' => hrs r' (mem_cons_of_mem _ hr')

theorem Redirs.written {rs : List (Redir (List UInt8))} (h : Redirs ts rs) :
    ∀ r ∈ rs, r.Written := by
  induction h with
  | nil => exact fun _ hr => nomatch hr
  | input _ ih =>
    intro r hr
    rcases mem_cons.mp hr with rfl | hr
    · exact .inl ⟨rfl, rfl⟩
    · exact ih r hr
  | output _ ih | append _ ih =>
    intro r hr
    rcases mem_cons.mp hr with rfl | hr
    · exact .inr ⟨rfl, rfl⟩
    · exact ih r hr

theorem Words.written {args : List (List UInt8)} {rs : List (Redir (List UInt8))}
    (h : Words ts args rs) : ∀ r ∈ rs, r.Written := by
  induction h with
  | nil => exact fun _ hr => nomatch hr
  | cons hredirs _ ih =>
    intro r hr
    rcases mem_append.mp hr with hr | hr
    · exact hredirs.written r hr
    · exact ih r hr

theorem backs_written {σ : Type} {cmd : Cmd σ} (h : cmd.Written) (n : Nat) :
    (cmd.backs n).Written := by
  induction n with
  | zero => exact h
  | succ n ih => exact ih

theorem Derives.written {nt : Nonterminal} (h : Derives nt ts t) : t.Written := by
  induction h with
  | line n _ ih => exact backs_written ih n
  | lines n _ _ ih ih' => exact ⟨backs_written ih n, ih'⟩
  | pipe _ ih => exact ih
  | pipes _ _ ih ih' => exact ⟨ih, ih'⟩
  | exec hredirs hwords hargs =>
    have hexec : (Cmd.exec _ : Tree).Written := hargs
    apply wrap_written hexec
    intro r hr
    rcases mem_append.mp hr with hr | hr
    · exact hredirs.written r hr
    · exact hwords.written r hr
  | execBlock _ ih => exact ih
  | block _ hredirs ih => exact wrap_written ih hredirs.written

theorem Redirs.append_redirs {rs rs' : List (Redir (List UInt8))} (h : Redirs ts rs)
    (h' : Redirs ts' rs') : Redirs (ts ++ ts') (rs ++ rs') := by
  induction h with
  | nil => exact h'
  | input _ ih => exact Redirs.input ih
  | output _ ih => exact Redirs.output ih
  | append _ ih => exact Redirs.append ih

theorem Redir.redirs {r : Redir (List UInt8)} (h : r.Written) : Redirs r.lexemes [r] := by
  obtain ⟨file, mode, fd⟩ := r
  rcases h with ⟨hmode, hfd⟩ | ⟨hmode, hfd⟩ <;> dsimp only at hmode hfd <;> subst hmode hfd
  · exact Redirs.input Redirs.nil
  · exact Redirs.output Redirs.nil

theorem Words.append_redirs {arg : List UInt8} {args : List (List UInt8)}
    {rs rs' : List (Redir (List UInt8))} (h : Words ts (arg :: args) rs) (h' : Redirs ts' rs') :
    Words (ts ++ ts') (arg :: args) (rs ++ rs') := by
  generalize hall : arg :: args = all at h ⊢
  induction h generalizing arg args with
  | nil => cases hall
  | @cons ts1 ts2 a as rs1 rs2 hredirs hwords ih =>
    cases as with
    | nil =>
      cases hwords
      have hboth := hredirs.append_redirs h'
      have hone : Words _ [a] _ := Words.cons hboth Words.nil
      simpa using hone
    | cons b bs =>
      have hrest := ih rfl
      have hone : Words _ (a :: b :: bs) _ := Words.cons hredirs hrest
      simpa using hone

theorem Derives.redir {r : Redir (List UInt8)} (h : Derives .exec ts t) (hr : r.Written) :
    Derives .exec (ts ++ r.lexemes) (.redir t r) := by
  have hredirs := Redir.redirs hr
  cases h with
  | @exec ts1 ts2 args rs rs' h1 h2 hargs =>
    cases args with
    | nil =>
      cases h2
      have hboth := Derives.exec (h1.append_redirs hredirs) Words.nil hargs
      simpa [Cmd.wrap] using hboth
    | cons arg args =>
      have hboth := Derives.exec h1 (h2.append_redirs hredirs) hargs
      simpa [Cmd.wrap] using hboth
  | execBlock h =>
    cases h with
    | block hline h' =>
      have hboth := Derives.execBlock (Derives.block hline (h'.append_redirs hredirs))
      simpa [Cmd.wrap] using hboth

/-- What the tokens of level `k` derive. -/
def DerivesAt : Nat → List Lexeme → Tree → Prop
  | 0 => Derives .exec
  | 1 => Derives .pipe
  | 2 => fun ts t => ∃ ts' c n, Derives .pipe ts' c ∧
      ts = ts' ++ List.replicate n .amp ∧ t = c.backs n
  | _ => Derives .line

theorem DerivesAt.succ {k : Nat} (h : DerivesAt k ts t) : DerivesAt (k + 1) ts t := by
  match k, h with
  | 0, h => exact Derives.pipe h
  | 1, h => exact ⟨ts, t, 0, h, (append_nil ts).symm, rfl⟩
  | 2, ⟨ts', c, n, hpipe, hts, ht⟩ =>
    rw [hts, ht]
    exact Derives.line n hpipe
  | _ + 3, h => exact h

theorem DerivesAt.mono {j k : Nat} (h : DerivesAt j ts t) (hle : j ≤ k) : DerivesAt k ts t := by
  induction hle with
  | refl => exact h
  | step _ ih => exact ih.succ

/-- A sentence of any level is in parentheses one of the lowest. -/
theorem DerivesAt.paren {j k : Nat} (h : DerivesAt j ts t) (hj : j ≤ 3) :
    DerivesAt k (Sh.paren (k < j) ts) t := by
  unfold Sh.paren
  by_cases hk : k < j
  · rw [if_pos (decide_eq_true hk)]
    have hline : Derives .line ts t := h.mono hj
    have hexec : DerivesAt 0 (.lparen :: (ts ++ [.rparen])) t :=
      Derives.execBlock (Derives.block hline Redirs.nil)
    exact hexec.mono (Nat.zero_le k)
  · rw [if_neg (by rwa [decide_eq_true_eq])]
    exact h.mono (Nat.le_of_not_lt hk)

theorem words_derive (argv : List (List UInt8)) : Words (argv.map .word) argv [] := by
  induction argv with
  | nil => exact Words.nil
  | cons arg argv ih => exact Words.cons Redirs.nil ih

theorem DerivesAt.back (h : DerivesAt 2 ts t) : DerivesAt 2 (ts ++ [.amp]) (.back t) := by
  obtain ⟨ts', c, n, hpipe, hts, ht⟩ := h
  refine ⟨ts', c, n + 1, hpipe, ?_, by rw [ht]; rfl⟩
  rw [hts, replicate_succ', append_assoc]

theorem DerivesAt.list {t' : Tree} (h : DerivesAt 2 ts t) (h' : DerivesAt 3 ts' t') :
    DerivesAt 3 (ts ++ .semi :: ts') (.list t t') := by
  obtain ⟨ts1, c, n, hpipe, hts, ht⟩ := h
  rw [hts, ht, append_assoc]
  exact Derives.lines n hpipe h'

theorem lexemes_derive (t : Tree) (ht : t.Written) (k : Nat) : DerivesAt k (t.lexemes k) t := by
  induction t generalizing k with
  | exec argv =>
    have hexec : DerivesAt 0 (argv.map .word) (.exec argv) :=
      Derives.exec Redirs.nil (words_derive argv) ht
    exact hexec.mono (Nat.zero_le k)
  | redir cmd r ih =>
    have hcmd : Derives .exec (cmd.lexemes 0) cmd := ih ht.1 0
    have hredir : DerivesAt 0 (cmd.lexemes 0 ++ r.lexemes) (.redir cmd r) := hcmd.redir ht.2
    exact hredir.mono (Nat.zero_le k)
  | pipe left right ihl ihr =>
    have hpipe : DerivesAt 1 (left.lexemes 0 ++ .bar :: right.lexemes 1) (.pipe left right) :=
      Derives.pipes (ihl ht.1 0) (ihr ht.2 1)
    exact hpipe.paren (by omega)
  | list left right ihl ihr => exact ((ihl ht.1 2).list (ihr ht.2 3)).paren (by omega)
  | back cmd ih => exact (ih ht 2).back.paren (by omega)

theorem mem_paren {b : Bool} {l : Lexeme} (h : l ∈ paren b ts) :
    l ∈ ts ∨ l = .lparen ∨ l = .rparen := by
  unfold paren at h
  split at h
  · rcases mem_cons.mp h with h | h
    · exact .inr (Or.inl h)
    · rcases mem_append.mp h with h | h
      · exact .inl h
      · exact .inr (Or.inr (mem_singleton.mp h))
  · exact .inl h

theorem paren_proper (h : ∀ l ∈ ts, l.Proper) (b : Bool) : ∀ l ∈ paren b ts, l.Proper := by
  intro l hl
  rcases mem_paren hl with hl | rfl | rfl
  · exact h l hl
  · trivial
  · trivial

theorem lexemes_proper (t : Tree) (h : ∀ x ∈ t.strings, Proper x) (k : Nat) :
    ∀ l ∈ t.lexemes k, l.Proper := by
  induction t generalizing k with
  | exec argv =>
    intro l hl
    obtain ⟨x, hx, rfl⟩ := mem_map.mp hl
    exact h x hx
  | redir cmd r ih =>
    simp only [Cmd.strings, forall_mem_append, forall_mem_singleton] at h
    simp only [Cmd.lexemes, Redir.lexemes, forall_mem_append, forall_mem_cons]
    refine ⟨ih h.1 0, ?_, h.2, fun _ hl => absurd hl not_mem_nil⟩
    split <;> trivial
  | pipe left right ihl ihr =>
    simp only [Cmd.strings, forall_mem_append] at h
    apply paren_proper
    simp only [forall_mem_append, forall_mem_cons]
    exact ⟨ihl h.1 0, trivial, ihr h.2 1⟩
  | list left right ihl ihr =>
    simp only [Cmd.strings, forall_mem_append] at h
    apply paren_proper
    simp only [forall_mem_append, forall_mem_cons]
    exact ⟨ihl h.1 2, trivial, ihr h.2 3⟩
  | back cmd ih =>
    apply paren_proper
    simp only [forall_mem_append, forall_mem_singleton]
    exact ⟨ih h 2, trivial⟩

/-- A tree that is printed is parsed to the same tree. -/
theorem parsecmd_print_tree (ht : t.Written) (hstrings : ∀ x ∈ t.strings, Proper x) :
    ∃ cmd, parsecmd t.print = .ok cmd ∧ cmd.text = t := by
  rw [parsecmd_iff]
  unfold Cmd.print
  rw [(lexes_spell (lexemes_proper t hstrings 3)).tokens_eq]
  exact lexemes_derive t ht 3

end

theorem strings_text (cmd : Cmd Span) : cmd.text.strings = cmd.strings.map Span.text := by
  unfold Cmd.text
  induction cmd with
  | exec argv => rfl
  | redir cmd r ih =>
    rw [Cmd.map, Cmd.strings, ih, Cmd.strings, map_append]
    rfl
  | pipe left right ihl ihr | list left right ihl ihr =>
    rw [Cmd.map, Cmd.strings, ihl, ihr, Cmd.strings, map_append]
  | back cmd ih => exact ih

/-- The parser returns on every line; it accepts those whose tokens, by the lexical rules, are a
sentence of the grammar, and builds the tree of the derivation. The strings of the tree are
the words of the line when their ends are overwritten, which changes no character of a word,
and the printed tree is parsed to the tree again. -/
theorem parsecmd_grammar (line : Ptr) (hline : 0 ∉ line) : parsecmd line ≠ .error .outOfFuel ∧
      (∀ t, (∃ cmd, parsecmd line = .ok cmd ∧ cmd.text = t) ↔
        ∃ ts, Lexes line ts ∧ Derives .line ts t) ∧
      ∀ cmd, parsecmd line = .ok cmd → (∀ x ∈ cmd.strings, WordAt line x ∧
          cstring (nulterminate (line ++ [0]) cmd) x.q = x.text) ∧
        (∀ (i : Nat) (c : UInt8), getElem? line i = some c → plain c = true →
          (nulterminate (line ++ [0]) cmd)[i]? = some c) ∧
        ∃ cmd', parsecmd cmd.text.print = .ok cmd' ∧ cmd'.text = cmd.text := by
  refine ⟨fun herr => parsecmd_errs line _ herr rfl, fun t => ?_, ?_⟩
  · rw [parsecmd_iff]
    simp only [lexes_iff, exists_eq_left']
  intro cmd hcmd
  obtain ⟨hderives, hwords⟩ := parsecmd_sound hcmd
  refine ⟨fun x hx => ⟨hwords x hx, nulterminate_cstring hline hwords hx⟩,
    fun i c hget hc => nulterminate_plain hline hwords hget hc, ?_⟩
  apply parsecmd_print_tree hderives.written
  intro text htext
  rw [strings_text] at htext
  obtain ⟨x, hx, rfl⟩ := mem_map.mp htext
  exact ⟨(hwords x hx).nonempty, (hwords x hx).plain⟩

/-- `a|b>>c` -/
theorem parsecmd_grammar_append :
    (∃ ts, Lexes [97, 124, 98, 62, 62, 99] ts ∧ Derives .line ts
      (.pipe (.exec [[97]]) (.redir (.exec [[98]]) ⟨[99], O_WRONLY ||| O_CREATE, 1⟩))) ∧
    ∃ cmd, parsecmd (Cmd.print (.pipe (.exec [[97]])
        (.redir (.exec [[98]]) ⟨[99], O_WRONLY ||| O_CREATE, 1⟩))) = .ok cmd ∧
      cmd.text = .pipe (.exec [[97]])
        (.redir (.exec [[98]]) ⟨[99], O_WRONLY ||| O_CREATE, 1⟩) := by
  obtain ⟨-, hiff, hcmds⟩ := parsecmd_grammar [97, 124, 98, 62, 62, 99] (by decide)
  have hparse : parsecmd [97, 124, 98, 62, 62, 99] =
      .ok (.pipe (.exec [⟨[97, 124, 98, 62, 62, 99], [124, 98, 62, 62, 99]⟩])
        (.redir (.exec [⟨[98, 62, 62, 99], [62, 62, 99]⟩])
          ⟨⟨[99], []⟩, O_WRONLY ||| O_CREATE, 1⟩)) := rfl
  exact ⟨(hiff _).mp ⟨_, hparse, rfl⟩, (hcmds _ hparse).2.2⟩

/-- The end of `a` in `a|b` is the operator: it is overwritten. -/
theorem nulterminate_operator :
    ∃ cmd, parsecmd [97, 124, 98] = .ok cmd ∧ [97, 124, 98][1]? = some 124 ∧
      tokens [97, 124, 98] = [.word [97], .bar, .word [98]] ∧
      (nulterminate ([97, 124, 98] ++ [0]) cmd)[1]? = some 0 := by
  refine ⟨.pipe (.exec [⟨[97, 124, 98], [124, 98]⟩]) (.exec [⟨[98], []⟩]), rfl, rfl, ?_, rfl⟩
  rw [tokens_eq, tokens_eq, tokens_eq, tokens_eq]
  rfl

end Xv6.Sh

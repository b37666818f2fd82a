import Mathlib.Data.List.Basic
import Mathlib.Data.List.TakeWhile
import Mathlib.Tactic.FinCases
import Xv6.Sh.Parse

/-!
The tokens of a line, as a list. `peek` and `gettoken` look at the head of this list
and take it off.
-/

namespace Xv6.Sh

open List

inductive Lexeme where
  | bar
  | lparen
  | rparen
  | semi
  | amp
  | lt
  | gt
  | append
  | word (text : List UInt8)
deriving DecidableEq

def Lexeme.symbol : Lexeme → Option UInt8
  | .bar => some 124
  | .lparen => some 40
  | .rparen => some 41
  | .semi => some 59
  | .amp => some 38
  | .lt => some 60
  | .gt => some 62
  | .append => some 62
  | .word _ => none

def Lexeme.tok : Lexeme → Tok
  | .bar => .bar
  | .lparen => .lparen
  | .rparen => .rparen
  | .semi => .semi
  | .amp => .amp
  | .lt => .lt
  | .gt => .gt
  | .append => .append
  | .word _ => .word

def Span.text (x : Span) : List UInt8 := x.q.take (x.q.length - x.eq.length)

/-- How a token is written. -/
def Lexeme.chars : Lexeme → List UInt8
  | .bar => [124]
  | .lparen => [40]
  | .rparen => [41]
  | .semi => [59]
  | .amp => [38]
  | .lt => [60]
  | .gt => [62]
  | .append => [62, 62]
  | .word text => text

/-- A word is neither empty nor interrupted by whitespace or an operator. -/
structure Proper (text : List UInt8) : Prop where
  nonempty : text ≠ []
  plain : ∀ c ∈ text, plain c = true

def Lexeme.Proper : Lexeme → Prop
  | .word text => Sh.Proper text
  | _ => True

/-- No longer token begins where `l` does, with `s` behind it. -/
def Lexeme.Longest (l : Lexeme) (s : Ptr) : Prop :=
  ∀ (l' : Lexeme) (s' : Ptr), l'.Proper → l'.chars ++ s' = l.chars ++ s →
    l'.chars.length ≤ l.chars.length

/-- The lexical rules: a line is cut into tokens from the left, each as long as it can be,
and whitespace between them is left out. -/
inductive Lexes : Ptr → List Lexeme → Prop where
  | nil : Lexes [] []
  | space {c s ls} (hc : c ∈ whitespace) (h : Lexes s ls) : Lexes (c :: s) ls
  | token {l s ls} (hl : l.Proper) (hlong : l.Longest s) (h : Lexes s ls) :
      Lexes (l.chars ++ s) (l :: ls)

/-- The first token, `none` at the end of the line. -/
def Token.lexeme (t : Token) : Option Lexeme :=
  match t.tok with
  | .none => none
  | .bar => some .bar
  | .lparen => some .lparen
  | .rparen => some .rparen
  | .semi => some .semi
  | .amp => some .amp
  | .lt => some .lt
  | .gt => some .gt
  | .append => some .append
  | .word => some (.word t.span.text)

section

variable {s : Ptr} {c : UInt8}

theorem skip_skip (s : Ptr) : skip (skip s) = skip s := by
  unfold skip
  induction s with
  | nil => rfl
  | cons c s ih =>
    rw [dropWhile_cons]
    split
    · exact ih
    · next hc => rw [dropWhile_cons, if_neg hc]

theorem skip_length_le (s : Ptr) : (skip s).length ≤ s.length :=
  (dropWhile_suffix _).length_le

theorem gettoken_skip (s : Ptr) : gettoken (skip s) = gettoken s := by
  unfold gettoken
  rw [skip_skip]

theorem not_whitespace_of_skip {rest : Ptr} (h : skip s = c :: rest) :
    whitespace.contains c = false := by
  have hhead := List.head?_dropWhile_not whitespace.contains s
  unfold skip at h
  rw [h] at hhead
  simpa using hhead

end

section

variable {s : Ptr} {l : Lexeme}

theorem gettoken_end (h : skip s = []) : (gettoken s).tok = .none ∧ (gettoken s).rest = [] := by
  unfold gettoken
  rw [h]
  exact ⟨rfl, rfl⟩

theorem lexeme_tok {t : Token} {l : Lexeme} (h : t.lexeme = some l) : t.tok = l.tok := by
  unfold Token.lexeme at h
  split at h <;> cases h <;> assumption

theorem lexeme_eq_none {t : Token} : t.lexeme = none ↔ t.tok = .none := by
  unfold Token.lexeme
  split <;> simp_all

theorem gettoken_word {c : UInt8} {rest : Ptr} (h : skip s = c :: rest) (hplain : plain c = true) :
    gettoken s = ⟨.word, ⟨c :: rest, rest.dropWhile plain⟩, skip (rest.dropWhile plain)⟩ := by
  have hscan : scan (c :: rest) = (.word, rest.dropWhile plain) := by
    have hnot : c ∉ symbols := by
      intro hc
      simp [plain, hc] at hplain
    simp only [symbols, mem_cons, not_mem_nil, or_false, not_or] at hnot
    simp [scan, hnot, hplain]
  unfold gettoken
  simp only [h, hscan]

/-- A word ends where no plain character follows. -/
theorem Lexeme.Longest.word_end {text s : List UInt8} (hlong : (Lexeme.word text).Longest s)
    (hl : Sh.Proper text) {c : UInt8} (hc : s.head? = some c) : plain c = false := by
  by_contra hplain
  obtain ⟨s, rfl⟩ := head?_eq_some_iff.mp hc
  have hle := hlong (.word (text ++ [c])) s ⟨by simp, fun x hx => ?_⟩ (by simp [Lexeme.chars])
  · simp only [Lexeme.chars, length_append, length_singleton] at hle
    omega
  · rcases mem_append.mp hx with hx | hx
    · exact hl.plain x hx
    · rw [mem_singleton.mp hx]
      exact Bool.eq_true_of_not_eq_false hplain

/-- The longest token at the start of a text is the one that `gettoken` takes off. -/
theorem gettoken_chars (hl : l.Proper) (hlong : l.Longest s) :
    (gettoken (l.chars ++ s)).lexeme = some l ∧ (gettoken (l.chars ++ s)).rest = skip s := by
  cases l with
  | word text =>
    have hend (c : UInt8) (hc : s.head? = some c) : plain c = false := hlong.word_end hl hc
    obtain ⟨c, text, rfl⟩ := exists_cons_of_ne_nil hl.nonempty
    have hc : plain c = true := hl.plain c mem_cons_self
    have hskip : skip (c :: (text ++ s)) = c :: (text ++ s) := by
      unfold skip
      rw [dropWhile_cons, if_neg]
      intro hwhite
      rw [plain, hwhite] at hc
      cases hc
    have hdrop : (text ++ s).dropWhile plain = s := by
      rw [dropWhile_append_of_pos fun c hc => hl.plain c (mem_cons_of_mem _ hc)]
      cases s with
      | nil => rfl
      | cons d s => rw [dropWhile_cons, if_neg (by simp [hend d rfl])]
    have htext : Span.text ⟨c :: (text ++ s), s⟩ = c :: text := by
      unfold Span.text
      rw [← cons_append, length_append, Nat.add_sub_cancel, take_left]
    rw [Lexeme.chars, cons_append, gettoken_word hskip hc, hdrop]
    refine ⟨?_, rfl⟩
    unfold Token.lexeme
    dsimp only
    rw [htext]
  | gt =>
    have hnot : s.head? ≠ some 62 := by
      intro hs
      obtain ⟨s, rfl⟩ := head?_eq_some_iff.mp hs
      exact absurd (hlong .append s trivial rfl) (by decide)
    have hscan : scan (62 :: s) = (.gt, s) := by
      simp [scan, hnot]
    have hskip : skip (62 :: s) = 62 :: s := rfl
    simp [Lexeme.chars, gettoken, hskip, hscan, Token.lexeme]
  | bar | lparen | rparen | semi | amp | lt | append => exact ⟨rfl, rfl⟩

/-- What begins with a character other than whitespace begins with a longest token. -/
theorem exists_longest {c : UInt8} (hc : whitespace.contains c = false) (rest : Ptr) :
    ∃ (l : Lexeme) (s : Ptr), l.Proper ∧ l.Longest s ∧ l.chars ++ s = c :: rest := by
  have hword {c : UInt8} {text s' rest : List UInt8} (hl : Sh.Proper text)
      (heq : text ++ s' = c :: rest) : plain c = true := by
    obtain ⟨d, text, rfl⟩ := exists_cons_of_ne_nil hl.nonempty
    cases heq
    exact hl.plain c mem_cons_self
  by_cases hplain : plain c = true
  · refine ⟨.word (c :: rest.takeWhile plain), rest.dropWhile plain,
      ⟨cons_ne_nil _ _, fun x hx => ?_⟩, fun l' s' hl' heq => ?_, ?_⟩
    · rcases mem_cons.mp hx with rfl | hx
      · exact hplain
      · exact mem_takeWhile_imp hx
    · rw [Lexeme.chars, cons_append, takeWhile_append_dropWhile] at heq
      cases l' with
      | word text =>
        have htake : (text ++ s').takeWhile plain = (c :: rest).takeWhile plain :=
          congrArg (takeWhile plain) heq
        rw [takeWhile_append_of_pos hl'.plain, takeWhile_cons, if_pos hplain] at htake
        have hlength := congrArg List.length htake
        rw [length_append] at hlength
        change text.length ≤ (c :: rest.takeWhile plain).length
        omega
      | bar | lparen | rparen | semi | amp | lt | gt | append =>
        cases heq
        exact absurd hplain (by decide)
    · rw [Lexeme.chars, cons_append, takeWhile_append_dropWhile]
  · have hsymbol : c ∈ symbols := by
      rw [plain, hc] at hplain
      simpa using hplain
    -- a token that begins with an operator is an operator
    have hone (l : Lexeme) (hl : l.chars = [c]) (hnot : c = 62 → rest.head? ≠ some 62) :
        l.Longest rest := by
      intro l' s' hl' heq
      rw [hl]
      rw [hl, singleton_append] at heq
      cases l' with
      | word text => exact absurd (hword hl' heq) hplain
      | append =>
        cases heq
        exact absurd rfl (hnot rfl)
      | bar | lparen | rparen | semi | amp | lt | gt => exact Nat.le_refl 1
    fin_cases hsymbol
    · exact ⟨.lt, rest, trivial, hone _ rfl fun h => absurd h (by decide), rfl⟩
    · exact ⟨.bar, rest, trivial, hone _ rfl fun h => absurd h (by decide), rfl⟩
    · by_cases hdouble : rest.head? = some 62
      · obtain ⟨rest, rfl⟩ := head?_eq_some_iff.mp hdouble
        refine ⟨.append, rest, trivial, fun l' s' hl' heq => ?_, rfl⟩
        cases l' with
        | word text => exact absurd (hword hl' heq) hplain
        | bar | lparen | rparen | semi | amp | lt | gt | append => simp [Lexeme.chars]
      · exact ⟨.gt, rest, trivial, hone _ rfl fun _ => hdouble, rfl⟩
    · exact ⟨.amp, rest, trivial, hone _ rfl fun h => absurd h (by decide), rfl⟩
    · exact ⟨.semi, rest, trivial, hone _ rfl fun h => absurd h (by decide), rfl⟩
    · exact ⟨.lparen, rest, trivial, hone _ rfl fun h => absurd h (by decide), rfl⟩
    · exact ⟨.rparen, rest, trivial, hone _ rfl fun h => absurd h (by decide), rfl⟩

theorem Lexeme.Proper.chars_pos (hl : l.Proper) : 0 < l.chars.length := by
  cases l with
  | word text => exact length_pos_of_ne_nil hl.nonempty
  | bar | lparen | rparen | semi | amp | lt | gt | append => simp [Lexeme.chars]

/-- What `gettoken` finds behind the whitespace: nothing, or the longest token there. -/
theorem gettoken_cases (s : Ptr) : skip s = [] ∨ ∃ (l : Lexeme) (s' : Ptr), l.Proper ∧
    l.Longest s' ∧ skip s = l.chars ++ s' ∧ (gettoken s).lexeme = some l ∧
      (gettoken s).rest = skip s' := by
  cases hs : skip s with
  | nil => exact .inl rfl
  | cons c rest =>
    obtain ⟨l, s', hl, hlong, heq⟩ := exists_longest (not_whitespace_of_skip hs) rest
    obtain ⟨hlexeme, hrest⟩ := gettoken_chars hl hlong
    rw [heq, ← hs, gettoken_skip] at hlexeme hrest
    exact .inr ⟨l, s', hl, hlong, heq.symm, hlexeme, hrest⟩

theorem skip_of_none (h : (gettoken s).tok = .none) : skip s = [] := by
  rcases gettoken_cases s with hs | ⟨l, _, _, _, _, hlexeme, _⟩
  · exact hs
  · rw [lexeme_eq_none.mpr h] at hlexeme
    cases hlexeme

theorem gettoken_lt (h : (gettoken s).tok ≠ .none) : (gettoken s).rest.length < s.length := by
  rcases gettoken_cases s with hs | ⟨l, s', hl, _, heq, _, hrest⟩
  · exact absurd (gettoken_end hs).1 h
  · have hle := skip_length_le s
    have hlast := skip_length_le s'
    have hpos := hl.chars_pos
    rw [heq, length_append] at hle
    rw [hrest]
    omega

end

def tokens (s : Ptr) : List Lexeme :=
  match _h : (gettoken s).lexeme with
  | none => []
  | some l => l :: tokens (gettoken s).rest
termination_by s.length
decreasing_by
  apply gettoken_lt
  rw [Ne, ← lexeme_eq_none, _h]
  exact Option.some_ne_none l

section

variable {s : Ptr} {l : Lexeme} {ls : List Lexeme}

theorem tokens_eq (s : Ptr) : tokens s = match (gettoken s).lexeme with
    | none => []
    | some l => l :: tokens (gettoken s).rest := by
  rw [tokens]
  split <;> simp_all

theorem tokens_skip (s : Ptr) : tokens (skip s) = tokens s := by
  rw [tokens_eq, tokens_eq s, gettoken_skip]

theorem tokens_nil (h : tokens s = []) : (gettoken s).tok = .none := by
  rw [tokens_eq] at h
  split at h
  · next hnone => exact lexeme_eq_none.mp hnone
  · cases h

theorem tokens_cons (h : tokens s = l :: ls) :
    (gettoken s).lexeme = some l ∧ tokens (gettoken s).rest = ls := by
  rw [tokens_eq] at h
  split at h
  · cases h
  · next l' hl =>
    cases h
    exact ⟨hl, rfl⟩

theorem Lexes.tokens_eq (h : Lexes s ls) : tokens s = ls := by
  induction h with
  | nil =>
    rw [Sh.tokens_eq]
    rfl
  | @space c s ls hc _ ih =>
    have hskip : skip (c :: s) = skip s := by
      unfold skip
      rw [dropWhile_cons, if_pos (contains_iff_mem.mpr hc)]
    rw [← tokens_skip, hskip, tokens_skip, ih]
  | token hl hlong _ ih =>
    obtain ⟨hlexeme, hrest⟩ := gettoken_chars hl hlong
    rw [Sh.tokens_eq, hlexeme, hrest, tokens_skip, ih]

theorem Lexes.of_skip (h : Lexes (skip s) ls) : Lexes s ls := by
  induction s with
  | nil => exact h
  | cons c s ih =>
    unfold skip at h
    rw [dropWhile_cons] at h
    split at h
    · next hc => exact .space (contains_iff_mem.mp hc) (ih h)
    · exact h

theorem exists_lexes (s : Ptr) : ∃ ls, Lexes s ls := by
  induction hlen : s.length using Nat.strong_induction_on generalizing s with
  | _ n ih =>
  rcases gettoken_cases s with hs | ⟨l, s', hl, hlong, heq, _, _⟩
  · exact ⟨[], .of_skip (by rw [hs]; exact .nil)⟩
  · have hlt : s'.length < n := by
      have hle := skip_length_le s
      have hpos := hl.chars_pos
      rw [heq, length_append] at hle
      omega
    obtain ⟨ls, h⟩ := ih _ hlt s' rfl
    exact ⟨l :: ls, .of_skip (by rw [heq]; exact .token hl hlong h)⟩

/-- The tokens that the parser takes off a line are those of the lexical rules. -/
theorem lexes_iff : Lexes s ls ↔ tokens s = ls := by
  refine ⟨Lexes.tokens_eq, ?_⟩
  rintro rfl
  obtain ⟨ls, h⟩ := exists_lexes s
  rwa [h.tokens_eq]

theorem peek_eq {toks : List UInt8} (htoks : ∀ c ∈ toks, plain c = false) :
    peek s toks = ((tokens s).head?.bind Lexeme.symbol).any toks.contains := by
  rcases gettoken_cases s with hs | ⟨l, s', hl, _, heq, hlexeme, _⟩
  · rw [tokens_eq, lexeme_eq_none.mpr (gettoken_end hs).1, peek, hs]
    rfl
  · rw [tokens_eq, hlexeme, peek, heq]
    cases l with
    | word text =>
      obtain ⟨c, text, rfl⟩ := exists_cons_of_ne_nil hl.nonempty
      have hnot : c ∉ toks := fun hmem => by
        have hplain := hl.plain c mem_cons_self
        rw [htoks c hmem] at hplain
        cases hplain
      simpa [Lexeme.chars, Lexeme.symbol] using hnot
    | bar | lparen | rparen | semi | amp | lt | gt | append => rfl

end

end Xv6.Sh

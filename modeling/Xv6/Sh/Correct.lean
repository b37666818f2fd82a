import Xv6.Sh.Complete

/-!
The parser of the shell on a whole line: it accepts the sentences of the grammar, and the
strings of the tree are the words of the line when `nulterminate` has run.
-/

namespace Xv6.Sh

open Lib List

theorem tokens_length_le (s : Ptr) : (tokens s).length ≤ s.length := by
  obtain ⟨ls, h⟩ := exists_lexes s
  rw [h.tokens_eq]
  induction h with
  | nil => exact Nat.le_refl 0
  | space _ _ ih => exact Nat.le_succ_of_le ih
  | token hl _ _ ih =>
    have hpos := hl.chars_pos
    rw [length_cons, length_append]
    omega

section

variable {line : Ptr}

theorem parsecmd_errs (line : Ptr) : Errs (· ≠ .outOfFuel) (parsecmd line) := by
  have hle := tokens_length_le line
  have hparse := parse_enough (4 * line.length + 4) .line line (by dsimp only [fuel]; omega)
  apply hparse.bind
  rintro ⟨cmd, s⟩ _
  dsimp only
  split
  · exact errs_ok _
  · exact errs_error.mpr nofun

theorem parsecmd_sound {cmd : Cmd Span} (h : parsecmd line = .ok cmd) :
    Derives .line (tokens line) cmd.text ∧ ∀ x ∈ cmd.strings, WordAt line x := by
  obtain ⟨⟨c, s⟩, hparse, h⟩ := bind_eq_ok.mp h
  dsimp only at h
  split at h
  · next hskip =>
    cases h
    obtain ⟨ts, hts, hparsed⟩ := parse_sound (4 * line.length + 4) .line _ _ _ hparse
    have htokens := hparsed.tokens
    rw [tokens_eq s, lexeme_eq_none.mpr (gettoken_end hskip).1, append_nil] at htokens
    rw [htokens]
    exact ⟨hts, hparsed.words⟩
  · cases h

theorem parsecmd_iff (line : Ptr) (t : Tree) :
    (∃ cmd, parsecmd line = .ok cmd ∧ cmd.text = t) ↔ Derives .line (tokens line) t := by
  constructor
  · rintro ⟨cmd, hparse, rfl⟩
    exact (parsecmd_sound hparse).1
  · intro h
    have hle := tokens_length_le line
    obtain ⟨cmd, s, hparse, hcmd, hs⟩ := parse_complete h line [] (4 * line.length + 4)
      (append_nil _).symm (fun l hl => nomatch hl) (by dsimp only [fuel]; omega)
    refine ⟨cmd, ?_, hcmd⟩
    change parseline (4 * line.length + 4) line = _ at hparse
    have hskip := skip_of_none (tokens_nil hs)
    unfold parsecmd
    rw [hparse, ok_bind]
    dsimp only
    rw [if_pos hskip]

end

section

variable {line : Ptr} {cmd : Cmd Span}

/-- The string that a pointer into the line points to. -/
def cstring (buf : List UInt8) (p : Ptr) : List UInt8 :=
  (buf.drop (buf.length - 1 - p.length)).takeWhile (· ≠ 0)

/-- One NUL for every string. -/
theorem nulterminate_eq (buf : List UInt8) (cmd : Cmd Span) :
    nulterminate buf cmd = cmd.strings.foldl (fun buf x => clear buf x.eq) buf := by
  induction cmd generalizing buf with
  | exec argv => rfl
  | redir cmd r ih =>
    rw [nulterminate, ih, Cmd.strings, foldl_append]
    rfl
  | pipe left right ihl ihr => rw [nulterminate, ihl, ihr, Cmd.strings, foldl_append]
  | list left right ihl ihr => rw [nulterminate, ihl, ihr, Cmd.strings, foldl_append]
  | back cmd ih => exact ih buf

theorem foldl_clear_length (xs : List Span) (buf : List UInt8) :
    (xs.foldl (fun buf x => clear buf x.eq) buf).length = buf.length := by
  induction xs generalizing buf with
  | nil => rfl
  | cons x xs ih =>
    rw [foldl_cons, ih]
    exact length_set

theorem foldl_clear_get (xs : List Span) (buf : List UInt8) {i : Nat} (hi : i < buf.length) :
    ((xs.foldl (fun buf x => clear buf x.eq) buf)[i]? = some 0 ∧
      ∃ x ∈ xs, buf.length - 1 - x.eq.length = i) ∨
    ((xs.foldl (fun buf x => clear buf x.eq) buf)[i]? = buf[i]? ∧
      ∀ x ∈ xs, buf.length - 1 - x.eq.length ≠ i) := by
  induction xs generalizing buf with
  | nil => exact .inr ⟨rfl, fun _ hx => nomatch hx⟩
  | cons x xs ih =>
    have hlength : (clear buf x.eq).length = buf.length := length_set
    have hrest := ih (clear buf x.eq) (by rw [hlength]; exact hi)
    rw [foldl_cons]
    rcases hrest with ⟨hzero, y, hy, hpos⟩ | ⟨hsame, hnot⟩
    · rw [hlength] at hpos
      exact .inl ⟨hzero, y, mem_cons_of_mem _ hy, hpos⟩
    · rw [hlength] at hnot
      rw [hsame]
      unfold clear
      rw [List.getElem?_set]
      split
      · next hpos =>
        rw [if_pos (by omega)]
        exact .inl ⟨rfl, x, mem_cons_self, hpos⟩
      · next hpos =>
        refine .inr ⟨rfl, fun y hy => ?_⟩
        rcases mem_cons.mp hy with rfl | hy
        · exact hpos
        · exact hnot y hy

theorem takeWhile_of_get {buf text : List UInt8} {i : Nat} (hzero : 0 ∉ text)
    (htext : ∀ j (hj : j < text.length), buf[i + j]? = some (text.get ⟨j, hj⟩))
    (hend : buf[i + text.length]? = some 0) : (buf.drop i).takeWhile (· ≠ 0) = text := by
  induction text generalizing i with
  | nil =>
    obtain ⟨hi, hget⟩ := List.getElem?_eq_some_iff.mp hend
    rw [length_nil, Nat.add_zero] at hi
    rw [drop_eq_getElem_cons hi, takeWhile_cons, if_neg]
    simpa using hget
  | cons c text ih =>
    obtain ⟨hi, hget⟩ := List.getElem?_eq_some_iff.mp (htext 0 (Nat.zero_lt_succ _))
    rw [Nat.add_zero] at hi
    have hc : buf[i] = c := hget
    have hrest := ih (i := i + 1) (fun hmem => hzero (mem_cons_of_mem _ hmem))
      (fun j hj => by
        rw [Nat.add_assoc, Nat.add_comm 1 j]
        exact htext (j + 1) (Nat.succ_lt_succ hj))
      (by
        rw [Nat.add_assoc, Nat.add_comm 1]
        exact hend)
    rw [drop_eq_getElem_cons hi, takeWhile_cons, hc, hrest, if_pos]
    simp only [ne_eq, decide_eq_true_eq]
    rintro rfl
    exact hzero mem_cons_self

/-- Where the end of a word is in the array, there is no character of a word. -/
theorem WordAt.end_get {x : Span} (h : WordAt line x) {c : UInt8}
    (hc : (line ++ [0])[line.length - x.eq.length]? = some c) (hline : 0 ∉ line) :
    Sh.plain c = false ∨ c ∉ line := by
  have heq : x.eq <:+ line := by
    have hsuffix := h.suffix
    rw [h.text] at hsuffix
    exact (suffix_append _ _).trans hsuffix
  obtain ⟨before, rfl⟩ := heq
  rw [length_append, Nat.add_sub_cancel, append_assoc,
    List.getElem?_append_right (Nat.le_refl _), Nat.sub_self] at hc
  cases hx : x.eq with
  | nil =>
    rw [hx] at hc hline
    cases hc
    exact .inr hline
  | cons d rest =>
    rw [hx] at hc
    cases hc
    exact .inl (h.ends c (by rw [hx]; rfl))

theorem nulterminate_cstring (hline : 0 ∉ line) (hwords : ∀ x ∈ cmd.strings, WordAt line x)
    {x : Span} (hx : x ∈ cmd.strings) :
    cstring (nulterminate (line ++ [0]) cmd) x.q = x.text := by
  have hword := hwords x hx
  obtain ⟨before, hbefore⟩ := hword.suffix
  rw [hword.text] at hbefore
  have hlength : line.length = before.length + (x.text.length + x.eq.length) := by
    rw [← hbefore, length_append, length_append]
  have hq : x.q.length = x.text.length + x.eq.length := by
    rw [← length_append, ← hword.text]
  have hmem (c : UInt8) (hc : c ∈ x.text) : c ∈ line := by
    rw [← hbefore]
    simp [hc]
  rw [nulterminate_eq]
  unfold cstring
  rw [foldl_clear_length, length_append, length_singleton]
  have hpos : line.length + 1 - 1 - x.q.length = before.length := by omega
  rw [hpos]
  apply takeWhile_of_get
  · intro hzero
    exact hline (hmem 0 hzero)
  · intro j hj
    have hget : (line ++ [0])[before.length + j]? = some (x.text.get ⟨j, hj⟩) := by
      rw [← hbefore, append_assoc, append_assoc,
        List.getElem?_append_right (Nat.le_add_right _ _), Nat.add_sub_cancel_left,
        List.getElem?_append_left hj]
      exact List.getElem?_eq_getElem hj
    rcases foldl_clear_get cmd.strings (line ++ [0]) (i := before.length + j) (by
      rw [length_append, length_singleton]
      omega) with ⟨_, y, hy, hyend⟩ | ⟨hsame, _⟩
    · -- the end of a word would be in the middle of this one
      rw [length_append, length_singleton, Nat.add_sub_cancel] at hyend
      rw [← hyend] at hget
      have hin := get_mem x.text ⟨j, hj⟩
      rcases (hwords y hy).end_get hget hline with hnot | hnot
      · rw [hword.plain _ hin] at hnot
        cases hnot
      · exact absurd (hmem _ hin) hnot
    · rw [hsame, hget]
  · rcases foldl_clear_get cmd.strings (line ++ [0]) (i := before.length + x.text.length) (by
      rw [length_append, length_singleton]
      omega) with ⟨hzero, _⟩ | ⟨_, hnot⟩
    · exact hzero
    · exact absurd (by rw [length_append, length_singleton]; omega) (hnot x hx)

/-- A NUL is written over no character of a word. -/
theorem nulterminate_plain (hline : 0 ∉ line) (hwords : ∀ x ∈ cmd.strings, WordAt line x)
    {i : Nat} {c : UInt8} (hget : getElem? line i = some c) (hc : plain c = true) :
    (nulterminate (line ++ [0]) cmd)[i]? = some c := by
  have hi : i < line.length := by
    by_contra hge
    rw [List.getElem?_eq_none (Nat.le_of_not_lt hge)] at hget
    cases hget
  have hlt : i < (line ++ [0]).length := by
    rw [length_append]
    omega
  have hbuf : (line ++ [0])[i]? = some c := by rw [List.getElem?_append_left hi, hget]
  rw [nulterminate_eq]
  rcases foldl_clear_get cmd.strings (line ++ [0]) hlt with ⟨_, y, hy, hyend⟩ | ⟨hsame, _⟩
  · rw [length_append, length_singleton, Nat.add_sub_cancel] at hyend
    rw [← hyend] at hbuf
    rcases (hwords y hy).end_get hbuf hline with hnot | hnot
    · rw [hc] at hnot
      cases hnot
    · exact absurd (mem_of_getElem? hget) hnot
  · rw [hsame, hbuf]

end

end Xv6.Sh

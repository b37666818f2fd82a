import Xv6.Grep.Match

/-!
The loop of `grep`: the bytes of each `read` are put behind those of an unfinished line, the
lines that are complete are matched and written, and the rest is moved to the front of the
buffer. Where no line was complete, the buffer is given up instead. The part of the buffer in
use is a list; no byte of it is zero, so `strchr` and `match` stop where the source has put a
zero.
-/

namespace Xv6.Grep

open List

/-- `sizeof(buf)`. -/
def BUFSIZE : Nat := 1024

/-- The inner loop: what is written, and the bytes behind the last newline. `line` are the
bytes from `p` to the place where `strchr` is. -/
def lineLoop (pattern line : List UInt8) : List UInt8 → List UInt8 × List UInt8
  | [] => ([], line)
  | c :: text =>
    if c = 10 then
      let (out, rest) := lineLoop pattern [] text
      (if match_ pattern line then line ++ [10] ++ out else out, rest)
    else lineLoop pattern (line ++ [c]) text

/-- The body of the outer loop, with `held` at the front of the buffer: what is written, and
what is moved to the front. The rest is the whole buffer exactly if `p == buf`. -/
def round (pattern held chunk : List UInt8) : List UInt8 × List UInt8 :=
  let buf := held ++ chunk
  let (out, rest) := lineLoop pattern [] buf
  (out, if rest.length = buf.length then [] else rest)

/-- `grep` on the results of `read` up to the first that is not positive: what is written, or
`none` if one of them is not possible for the number of bytes asked for. -/
def grep (pattern held : List UInt8) : List (List UInt8) → Option (List UInt8)
  | [] => some []
  | chunk :: chunks =>
    if 0 < chunk.length ∧ chunk.length ≤ BUFSIZE - held.length - 1 then
      let (out, held) := round pattern held chunk
      (grep pattern held chunks).map (out ++ ·)
    else none

/-- The complete lines of a text that begins in the middle of one. -/
def lines (line : List UInt8) : List UInt8 → List (List UInt8)
  | [] => []
  | c :: d => if c = 10 then line :: lines [] d else lines (line ++ [c]) d

/-- The bytes behind its last newline. -/
def unfinished (line : List UInt8) : List UInt8 → List UInt8
  | [] => line
  | c :: d => if c = 10 then unfinished [] d else unfinished (line ++ [c]) d

/-- The lines that match, with their newlines. -/
def matching (pattern : List UInt8) (ls : List (List UInt8)) : List UInt8 :=
  (ls.filter (match_ pattern)).flatMap (· ++ [10])

/-- What of an unfinished line and the next bytes the loop keeps. -/
def kept (t chunk : List UInt8) : List UInt8 := if 10 ∈ chunk then unfinished t chunk else []

def seen (t : List UInt8) : List (List UInt8) → List (List UInt8)
  | [] => []
  | chunk :: chunks => lines t chunk ++ seen (kept t chunk) chunks

/-- Chunks as `read` returns them from a text without zero bytes: none is empty or longer than
what is left of the buffer. -/
def Reads (t : List UInt8) : List (List UInt8) → Prop
  | [] => True
  | chunk :: chunks => 0 ∉ chunk ∧ 0 < chunk.length ∧ chunk.length ≤ BUFSIZE - t.length - 1 ∧
    Reads (kept t chunk) chunks

variable {pattern t d : List UInt8} {ls chunks : List (List UInt8)}

theorem matching_cons (l : List UInt8) :
    matching pattern (l :: ls) =
      (if match_ pattern l then l ++ [10] else []) ++ matching pattern ls := by
  unfold matching
  rw [filter_cons]
  split <;> rfl

theorem matching_append (ls' : List (List UInt8)) :
    matching pattern (ls ++ ls') = matching pattern ls ++ matching pattern ls' := by
  unfold matching
  rw [filter_append, flatMap_append]

theorem lineLoop_eq (pattern t d : List UInt8) :
    lineLoop pattern t d = (matching pattern (lines t d), unfinished t d) := by
  induction d generalizing t with
  | nil => rfl
  | cons c d ih =>
    rw [lineLoop, lines, unfinished, ih, ih]
    split
    · rw [matching_cons]
      dsimp only
      split <;> rfl
    · rfl

theorem lines_append (t d e : List UInt8) :
    lines t (d ++ e) = lines t d ++ lines (unfinished t d) e ∧
      unfinished t (d ++ e) = unfinished (unfinished t d) e := by
  induction d generalizing t with
  | nil => exact ⟨rfl, rfl⟩
  | cons c d ih =>
    rw [cons_append, lines, lines, unfinished, unfinished]
    split
    · exact ⟨congrArg (t :: ·) (ih []).1, (ih []).2⟩
    · exact ih _

theorem lines_open (h : 10 ∉ d) (t : List UInt8) : lines t d = [] ∧ unfinished t d = t ++ d := by
  induction d generalizing t with
  | nil => exact ⟨rfl, (append_nil t).symm⟩
  | cons c d ih =>
    rw [mem_cons, not_or] at h
    rw [lines, unfinished, if_neg (Ne.symm h.1), if_neg (Ne.symm h.1), append_cons t c d]
    exact ih h.2 _

theorem unfinished_spec (ht : 10 ∉ t) (d : List UInt8) : 10 ∉ unfinished t d ∧
    (unfinished t d).length + (if 10 ∈ d then 1 else 0) ≤ t.length + d.length := by
  induction d generalizing t with
  | nil => exact ⟨ht, Nat.le_refl _⟩
  | cons c d ih =>
    rw [unfinished, length_cons]
    split
    · next hc =>
      obtain ⟨hopen, hle⟩ := ih (t := []) not_mem_nil
      rw [length_nil] at hle
      refine ⟨hopen, ?_⟩
      rw [if_pos (mem_cons.mpr (.inl hc.symm))]
      omega
    · next hc =>
      have hnot : 10 ∉ t ++ [c] := not_mem_append ht (mt mem_singleton.mp (Ne.symm hc))
      obtain ⟨hopen, hle⟩ := ih hnot
      rw [length_append, length_singleton] at hle
      simp only [mem_cons, Ne.symm hc, false_or]
      exact ⟨hopen, by omega⟩

theorem round_eq (pattern : List UInt8) (ht : 10 ∉ t) (chunk : List UInt8) :
    round pattern t chunk = (matching pattern (lines t chunk), kept t chunk) := by
  obtain ⟨hlines, hrest⟩ := lines_append [] t chunk
  rw [(lines_open ht []).1, (lines_open ht []).2, nil_append, nil_append] at hlines
  rw [(lines_open ht []).2, nil_append] at hrest
  rw [round, lineLoop_eq, hlines, hrest]
  obtain ⟨-, hle⟩ := unfinished_spec ht chunk
  dsimp only
  rw [length_append, kept]
  by_cases h : 10 ∈ chunk
  · rw [if_pos h] at hle ⊢
    rw [if_neg (by omega)]
  · rw [if_neg h, (lines_open h t).2, length_append, if_pos rfl]

theorem grep_eq (ht : 10 ∉ t) (hreads : Reads t chunks) :
    grep pattern t chunks = some (matching pattern (seen t chunks)) := by
  induction chunks generalizing t with
  | nil => rfl
  | cons chunk chunks ih =>
    obtain ⟨-, hpos, hfits, hreads⟩ := hreads
    have hkept : 10 ∉ kept t chunk := by
      unfold kept
      split
      · exact (unfinished_spec ht chunk).1
      · exact not_mem_nil
    rw [grep, if_pos ⟨hpos, hfits⟩, round_eq pattern ht]
    dsimp only
    rw [ih hkept hreads, seen, matching_append]
    rfl

theorem match_nil (text : List UInt8) : match_ [] text = true := by
  cases text <;> rfl

/-- The number of bytes written for lines that all match. -/
def weight (ls : List (List UInt8)) : Nat := (matching [] ls).length

theorem weight_cons (l : List UInt8) :
    weight (l :: ls) = l.length + 1 + weight ls := by
  unfold weight
  rw [matching_cons, if_pos (match_nil l), length_append, length_append]
  rfl

theorem weight_append (ls' : List (List UInt8)) :
    weight (ls ++ ls') = weight ls + weight ls' := by
  unfold weight
  rw [matching_append, length_append]

theorem weight_lines (t d : List UInt8) :
    weight (lines t d) = weight (lines [] d) + if 10 ∈ d then t.length else 0 := by
  induction d generalizing t with
  | nil => rfl
  | cons c d ih =>
    rw [lines, lines]
    split
    · next hc =>
      rw [if_pos (mem_cons.mpr (.inl hc.symm)), weight_cons, weight_cons, length_nil]
      omega
    · next hc =>
      rw [ih, ih ([] ++ [c]), length_append, length_append, length_nil, length_singleton]
      simp only [mem_cons, Ne.symm hc, false_or]
      split <;> omega

/-- If every chunk in front of one with a newline has a newline, no byte is lost. -/
theorem seen_eq (h : chunks.Pairwise fun a b => 10 ∈ b → 10 ∈ a) :
    seen t chunks = lines t chunks.flatten := by
  induction chunks generalizing t with
  | nil => rfl
  | cons chunk chunks ih =>
    obtain ⟨hfirst, hrest⟩ := pairwise_cons.mp h
    rw [seen, flatten_cons, (lines_append t chunk _).1, kept]
    split
    · rw [ih hrest]
    · next hno =>
      have hnone : 10 ∉ chunks.flatten := fun hmem => by
        obtain ⟨b, hb, hin⟩ := mem_flatten.mp hmem
        exact hno (hfirst b hb hin)
      rw [ih hrest, (lines_open hnone _).1, (lines_open hnone _).1]

/-- The loop sees no more bytes than there are, and fewer if a chunk without a newline stands
in front of one that has a newline. -/
theorem weight_seen (hreads : Reads t chunks) :
    weight (seen t chunks) ≤ weight (lines t chunks.flatten) ∧
      (weight (seen t chunks) = weight (lines t chunks.flatten) →
        chunks.Pairwise fun a b => 10 ∈ b → 10 ∈ a) := by
  induction chunks generalizing t with
  | nil => exact ⟨Nat.zero_le _, fun _ => Pairwise.nil⟩
  | cons chunk chunks ih =>
    obtain ⟨-, hpos, -, hreads⟩ := hreads
    obtain ⟨hle, heq⟩ := ih hreads
    rw [seen, flatten_cons, (lines_append t chunk _).1, weight_append, weight_append,
      pairwise_cons]
    by_cases hchunk : 10 ∈ chunk
    · rw [kept, if_pos hchunk] at *
      exact ⟨by omega, fun h => ⟨fun _ _ _ => hchunk, heq (by omega)⟩⟩
    · rw [kept, if_neg hchunk] at *
      have hlines := weight_lines (unfinished t chunk) chunks.flatten
      rw [(lines_open hchunk t).2] at hlines ⊢
      rw [length_append] at hlines
      split at hlines
      · exact ⟨by omega, fun h => by omega⟩
      · next hnone =>
        refine ⟨by omega, fun h => ⟨fun b hb hin => ?_, heq (by omega)⟩⟩
        exact absurd (mem_flatten.mpr ⟨b, hb, hin⟩) hnone

/-- `grep` writes the matching lines, whole and in order, for every pattern if and only if
every chunk in front of one with a newline has a newline itself. -/
theorem grep_chunks_iff (hreads : Reads [] chunks) :
    (∀ pattern, grep pattern [] chunks = some (matching pattern (lines [] chunks.flatten))) ↔
    chunks.Pairwise fun a b => 10 ∈ b → 10 ∈ a := by
  constructor
  · intro h
    have hsame := (grep_eq not_mem_nil hreads).symm.trans (h [])
    exact (weight_seen hreads).2 (congrArg length (Option.some.inj hsame))
  · intro h pattern
    rw [grep_eq not_mem_nil hreads, seen_eq h]

/-- `ab` in two reads, with the pattern `ab`. -/
theorem grep_loses : Reads [] [[97], [98, 10]] ∧
    grep [97, 98] [] [[97], [98, 10]] = some [] ∧
    matching [97, 98] (lines [] [97, 98, 10]) = [97, 98, 10] := by
  refine ⟨?_, by decide, by decide⟩
  simp [Reads, kept, BUFSIZE]

/-- The line `ab`, of which the first chunk holds one letter. -/
theorem grep_chunks_two :
    grep [97, 98] [] [[120, 10, 97], [98, 10]] = some [97, 98, 10] := by
  have hreads : Reads [] [[120, 10, 97], [98, 10]] := by
    simp [Reads, kept, unfinished, BUFSIZE]
  exact (grep_chunks_iff hreads).mpr (by decide) [97, 98]

end Xv6.Grep

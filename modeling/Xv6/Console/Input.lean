import Xv6.Lib.Ring

/-!
The input buffer of the console. The characters between `r` and `w` are committed and can
be read, those between `w` and `e` are the line that is still edited. The three indices are
free-running counters, so the two parts are rings over one array that share a counter.
-/

namespace Xv6.Console

open Lib List

def INPUT_BUF : Nat := 128

/-- `C(x)` -/
def ctrl (x : Char) : UInt8 := x.toUInt8 - '@'.toUInt8

def newline : UInt8 := '\n'.toUInt8

def carriageReturn : UInt8 := '\r'.toUInt8

def delete : UInt8 := 0x7f

/-- `input` -/
structure Input where
  buf : Nat → UInt8
  r : BitVec 32
  w : BitVec 32
  e : BitVec 32

namespace Input

def unread (s : Input) : Ring UInt8 32 INPUT_BUF := ⟨s.buf, s.r, s.w⟩

def editing (s : Input) : Ring UInt8 32 INPUT_BUF := ⟨s.buf, s.w, s.e⟩

theorem editing_pos {s : Input} (h : s.e ≠ s.w) : 0 < s.editing.count := by
  apply Nat.pos_of_ne_zero
  intro hzero
  exact h (s.editing.empty_iff.mpr hzero).symm

def kill (s : Input) : Input :=
  if s.e ≠ s.w ∧ s.buf ((s.e - 1).toNat % INPUT_BUF) ≠ newline then
    kill { s with e := s.e - 1 }
  else s
termination_by s.editing.count
decreasing_by
  next h =>
  have hless := s.editing.count_unpush (editing_pos h.1)
  change s.editing.unpush.count < s.editing.count
  omega

def backspace (s : Input) : Input := if s.e ≠ s.w then { s with e := s.e - 1 } else s

/-- The default case of `consoleintr`. -/
def put (s : Input) (c : UInt8) : Input :=
  if c ≠ 0 ∧ (s.e - s.r).toNat < INPUT_BUF then
    let c := if c = carriageReturn then newline else c
    let s := { s with buf := Function.update s.buf (s.e.toNat % INPUT_BUF) c, e := s.e + 1 }
    if c = newline ∨ c = ctrl 'D' ∨ s.e = s.r + BitVec.ofNat 32 INPUT_BUF then
      { s with w := s.e }
    else s
  else s

def consoleintr (s : Input) (c : UInt8) : Input :=
  if c = ctrl 'P' then s
  else if c = ctrl 'U' then s.kill
  else if c = ctrl 'H' ∨ c = delete then s.backspace
  else s.put c

theorem kill_unread (s : Input) : s.kill.unread = s.unread := by
  fun_induction Input.kill s with
  | case1 s _ ih => exact ih
  | case2 s _ => rfl

theorem consoleintr_unread {s : Input} {c : UInt8} (hc : c ∈ [ctrl 'U', ctrl 'H', delete]) :
    (s.consoleintr c).unread = s.unread := by
  have hbackspace : s.backspace.unread = s.unread := by
    unfold backspace
    split <;> rfl
  have hcases : c = ctrl 'U' ∨ c = ctrl 'H' ∨ c = delete := by simpa using hc
  rcases hcases with rfl | rfl | rfl
  · exact kill_unread s
  · exact hbackspace
  · exact hbackspace

end Input

/-- What was typed: the characters of the lines that are committed, and the line that is
not. -/
structure Typed where
  committed : List UInt8
  line : List UInt8

/-- A key is typed when `taken` characters have been read. A character for which there is no
room is dropped, and the line is committed when there is no room behind it. -/
def Typed.key (t : Typed) (taken : Nat) (c : UInt8) : Typed :=
  if c = ctrl 'P' then t
  else if c = ctrl 'U' then { t with line := [] }
  else if c = ctrl 'H' ∨ c = delete then { t with line := t.line.dropLast }
  else if c = 0 ∨ INPUT_BUF ≤ t.committed.length + t.line.length - taken then t
  else
    let c := if c = carriageReturn then newline else c
    let line := t.line ++ [c]
    if c = newline ∨ c = ctrl 'D' ∨ t.committed.length + line.length - taken = INPUT_BUF then
      ⟨t.committed ++ line, []⟩
    else { t with line := line }

/-- The buffer holds what was typed and not yet taken. -/
structure Holds (s : Input) (t : Typed) (taken : List UInt8) : Prop where
  committed : taken ++ s.unread.contents = t.committed
  line : s.editing.contents = t.line
  room : s.unread.count + s.editing.count ≤ INPUT_BUF
  full : s.unread.count + s.editing.count = INPUT_BUF → t.line = []
  one : newline ∉ t.line

namespace Holds

variable {s : Input} {t : Typed} {taken : List UInt8}

theorem dvd : INPUT_BUF ∣ 2 ^ 32 := ⟨2 ^ 25, rfl⟩

theorem count_line (h : Holds s t taken) : s.editing.count = t.line.length := by
  rw [← Ring.length_contents, h.line]

theorem count_committed (h : Holds s t taken) :
    s.unread.count + taken.length = t.committed.length := by
  rw [← h.committed, length_append, Ring.length_contents, Nat.add_comm]

theorem count_all (h : Holds s t taken) : (s.e - s.r).toNat = s.unread.count + s.editing.count := by
  have hsmall : s.unread.count + s.editing.count < 2 ^ 32 := Nat.lt_of_le_of_lt h.room (by decide)
  exact Ring.count_cut s.buf s.r s.w s.e hsmall

theorem shorten (h : Holds s t taken) (hpos : 0 < s.editing.count) :
    Holds { s with e := s.e - 1 } { t with line := t.line.dropLast } taken := by
  have hcount := s.editing.count_unpush hpos
  have hcontents := s.editing.contents_unpush dvd hpos
  have hroom := h.room
  refine ⟨h.committed, ?_, ?_, ?_, fun hmem => h.one (dropLast_subset _ hmem)⟩
  · rw [← h.line, hcontents, dropLast_concat]
    rfl
  · change s.unread.count + s.editing.unpush.count ≤ _
    omega
  · change s.unread.count + s.editing.unpush.count = _ → _
    intro hfull
    omega

theorem backspace (h : Holds s t taken) :
    Holds s.backspace { t with line := t.line.dropLast } taken := by
  unfold Input.backspace
  split
  · next hne => exact h.shorten (Input.editing_pos hne)
  · next heq =>
    have hzero := s.editing.empty_iff.mp (not_ne_iff.mp heq).symm
    rw [h.count_line, length_eq_zero_iff] at hzero
    have hsame : { t with line := t.line.dropLast } = t := by
      obtain ⟨committed, line⟩ := t
      dsimp only at hzero
      rw [hzero]
      rfl
    rw [hsame]
    exact h

/-- There is no newline in a line: it is removed as a whole. -/
theorem kill (h : Holds s t taken) : Holds s.kill { t with line := [] } taken := by
  fun_induction Input.kill s generalizing t with
  | case1 s hcond ih =>
    have hrest := ih (h.shorten (Input.editing_pos hcond.1))
    exact hrest
  | case2 s hcond =>
    have hempty : t.line = [] := by
      by_contra hne
      have hpos : 0 < s.editing.count := by
        rw [h.count_line]
        exact length_pos_iff.mpr hne
      apply hcond
      constructor
      · intro heq
        have hzero := s.editing.empty_iff.mp heq.symm
        omega
      · intro hlast
        apply h.one
        rw [← h.line, s.editing.contents_unpush dvd hpos]
        apply mem_append_right
        exact mem_singleton.mpr hlast.symm
    obtain ⟨committed, line⟩ := t
    dsimp only at hempty
    rw [hempty] at h
    exact h

theorem push (h : Holds s t taken) (c : UInt8)
    (hroom : s.unread.count + s.editing.count < INPUT_BUF) :
    let s' : Input :=
      { s with buf := Function.update s.buf (s.e.toNat % INPUT_BUF) c, e := s.e + 1 }
    s'.unread.contents = s.unread.contents ∧ s'.editing.contents = t.line ++ [c] := by
  constructor
  · have hcell : s.e.toNat % INPUT_BUF =
        (s.r.toNat + (s.unread.count + s.editing.count)) % INPUT_BUF := by
      rw [← h.count_all]
      exact Ring.nwrite_cell (⟨s.buf, s.r, s.e⟩ : Ring UInt8 32 INPUT_BUF) dvd
    have hkept := s.unread.contents_write c (Nat.le_add_right _ s.editing.count) hroom
    rw [← hkept]
    unfold Input.unread
    dsimp only
    rw [hcell]
    rfl
  · rw [← h.line]
    exact s.editing.contents_push c dvd (by omega) (by decide)

theorem commit {s : Input} {line : List UInt8}
    (hcommitted : taken ++ s.unread.contents = t.committed)
    (hline : s.editing.contents = line) (hroom : s.unread.count + s.editing.count ≤ INPUT_BUF) :
    Holds { s with w := s.e } ⟨t.committed ++ line, []⟩ taken := by
  have hsmall : s.unread.count + s.editing.count < 2 ^ 32 := Nat.lt_of_le_of_lt hroom (by decide)
  have hzero : Ring.count (⟨s.buf, s.e, s.e⟩ : Ring UInt8 32 INPUT_BUF) = 0 :=
    (Ring.empty_iff _).mp rfl
  have hcount : Ring.count (⟨s.buf, s.r, s.e⟩ : Ring UInt8 32 INPUT_BUF) =
      s.unread.count + s.editing.count := Ring.count_cut s.buf s.r s.w s.e hsmall
  refine ⟨?_, ?_, ?_, fun _ => rfl, not_mem_nil⟩
  · rw [← hcommitted, ← hline, append_assoc]
    exact congrArg _ (Ring.contents_cut s.buf s.r s.w s.e dvd hsmall)
  · apply length_eq_zero_iff.mp
    rw [Ring.length_contents]
    exact hzero
  · change Ring.count (⟨s.buf, s.r, s.e⟩ : Ring UInt8 32 INPUT_BUF) +
      Ring.count (⟨s.buf, s.e, s.e⟩ : Ring UInt8 32 INPUT_BUF) ≤ _
    rw [hcount, hzero]
    exact hroom

theorem settle {s : Input} {t : Typed} {c : UInt8}
    (hcommitted : taken ++ s.unread.contents = t.committed)
    (hline : s.editing.contents = t.line ++ [c])
    (hroom : s.unread.count + s.editing.count ≤ INPUT_BUF) (hone : newline ∉ t.line) :
    Holds
      (if c = newline ∨ c = ctrl 'D' ∨ s.e = s.r + BitVec.ofNat 32 INPUT_BUF then
        { s with w := s.e } else s)
      (if c = newline ∨ c = ctrl 'D' ∨
          t.committed.length + (t.line ++ [c]).length - taken.length = INPUT_BUF then
        ⟨t.committed ++ (t.line ++ [c]), []⟩ else { t with line := t.line ++ [c] }) taken := by
  have hsmall : s.unread.count + s.editing.count < 2 ^ 32 := Nat.lt_of_le_of_lt hroom (by decide)
  have hcut : Ring.count (⟨s.buf, s.r, s.e⟩ : Ring UInt8 32 INPUT_BUF) =
      s.unread.count + s.editing.count := Ring.count_cut s.buf s.r s.w s.e hsmall
  have hfull : s.e = s.r + BitVec.ofNat 32 INPUT_BUF ↔
      s.unread.count + s.editing.count = INPUT_BUF := by
    rw [← hcut]
    exact Ring.full_iff (⟨s.buf, s.r, s.e⟩ : Ring UInt8 32 INPUT_BUF) (by decide)
  have hlength : t.committed.length + (t.line ++ [c]).length - taken.length =
      s.unread.count + s.editing.count := by
    rw [← hcommitted, ← hline, length_append, Ring.length_contents, Ring.length_contents]
    omega
  have hends : (c = newline ∨ c = ctrl 'D' ∨ s.e = s.r + BitVec.ofNat 32 INPUT_BUF) ↔
      (c = newline ∨ c = ctrl 'D' ∨
        t.committed.length + (t.line ++ [c]).length - taken.length = INPUT_BUF) := by
    rw [hfull, hlength]
  by_cases hgoes : c = newline ∨ c = ctrl 'D' ∨ s.e = s.r + BitVec.ofNat 32 INPUT_BUF
  · rw [if_pos hgoes, if_pos (hends.mp hgoes)]
    exact commit hcommitted hline hroom
  · rw [if_neg hgoes, if_neg fun h => hgoes (hends.mpr h)]
    refine ⟨hcommitted, hline, hroom, fun h => ?_, ?_⟩
    · exact absurd (Or.inr (Or.inr (hfull.mpr h))) hgoes
    intro hmem
    rcases mem_append.mp hmem with hmem | hmem
    · exact hone hmem
    · exact hgoes (Or.inl (mem_singleton.mp hmem).symm)

theorem put (h : Holds s t taken) {c : UInt8} (hP : c ≠ ctrl 'P') (hU : c ≠ ctrl 'U')
    (hH : ¬ (c = ctrl 'H' ∨ c = delete)) : Holds (s.put c) (t.key taken.length c) taken := by
  have hall := h.count_all
  have hline := h.count_line
  have hcommitted := h.count_committed
  have hdropped : (c = 0 ∨ INPUT_BUF ≤ t.committed.length + t.line.length - taken.length) ↔
      ¬ (c ≠ 0 ∧ (s.e - s.r).toNat < INPUT_BUF) := by
    rw [not_and_or, not_ne_iff, Nat.not_lt, hall]
    have hsum : t.committed.length + t.line.length - taken.length =
        s.unread.count + s.editing.count := by omega
    rw [hsum]
  unfold Typed.key Input.put
  rw [if_neg hP, if_neg hU, if_neg hH]
  by_cases hput : c ≠ 0 ∧ (s.e - s.r).toNat < INPUT_BUF
  · have hkept : ¬ (c = 0 ∨ INPUT_BUF ≤ t.committed.length + t.line.length - taken.length) :=
      fun hdrop => hdropped.mp hdrop hput
    rw [if_pos hput, if_neg hkept]
    have hroom : s.unread.count + s.editing.count < INPUT_BUF := by omega
    obtain ⟨hunread, hediting⟩ := h.push (if c = carriageReturn then newline else c) hroom
    apply settle (hunread.symm ▸ h.committed) hediting ?_ h.one
    rw [← Ring.length_contents, ← Ring.length_contents, hunread, hediting, length_append,
      length_singleton, Ring.length_contents]
    omega
  · rw [if_neg hput, if_pos (hdropped.mpr hput)]
    exact h

theorem consoleintr (h : Holds s t taken) (c : UInt8) :
    Holds (s.consoleintr c) (t.key taken.length c) taken := by
  by_cases hP : c = ctrl 'P'
  · unfold Input.consoleintr Typed.key
    rw [if_pos hP, if_pos hP]
    exact h
  by_cases hU : c = ctrl 'U'
  · unfold Input.consoleintr Typed.key
    rw [if_neg hP, if_neg hP, if_pos hU, if_pos hU]
    exact h.kill
  by_cases hH : c = ctrl 'H' ∨ c = delete
  · unfold Input.consoleintr Typed.key
    rw [if_neg hP, if_neg hP, if_neg hU, if_neg hU, if_pos hH, if_pos hH]
    exact h.backspace
  · unfold Input.consoleintr
    rw [if_neg hP, if_neg hU, if_neg hH]
    exact h.put hP hU hH

theorem take (h : Holds s t taken) (hne : s.r ≠ s.w) :
    Holds { s with r := s.r + 1 } t (taken ++ [s.buf (s.r.toNat % INPUT_BUF)]) := by
  have hpos : 0 < s.unread.count := by
    apply Nat.pos_of_ne_zero
    intro hzero
    exact hne (s.unread.empty_iff.mpr hzero)
  have hcount := s.unread.count_pop hpos
  have hcontents := s.unread.contents_pop dvd hpos
  have hroom := h.room
  refine ⟨?_, h.line, ?_, ?_, h.one⟩
  · rw [← h.committed, hcontents, append_assoc]
    rfl
  · change s.unread.pop.count + s.editing.count ≤ _
    omega
  · change s.unread.pop.count + s.editing.count = _ → _
    intro hfull
    omega

end Holds

end Xv6.Console

import Mathlib.Logic.Function.Basic
import Mathlib.Tactic.SplitIfs

/-!
What `cgaputc` shows. The screen is a window of 24 lines on an endless paper, on which
characters are written one after the other; the paper moves up a line when the window is
full. The cells behind the cursor are blank, and the line below the window is not used.
-/

namespace Xv6.Console

open Function List

/-- `crt`, and the cursor position that the CRT controller keeps. -/
structure Screen where
  crt : Nat → Nat
  pos : Nat

def BACKSPACE : Int := 0x100

/-- `' ' | 0x0700` -/
def blank : Nat := 0x0720

/-- The cell of a character: `(c&0xff) | 0x0700`. -/
def cell (c : Int) : Nat := (c % 256).toNat + 0x0700

def Screen.write (s : Screen) (c : Int) : Screen :=
  if c = 10 then { s with pos := s.pos + (80 - s.pos % 80) }
  else if c = BACKSPACE then { s with pos := s.pos - 1 }
  else ⟨update s.crt s.pos (cell c), s.pos + 1⟩

def Screen.scroll (s : Screen) : Screen :=
  if s.pos / 80 ≥ 24 then
    ⟨fun j => if s.pos - 80 ≤ j ∧ j < 24 * 80 then 0
      else if j < 23 * 80 then s.crt (j + 80) else s.crt j, s.pos - 80⟩
  else s

/-- `cgaputc`; `none` for the panic. -/
def cgaputc (s : Screen) (c : Int) : Option Screen :=
  let s := s.write c
  if s.pos > 25 * 80 then none
  else
    let s := s.scroll
    some { s with crt := update s.crt s.pos blank }

/-- The cells in front of the cursor, and how many lines are above the window. -/
structure Paper where
  text : List Nat
  top : Nat

namespace Paper

def write (p : Paper) (c : Int) : Paper :=
  if c = 10 then { p with text := p.text ++ replicate (80 - p.text.length % 80) blank }
  else if c = BACKSPACE then
    if p.text.length = 80 * p.top then p else { p with text := p.text.dropLast }
  else { p with text := p.text ++ [cell c] }

def scroll (p : Paper) : Paper :=
  if p.text.length = 80 * (p.top + 24) then { p with top := p.top + 1 } else p

def put (p : Paper) (c : Int) : Paper := (p.write c).scroll

end Paper

/-- Cells that were cleared look like blanks. -/
def shown (x : Nat) : Nat := if x = 0 then blank else x

/-- The window shows the paper up to the cursor, and blanks from `free` on. -/
structure Shows (s : Screen) (p : Paper) (free : Nat) : Prop where
  pos : p.text.length = 80 * p.top + s.pos
  text : ∀ j < s.pos, p.text[80 * p.top + j]? = some (shown (s.crt j))
  rest : ∀ j, free ≤ j → j < 24 * 80 → shown (s.crt j) = blank

variable {s : Screen} {p : Paper}

theorem Shows.write (h : Shows s p s.pos) (hpos : s.pos < 24 * 80) (c : Int) :
    Shows (s.write c) (p.write c) ((s.write c).pos + 1) ∧ (s.write c).pos ≤ 24 * 80 := by
  have hlen := h.pos
  unfold Screen.write Paper.write
  split_ifs with hnl hback hempty
  · refine ⟨⟨?_, fun j (hj : j < s.pos + (80 - s.pos % 80)) => ?_,
      fun j (hj : s.pos + (80 - s.pos % 80) + 1 ≤ j) => h.rest j (by omega)⟩,
      (by omega : s.pos + (80 - s.pos % 80) ≤ 24 * 80)⟩
    · simp only [length_append, length_replicate]
      omega
    · dsimp only
      rcases Nat.lt_or_ge j s.pos with hlt | hge
      · rw [getElem?_append_left (by omega), h.text j hlt]
      · rw [getElem?_append_right (by omega), getElem?_replicate, if_pos (by omega),
          h.rest j hge (by omega)]
  · have hzero : s.pos = 0 := by omega
    exact ⟨⟨by simpa [hzero] using hlen, fun j hj => by simp [hzero] at hj,
      fun j _ => h.rest j (by omega)⟩, (by omega : s.pos - 1 ≤ 24 * 80)⟩
  · refine ⟨⟨?_, fun j (hj : j < s.pos - 1) => ?_,
      fun j (hj : s.pos - 1 + 1 ≤ j) => h.rest j (by omega)⟩, (by omega : s.pos - 1 ≤ 24 * 80)⟩
    · simp only [length_dropLast]
      omega
    · dsimp only
      rw [getElem?_dropLast, if_pos (by omega), h.text j (by omega)]
  · refine ⟨⟨?_, fun j (hj : j < s.pos + 1) => ?_, fun j (hj : s.pos + 1 + 1 ≤ j) hlt => ?_⟩, hpos⟩
    · simp only [length_append, length_singleton]
      omega
    · dsimp only
      rcases Nat.lt_or_eq_of_le (Nat.le_of_lt_succ hj) with hlt | rfl
      · rw [getElem?_append_left (by omega), h.text j hlt, update_of_ne (by omega)]
      · rw [getElem?_append_right (by omega), hlen, Nat.sub_self, update_self]
        simp [shown, cell]
    · dsimp only
      rw [update_of_ne (by omega), h.rest j (by omega) hlt]

/-- The window has a free line again, and the cursor is a blank. -/
theorem Shows.scroll (h : Shows s p (s.pos + 1)) (hpos : s.pos ≤ 24 * 80) :
    Shows { s.scroll with crt := update s.scroll.crt s.scroll.pos blank } p.scroll s.scroll.pos ∧
      s.scroll.pos < 24 * 80 := by
  have hlen := h.pos
  unfold Screen.scroll Paper.scroll
  rcases Nat.lt_or_eq_of_le hpos with hlt | heq
  · rw [if_neg (by omega), if_neg (by omega)]
    refine ⟨⟨hlen, fun j (hj : j < s.pos) => ?_, fun j hj hj' => ?_⟩, hlt⟩
    · dsimp only
      rw [h.text j hj, update_of_ne (by omega)]
    · dsimp only
      rcases Nat.eq_or_lt_of_le hj with rfl | hj
      · rw [update_self]
        rfl
      · rw [update_of_ne (by omega), h.rest j hj hj']
  · rw [if_pos (by omega), if_pos (by omega)]
    refine ⟨⟨(by omega : p.text.length = 80 * (p.top + 1) + (s.pos - 80)),
      fun j (hj : j < s.pos - 80) => ?_, fun j (hj : s.pos - 80 ≤ j) hj' => ?_⟩,
      (by omega : s.pos - 80 < 24 * 80)⟩
    · dsimp only
      rw [update_of_ne (by omega), if_neg (by omega), if_pos (by omega), ← h.text _ (by omega)]
      congr 1
      omega
    · dsimp only
      rw [update_apply]
      split_ifs
      · rfl
      · rfl
      all_goals omega

/-- Whatever is written, `cgaputc` does not panic, and the window shows the paper. -/
theorem cgaputc_shows (h : Shows s p s.pos) (hpos : s.pos < 24 * 80) (cs : List Int) :
    ∃ s', cs.foldlM cgaputc s = some s' ∧ Shows s' (cs.foldl Paper.put p) s'.pos ∧
      s'.pos < 24 * 80 := by
  induction cs generalizing s p with
  | nil => exact ⟨s, rfl, h, hpos⟩
  | cons c cs ih =>
    obtain ⟨hwrite, hle⟩ := h.write hpos c
    obtain ⟨hscroll, hlt⟩ := hwrite.scroll hle
    obtain ⟨s', hrun, hs'⟩ := ih hscroll hlt
    refine ⟨s', ?_, hs'⟩
    rw [foldlM_cons, cgaputc, if_neg (by omega)]
    exact hrun

/-- A character on a blank screen, and one that is taken back. -/
theorem cgaputc_shows_two : ∃ s, [97, 98, BACKSPACE].foldlM cgaputc ⟨fun _ => 0, 0⟩ = some s ∧
    Shows s ⟨[cell 97], 0⟩ s.pos := by
  obtain ⟨s, hrun, hs, -⟩ := cgaputc_shows (s := ⟨fun _ => 0, 0⟩) (p := ⟨[], 0⟩)
    ⟨rfl, nofun, fun _ _ _ => rfl⟩ (by decide) [97, 98, BACKSPACE]
  exact ⟨s, hrun, hs⟩

end Xv6.Console

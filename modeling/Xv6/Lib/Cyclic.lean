import Mathlib.Data.Nat.Basic
import Mathlib.Tactic.Common

/-!
Cursors that go round. A cursor walks over positions `0, 1, 2, …` and may jump
back to `0` only from behind the last one. From right behind `i` it cannot come
to `i` again without passing `j`.
-/

namespace Xv6.Lib

/-- Behind `i` and not yet past `j`, going round. -/
def Between (i j x : Nat) : Prop := if i < j then i < x ∧ x ≤ j else i < x ∨ x ≤ j

theorem between_next (i j : Nat) : Between i j (i + 1) := by
  unfold Between
  split <;> omega

theorem Between.succ {i j x : Nat} (h : Between i j x) (hx : x ≠ j) : Between i j (x + 1) := by
  unfold Between at *
  by_cases hij : i < j
  · rw [if_pos hij] at *
    omega
  · rw [if_neg hij] at *
    omega

theorem Between.wrap {i j x n : Nat} (h : Between i j x) (hx : n ≤ x) (hj : j < n) :
    Between i j 0 := by
  unfold Between at *
  by_cases hij : i < j
  · rw [if_pos hij] at *
    omega
  · rw [if_neg hij] at *
    omega

theorem not_between_self {i j : Nat} (h : i ≠ j) : ¬ Between i j i := by
  unfold Between
  split <;> omega

end Xv6.Lib

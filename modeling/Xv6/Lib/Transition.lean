import Mathlib.Logic.Relation

/-!
Safety of transition systems. A system is a step relation on an arbitrary
state type; its runs are the reflexive transitive closure. An inductive
invariant holds in every state of every run.
-/

namespace Xv6.Lib

open Relation

variable {σ : Type*} {Step : σ → σ → Prop}

/-- What holds at the start and is kept by one step holds along every run. -/
theorem invariant_of_run (Inv : σ → Prop) {s t : σ} (hrun : ReflTransGen Step s t)
    (hinit : Inv s) (hstep : ∀ a b, Inv a → Step a b → Inv b) : Inv t := by
  induction hrun with
  | refl => exact hinit
  | tail _ hlast ih => exact hstep _ _ ih hlast

end Xv6.Lib

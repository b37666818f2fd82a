import Xv6.Sched.ExitStatus

/-!
The tree of processes. From every process the parent pointers lead to init: `fork`
adds a leaf, `exit` hangs the children of the process under init, and `wait` takes
a leaf away. So there is no cycle, and every zombie has a live parent.
-/

namespace Xv6.Sched

open Relation Function

variable {init : Slot} {v v' : View} {ev : List Event}

/-- A process that was born: `fork` has set its parent. -/
def Life.Born (l : Life) : Prop :=
  l.phase = .alive ∨ l.phase = .zombie ∨ l.phase = .embryo ∧ l.stage = .ready

def Parent (life : Slot → Life) (q p : Slot) : Prop := (life q).parent = some p

/-- The parents of every process lead to `init`. -/
def Rooted (init : Slot) (life : Slot → Life) : Prop :=
  ∀ q, (life q).Born → ReflTransGen (Parent life) q init

/-- A slot that keeps its parent and is not born by the step. -/
theorem Rooted.set {life : Slot → Life} (hr : Rooted init life) (p : Slot) (l : Life)
    (hparent : l.parent = (life p).parent) (hborn : l.Born → (life p).Born) :
    Rooted init (update life p l) := by
  have hsame : Parent (update life p l) = Parent life := by
    funext q r
    unfold Parent
    by_cases hq : q = p
    · rw [hq, update_self, hparent]
    · rw [update_of_ne hq]
  intro q hq
  rw [hsame]
  apply hr
  by_cases hqp : q = p
  · rw [hqp, update_self] at hq
    rw [hqp]
    exact hborn hq
  · rwa [update_of_ne hqp] at hq

theorem View.Effect.rooted (he : Effect init v ev v') (h : View.Inv init v)
    (hr : Rooted init v.life) : Rooted init v'.life := by
  cases he with
  | quiet | failed | exec | kalloc | kfree => exact hr
  | exitBegin p d halive => exact hr.set p _ rfl fun _ => .inl halive
  | exitEnd p halive _ hinit =>
    intro q hq
    have hold : ReflTransGen (Parent v.life) q init := by
      apply hr
      by_cases hqp : q = p
      · exact .inl (hqp ▸ halive)
      · simpa [View.exit, Life.Born, hqp] using hq
    clear hq
    -- a chain through `p` is cut short in front of it
    induction hold using ReflTransGen.head_induction_on with
    | refl => exact .refl
    | @head a b hab _ ih =>
      by_cases hb : b = p
      · exact .single (if_pos (hb ▸ hab))
      · have hne : (v.life a).parent ≠ some p := fun hp => hb (Option.some.inj (hab.symm.trans hp))
        exact .head ((if_neg hne).trans hab) ih
  | reap p r hzombie =>
    intro q hq
    have hqr : q ≠ r := by
      rintro rfl
      simp [View.set, Life.Born] at hq
    have hold := hr q (by simpa [View.set, hqr] using hq)
    clear hq
    induction hold using ReflTransGen.head_induction_on with
    | refl => exact .refl
    | @head a b hab _ ih =>
      -- a parent is alive
      have hbr : b ≠ r := by
        rintro rfl
        exact absurd (h.parentAlive a b hab).1 (by simp [hzombie])
      exact .head (by simpa [Parent, View.set, hqr] using hab) (ih hbr)
  | alloc np => exact hr.set np _ rfl (by simp [Life.Born])
  | stack np => exact hr.set np _ rfl (by simp [Life.Born, *])
  | noStack np => exact hr.set np _ rfl (by simp [Life.Born])
  | dir np => exact hr.set np _ rfl (by simp [Life.Born, *])
  | noDir np => exact hr.set np _ rfl (by simp [Life.Born])
  | parent p np halive hembryo hstage =>
    have hnone := h.youngParent np hembryo (by simp [hstage])
    have hmono (a b : Slot) (hab : Parent v.life a b) : Parent (update v.life np
        { v.life np with parent := some p, stage := .ready }) a b := by
      have hne : a ≠ np := by
        rintro rfl
        cases hnone.symm.trans hab
      unfold Parent
      rwa [update_of_ne hne]
    intro q hq
    by_cases hqp : q = np
    · have hp : Parent (update v.life np
          { v.life np with parent := some p, stage := .ready }) q p := by
        simp [hqp, Parent]
      exact .head hp (ReflTransGen.mono hmono _ _ (hr p (.inl halive)))
    · exact ReflTransGen.mono hmono _ _ (hr q (by simpa [View.set, hqp] using hq))
  | done np hembryo hstage => exact hr.set np _ rfl fun _ => .inr (.inr ⟨hembryo, hstage⟩)

namespace System

/-- In every run the parents of every process lead to init, and a zombie has a parent that
is alive. -/
theorem parents_lead_to_init {n : Nat} {tr : List Event} {s : System} (h : Run (boot n) tr s)
    (q : Slot) (hq : (s.k.table q).state ≠ .UNUSED ∧ (s.k.table q).state ≠ .EMBRYO) :
    ReflTransGen (fun a b => (s.k.table a).parent = some b) q s.k.initproc ∧
    ((s.k.table q).state = .ZOMBIE →
      ∃ p, (s.k.table q).parent = some p ∧ (s.k.table p).state.phase = .alive) := by
  obtain ⟨hI, hr⟩ := h.induct (fun _ s => Rooted s.k.initproc s.view.life) (by
    intro q hq
    have hlife := boot_life n q
    split at hlife
    · next hinit => exact hinit ▸ .refl
    · simp [Life.Born, hlife] at hq) fun tr s a s' hI hr hstep => by
      rw [(step_kernel hstep).initproc]
      exact (step_effect hI.kernel hstep).rooted hI.view hr
  have hborn : (s.view.life q).Born := by
    unfold Life.Born
    rw [phase_eq]
    revert hq
    cases (s.k.table q).state <;> simp [ProcState.phase]
  refine ⟨hr q hborn, fun hzombie => ?_⟩
  rcases (hr q hborn).cases_head with rfl | ⟨p, hp, -⟩
  · exact absurd hI.view.initAlive (by rw [phase_eq, hzombie]; decide)
  · exact ⟨p, hp, (hI.view.parentAlive q p hp).1⟩

/-- The child of init that has called `exit`. -/
theorem parents_dead3 : ∃ p, (dead3.k.table ⟨1, by decide⟩).parent = some p ∧
    (dead3.k.table p).state.phase = .alive :=
  (parents_lead_to_init run_dead3 ⟨1, by decide⟩ (by decide +kernel)).2 (by decide +kernel)

end System

end Xv6.Sched

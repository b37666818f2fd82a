import Mathlib.Data.Finset.Basic
import Xv6.Lib.Transition

/-!
Programs that take spin locks and touch memory that may fault. A command is
what is left of a program when only its lock operations and its accesses are
kept: data is replaced by choice. An access to a cell that is not mapped runs
the fault handler on the spot, with the locks held there, and is then tried
again.

A command that keeps its locks by the rules of `Keeps` cannot go wrong: it
takes no lock it holds, releases none it does not hold, and gives up the
processor with one lock only.
-/

namespace Xv6.Lib

open Relation

variable {L C : Type*}

inductive Cmd (L C : Type*) where
  | skip
  | acquire (l : L)
  | release (l : L)
  /-- give up the processor, holding exactly `l` -/
  | sched (l : L)
  | access (c : C)
  | map (c : C)
  | seq (a b : Cmd L C)
  | alt (a b : Cmd L C)
  /-- any choice of a number -/
  | any (f : Nat → Cmd L C)
  /-- any number of times -/
  | loop (a : Cmd L C)

namespace Cmd

def block : List (Cmd L C) → Cmd L C
  | [] => skip
  | a :: rest => seq a (block rest)

def crit (l : L) : Cmd L C := seq (acquire l) (release l)

/-- Some run of the command touches mapped cells only and maps none: the one
that leaves every loop, and takes the left branch and the least choice. -/
def Direct (M : Set C) : Cmd L C → Prop
  | .access c => c ∈ M
  | .map _ => False
  | .seq a b => a.Direct M ∧ b.Direct M
  | .alt a _ => a.Direct M
  | .any f => (f 0).Direct M
  | _ => True

theorem Direct.block_of_forall {M : Set C} {l : List (Cmd L C)} (h : ∀ a ∈ l, a.Direct M) :
    (block l).Direct M := by
  induction l with
  | nil => trivial
  | cons a rest ih =>
    exact ⟨h a List.mem_cons_self, ih fun b hb => h b (List.mem_cons_of_mem a hb)⟩

end Cmd

/-- The locks held, the mapped cells and what is left to do. -/
structure LockState (L C : Type*) where
  held : Finset L
  mapped : Set C
  todo : List (Cmd L C)

variable [DecidableEq L]

namespace LockState

inductive Step (handler : C → Cmd L C) : LockState L C → LockState L C → Prop where
  | skip (H M k) : Step handler ⟨H, M, .skip :: k⟩ ⟨H, M, k⟩
  | acquire (H M k l) (hl : l ∉ H) : Step handler ⟨H, M, .acquire l :: k⟩ ⟨insert l H, M, k⟩
  | release (H M k l) (hl : l ∈ H) : Step handler ⟨H, M, .release l :: k⟩ ⟨H.erase l, M, k⟩
  | sched (H M k l) (hl : H = {l}) : Step handler ⟨H, M, .sched l :: k⟩ ⟨H, M, k⟩
  | hit (H M k c) (hc : c ∈ M) : Step handler ⟨H, M, .access c :: k⟩ ⟨H, M, k⟩
  | fault (H M k c) (hc : c ∉ M) :
      Step handler ⟨H, M, .access c :: k⟩ ⟨H, M, handler c :: .access c :: k⟩
  | map (H M k c) : Step handler ⟨H, M, .map c :: k⟩ ⟨H, insert c M, k⟩
  | seq (H M k a b) : Step handler ⟨H, M, .seq a b :: k⟩ ⟨H, M, a :: b :: k⟩
  | left (H M k a b) : Step handler ⟨H, M, .alt a b :: k⟩ ⟨H, M, a :: k⟩
  | right (H M k a b) : Step handler ⟨H, M, .alt a b :: k⟩ ⟨H, M, b :: k⟩
  | any (H M k f n) : Step handler ⟨H, M, .any f :: k⟩ ⟨H, M, f n :: k⟩
  | done (H M k a) : Step handler ⟨H, M, .loop a :: k⟩ ⟨H, M, k⟩
  | again (H M k a) : Step handler ⟨H, M, .loop a :: k⟩ ⟨H, M, a :: .loop a :: k⟩

def Fails (s : LockState L C) : Prop :=
  match s.todo with
  | .acquire l :: _ => l ∈ s.held
  | .release l :: _ => l ∉ s.held
  | .sched l :: _ => s.held ≠ {l}
  | _ => False

/-- No run from the state comes to a panic. -/
def Safe (handler : C → Cmd L C) (s : LockState L C) : Prop :=
  ∀ t, ReflTransGen (Step handler) s t → ¬ t.Fails

end LockState

open LockState

/-- `Keeps F M H a H'`: with the locks `H`, where the cells of `M` are mapped
and the fault handler takes only locks of `F`, the command `a` does nothing
wrong and ends with the locks `H'`. -/
inductive Keeps (F : Finset L) (M : Set C) : Finset L → Cmd L C → Finset L → Prop where
  | skip (H) : Keeps F M H .skip H
  | acquire (H l) (hl : l ∉ H) : Keeps F M H (.acquire l) (insert l H)
  | release (H l) (hl : l ∈ H) : Keeps F M H (.release l) (H.erase l)
  | sched (H l) (hl : H = {l}) : Keeps F M H (.sched l) H
  | access (H c) (h : c ∈ M ∨ Disjoint H F) : Keeps F M H (.access c) H
  | map (H c) : Keeps F M H (.map c) H
  | seq {H H1 H' a b} (ha : Keeps F M H a H1) (hb : Keeps F M H1 b H') : Keeps F M H (.seq a b) H'
  | alt {H H' a b} (ha : Keeps F M H a H') (hb : Keeps F M H b H') : Keeps F M H (.alt a b) H'
  | any {H H' f} (h : ∀ n, Keeps F M H (f n) H') : Keeps F M H (.any f) H'
  | loop {H a} (h : Keeps F M H a H) : Keeps F M H (.loop a) H

namespace Keeps

variable {F : Finset L} {M M' : Set C} {H H' H1 : Finset L} {a b : Cmd L C}

theorem crit {l : L} (hl : l ∉ H) : Keeps F M H (.crit l) H := by
  have h := seq (acquire (F := F) (M := M) H l hl) (release _ l (Finset.mem_insert_self l H))
  rwa [Finset.erase_insert hl] at h

theorem nil : Keeps F M H (.block []) H := skip H

theorem cons {rest : List (Cmd L C)} (ha : Keeps F M H a H1)
    (hrest : Keeps F M H1 (.block rest) H') : Keeps F M H (.block (a :: rest)) H' :=
  seq ha hrest

/-- A sequence of commands that all leave the locks as they are. -/
theorem block_of_forall {l : List (Cmd L C)} (h : ∀ a ∈ l, Keeps F M H a H) :
    Keeps F M H (.block l) H := by
  induction l with
  | nil => exact skip H
  | cons a rest ih =>
    exact seq (h a List.mem_cons_self) (ih fun b hb => h b (List.mem_cons_of_mem a hb))

theorem alt_skip (ha : Keeps F M H a H) : Keeps F M H (.alt .skip a) H := alt (skip H) ha

end Keeps

inductive KeepsAll (F : Finset L) (M : Set C) : Finset L → List (Cmd L C) → Prop where
  | nil (H) : KeepsAll F M H []
  | cons {H H' a k} (ha : Keeps F M H a H') (hk : KeepsAll F M H' k) : KeepsAll F M H (a :: k)

theorem KeepsAll.head {F : Finset L} {M : Set C} {H : Finset L} {a : Cmd L C} {k : List (Cmd L C)}
    (h : KeepsAll F M H (a :: k)) : ∃ H', Keeps F M H a H' ∧ KeepsAll F M H' k := by
  cases h with
  | cons ha hk => exact ⟨_, ha, hk⟩

section

variable {F : Finset L} {M : Set C} {handler : C → Cmd L C}

/-- Mapped cells stay mapped, and what is left keeps its locks. -/
def LockState.Ok (F : Finset L) (M : Set C) (s : LockState L C) : Prop :=
  M ⊆ s.mapped ∧ KeepsAll F M s.held s.todo

theorem LockState.Ok.step (hF : ∀ H c, Disjoint H F → Keeps F M H (handler c) H)
    {s t : LockState L C} (h : s.Ok F M) (hstep : Step handler s t) : t.Ok F M := by
  obtain ⟨hM, hall⟩ := h
  cases hstep
  all_goals obtain ⟨H', ha, hk⟩ := hall.head
  case fault c hc =>
    cases ha with
    | access _ _ h =>
      have hdisjoint := h.resolve_left fun hin => hc (hM hin)
      exact ⟨hM, .cons (hF _ c hdisjoint) (.cons (.access _ c h) hk)⟩
  case map c =>
    cases ha
    exact ⟨hM.trans (Set.subset_insert c _), hk⟩
  case seq =>
    cases ha with
    | seq ha hb => exact ⟨hM, .cons ha (.cons hb hk)⟩
  case left =>
    cases ha with
    | alt ha _ => exact ⟨hM, .cons ha hk⟩
  case right =>
    cases ha with
    | alt _ hb => exact ⟨hM, .cons hb hk⟩
  case any n =>
    cases ha with
    | any h => exact ⟨hM, .cons (h n) hk⟩
  case again =>
    cases ha with
    | loop h => exact ⟨hM, .cons h (.cons (.loop h) hk)⟩
  all_goals
    cases ha
    exact ⟨hM, hk⟩

theorem LockState.Ok.not_fails {s : LockState L C} (h : s.Ok F M) : ¬ s.Fails := by
  obtain ⟨H, M', todo⟩ := s
  obtain ⟨_, hall⟩ := h
  cases hall with
  | nil => exact id
  | cons ha _ =>
    cases ha with
    | acquire _ _ hl => exact hl
    | release _ _ hl => exact not_not_intro hl
    | sched _ _ hl => exact not_not_intro hl
    | _ => exact id

/-- A command that keeps its locks by the rules never panics. -/
theorem Keeps.safe (hF : ∀ H c, Disjoint H F → Keeps F M H (handler c) H) {H H' : Finset L}
    {a : Cmd L C} (h : Keeps F M H a H') : Safe handler ⟨H, M, [a]⟩ := by
  intro t hrun
  have hok := invariant_of_run (Ok F M) hrun ⟨subset_rfl, .cons h (.nil H')⟩
    fun _ _ hs hstep => hs.step hF hstep
  exact hok.not_fails

end

section

variable {handler : C → Cmd L C} {F : Finset L} {H H' : Finset L} {M : Set C}
  {k : List (Cmd L C)}

theorem Keeps.run {a : Cmd L C} (h : Keeps F M H a H') (hdirect : a.Direct M) :
    ReflTransGen (Step handler) ⟨H, M, a :: k⟩ ⟨H', M, k⟩ := by
  induction h generalizing k with
  | skip H => exact .single (.skip H M k)
  | acquire H l hl => exact .single (.acquire H M k l hl)
  | release H l hl => exact .single (.release H M k l hl)
  | sched H l hl => exact .single (.sched H M k l hl)
  | access H c _ => exact .single (.hit H M k c hdirect)
  | map H c => exact hdirect.elim
  | seq _ _ iha ihb => exact .head (.seq _ M k _ _) ((iha hdirect.1).trans (ihb hdirect.2))
  | alt _ _ iha _ => exact .head (.left _ M k _ _) (iha hdirect)
  | any _ ih => exact .head (.any _ M k _ 0) (ih 0 hdirect)
  | loop _ _ => exact .single (.done _ M k _)

/-- Some run from the state comes to a panic. -/
def LockState.Doomed (handler : C → Cmd L C) (s : LockState L C) : Prop :=
  ∃ t, ReflTransGen (Step handler) s t ∧ t.Fails

theorem LockState.Doomed.not_safe {s : LockState L C} (h : s.Doomed handler) :
    ¬ Safe handler s := by
  obtain ⟨t, hrun, hfails⟩ := h
  exact fun hsafe => hsafe t hrun hfails

theorem LockState.Doomed.of_run {s t : LockState L C} (hrun : ReflTransGen (Step handler) s t)
    (h : t.Doomed handler) : s.Doomed handler := by
  obtain ⟨u, htail, hfails⟩ := h
  exact ⟨u, hrun.trans htail, hfails⟩

theorem LockState.Doomed.of_step {s t : LockState L C} (hstep : Step handler s t)
    (h : t.Doomed handler) : s.Doomed handler :=
  .of_run (.single hstep) h

theorem LockState.doomed_acquire {l : L} (hl : l ∈ H) :
    Doomed handler ⟨H, M, .acquire l :: k⟩ := ⟨_, .refl, hl⟩

end

end Xv6.Lib

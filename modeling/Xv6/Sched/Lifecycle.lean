import Xv6.Lib.Ledger
import Xv6.Sched.Table

/-!
The life of a process, apart from scheduling. A slot is free, is being filled
by `fork`, holds a process that is alive, or holds one that has exited and was
not waited for. What `fork`, `exec`, `exit` and `wait` do to a slot, to its
kernel stack and page directory and to the parent pointers is one relation on
this view of the table; the machine of processors and threads refines it.

The pages a slot owns are an account, and every step keeps the total of all
accounts, so that no page ever has two owners.
-/

namespace Xv6.Sched

open Function Multiset

/-- A process state up to what the scheduler does with it. -/
inductive Phase where
  | free
  | embryo
  | alive
  | zombie
  deriving DecidableEq, Repr

def ProcState.phase : ProcState → Phase
  | .UNUSED => .free
  | .EMBRYO => .embryo
  | .ZOMBIE => .zombie
  | _ => .alive

/-- How far `fork` has got with the slot it fills. -/
inductive ForkStage where
  /-- the slot is taken -/
  | proc
  /-- it has a kernel stack -/
  | stack
  /-- it has a page directory -/
  | copied
  /-- it has a parent -/
  | ready
  deriving DecidableEq, Repr

inductive Death where
  /-- `sys_exit` with the argument of the user's call -/
  | call (status : BitVec 32)
  /-- `trap` found it killed at a system call -/
  | killed
  /-- `trap` found it killed in user mode at trap `trapno` -/
  | trap (trapno : Nat)
  deriving DecidableEq, Repr

def Death.status : Death → BitVec 32
  | .call status => status <<< 8
  | .killed => 0
  | .trap trapno => BitVec.ofNat 32 trapno + 1

/-- What processes see of each other. Processes are named by their pid. -/
inductive Event where
  | fork (parent child : Int)
  | exit (pid : Int) (death : Death)
  /-- the process is a zombie and its children belong to init -/
  | dead (pid : Int)
  /-- `wait` returned `child` and stored `status` -/
  | reaped (parent child status : Int)
  /-- `wait` returned -1 -/
  | failed (pid : Int)
  deriving DecidableEq, Repr

/-- The fields of a slot that only `fork`, `exit` and `wait` change. -/
structure Core where
  phase : Phase
  pid : Int
  parent : Option Slot
  exitStatus : Int
  deriving DecidableEq, Repr

/-- A slot whose parent is `cur` passes to `init`. -/
def Core.adopted (c : Core) (cur init : Slot) : Core :=
  { c with parent := if c.parent = some cur then some init else c.parent }

variable {p q init : Slot}

theorem Core.adopted_adopted (c : Core) {cur : Slot} (hne : cur ≠ init) :
    (c.adopted cur init).adopted cur init = c.adopted cur init := by
  unfold Core.adopted
  by_cases hc : c.parent = some cur
  · simp [hc, hne.symm]
  · simp [hc]

def Proc.core (p : Proc) : Core := ⟨p.state.phase, p.pid, p.parent, p.exitStatus⟩

theorem Proc.core_phase (p : Proc) : p.core.phase = p.state.phase := rfl

theorem Proc.core_parent (p : Proc) : p.core.parent = p.parent := rfl

/-- A slot with the progress of the calls that concern it. -/
structure Life extends Core where
  /-- its thread is inside `exit` -/
  exiting : Bool
  stage : ForkStage
  deriving DecidableEq, Repr

def Life.hasStack (l : Life) : Bool :=
  match l.phase with
  | .free => false
  | .embryo => decide (l.stage ≠ .proc)
  | _ => true

/-- The slot's page directory is its own; `wait` leaves a stale pointer. -/
def Life.hasDir (l : Life) : Bool :=
  match l.phase with
  | .free => false
  | .embryo => decide (l.stage = .copied ∨ l.stage = .ready)
  | _ => true

/-- Pages: the pointers in the slots, the free list, and the pages in other
use. -/
structure Frames where
  kstack : Slot → Option Nat
  pgdir : Slot → Option Nat
  free : List Nat
  held : List Nat

namespace Frames

/-- `wait`: `kfree(p->kstack); p->kstack = 0; freevm(p->pgdir)`. -/
def reap (m : Frames) (q : Slot) : Frames :=
  { m with
    kstack := update m.kstack q none
    free := (m.pgdir q).toList ++ (m.kstack q).toList ++ m.free }

/-- `allocproc` without memory: `p->kstack = 0`. -/
def noStack (m : Frames) (q : Slot) : Frames :=
  { m with kstack := update m.kstack q none }

def setStack (m : Frames) (q : Slot) (f : Nat) (rest : List Nat) : Frames :=
  { m with kstack := update m.kstack q (some f), free := rest }

def setDir (m : Frames) (q : Slot) (f : Nat) (rest : List Nat) : Frames :=
  { m with pgdir := update m.pgdir q (some f), free := rest }

/-- `fork` without memory: `np->pgdir = 0; kfree(np->kstack); np->kstack = 0`. -/
def noDir (m : Frames) (q : Slot) : Frames :=
  { m with
    pgdir := update m.pgdir q none
    kstack := update m.kstack q none
    free := (m.kstack q).toList ++ m.free }

/-- `exec` installs the directory it built and frees the old one. -/
def exec (m : Frames) (p : Slot) (f : Nat) : Frames :=
  { m with
    pgdir := update m.pgdir p (some f)
    held := m.held.erase f
    free := (m.pgdir p).toList ++ m.free }

end Frames

structure View where
  life : Slot → Life
  nextpid : Int
  mem : Frames

namespace View

def set (v : View) (q : Slot) (l : Life) : View := { v with life := update v.life q l }

/-- `exit`: `p` becomes a zombie and its children become those of `init`. -/
def exit (v : View) (init p : Slot) : View :=
  { v with life := fun q =>
      { v.life q with
        phase := if q = p then .zombie else (v.life q).phase
        parent := if (v.life q).parent = some p then some init else (v.life q).parent } }

/-- One step of a process's life, with what the processes see of it. -/
inductive Effect (init : Slot) : View → List Event → View → Prop where
  | quiet (v : View) : Effect init v [] v
  | failed (v : View) (pid : Int) : Effect init v [.failed pid] v
  | exitBegin (v : View) (p : Slot) (d : Death) (halive : (v.life p).phase = .alive)
      (hfirst : (v.life p).exiting = false) :
      Effect init v [.exit (v.life p).pid d]
        (v.set p { v.life p with exitStatus := d.status.toInt, exiting := true })
  | exitEnd (v : View) (p : Slot) (halive : (v.life p).phase = .alive)
      (hexiting : (v.life p).exiting = true) (hinit : p ≠ init) :
      Effect init v [.dead (v.life p).pid] (v.exit init p)
  | reap (v : View) (p q : Slot) (hzombie : (v.life q).phase = .zombie)
      (hparent : (v.life q).parent = some p) :
      Effect init v [.reaped (v.life p).pid (v.life q).pid (v.life q).exitStatus]
        { v.set q { v.life q with phase := .free, pid := 0, parent := none } with
          mem := v.mem.reap q }
  | alloc (v : View) (np : Slot) (hfree : (v.life np).phase = .free) :
      Effect init v []
        { v.set np { v.life np with
            phase := .embryo, pid := v.nextpid, exiting := false, stage := .proc } with
          nextpid := v.nextpid + 1 }
  | stack (v : View) (np : Slot) (f : Nat) (rest : List Nat)
      (hembryo : (v.life np).phase = .embryo) (hstage : (v.life np).stage = .proc)
      (hf : v.mem.free = f :: rest) :
      Effect init v []
        { v.set np { v.life np with stage := .stack } with mem := v.mem.setStack np f rest }
  | noStack (v : View) (np : Slot) (hembryo : (v.life np).phase = .embryo)
      (hstage : (v.life np).stage = .proc) :
      Effect init v []
        { v.set np { v.life np with phase := .free } with mem := v.mem.noStack np }
  | dir (v : View) (np : Slot) (f : Nat) (rest : List Nat)
      (hembryo : (v.life np).phase = .embryo) (hstage : (v.life np).stage = .stack)
      (hf : v.mem.free = f :: rest) :
      Effect init v []
        { v.set np { v.life np with stage := .copied } with mem := v.mem.setDir np f rest }
  | noDir (v : View) (np : Slot) (hembryo : (v.life np).phase = .embryo)
      (hstage : (v.life np).stage = .stack) :
      Effect init v []
        { v.set np { v.life np with phase := .free } with mem := v.mem.noDir np }
  | parent (v : View) (p np : Slot) (halive : (v.life p).phase = .alive)
      (hembryo : (v.life np).phase = .embryo) (hstage : (v.life np).stage = .copied) :
      Effect init v [.fork (v.life p).pid (v.life np).pid]
        (v.set np { v.life np with parent := some p, stage := .ready })
  | done (v : View) (np : Slot) (hembryo : (v.life np).phase = .embryo)
      (hstage : (v.life np).stage = .ready) :
      Effect init v [] (v.set np { v.life np with phase := .alive })
  | exec (v : View) (p : Slot) (f : Nat) (halive : (v.life p).phase = .alive)
      (hf : f ∈ v.mem.held) : Effect init v [] { v with mem := v.mem.exec p f }
  | kalloc (v : View) (f : Nat) (rest : List Nat) (hf : v.mem.free = f :: rest) :
      Effect init v [] { v with mem := { v.mem with free := rest, held := f :: v.mem.held } }
  | kfree (v : View) (f : Nat) (hf : f ∈ v.mem.held) :
      Effect init v []
        { v with mem := { v.mem with free := f :: v.mem.free, held := v.mem.held.erase f } }

structure Inv (init : Slot) (v : View) : Prop where
  initAlive : (v.life init).phase = .alive
  initPid : (v.life init).pid = 1
  initParent : (v.life init).parent = none
  freeParent : ∀ q, (v.life q).phase = .free → (v.life q).parent = none
  youngParent : ∀ q, (v.life q).phase = .embryo → (v.life q).stage ≠ .ready →
    (v.life q).parent = none
  parentAlive : ∀ q r, (v.life q).parent = some r → (v.life r).phase = .alive ∧ r ≠ q
  pidLt : ∀ q, (v.life q).pid < v.nextpid
  pidPos : ∀ q, (v.life q).phase ≠ .free → 0 < (v.life q).pid
  pidOnce : ∀ q r, (v.life q).pid = (v.life r).pid → (v.life q).pid = 0 ∨ q = r

theorem Inv.pidInj {v : View} (h : Inv init v) (q r : Slot)
    (hq : (v.life q).phase ≠ .free) (heq : (v.life q).pid = (v.life r).pid) : q = r := by
  refine (h.pidOnce q r heq).resolve_left fun hzero => ?_
  have hpos := h.pidPos q hq
  rw [hzero] at hpos
  exact lt_irrefl _ hpos

theorem Inv.nextpid_pos {v : View} (h : Inv init v) : 0 < v.nextpid :=
  lt_trans (h.pidPos init (by simp [h.initAlive])) (h.pidLt init)

theorem set_life (v : View) (p q : Slot) (l : Life) :
    (v.set p l).life q = if q = p then l else v.life q := by
  by_cases hq : q = p
  · subst hq
    simp [set]
  · simp [set, hq]

/-- A change of one slot. A pid is kept or new, a parent is kept, dropped or
alive, and what is alive stays alive. -/
theorem Inv.set {v : View} (h : Inv init v) {l : Life} {m : Frames} {n : Int} (hn : v.nextpid ≤ n)
    (hinit : p = init → l.phase = .alive ∧ l.pid = (v.life p).pid ∧ l.parent = (v.life p).parent)
    (hparent : ∀ r, l.parent = some r →
      (v.life p).parent = some r ∨ (v.life r).phase = .alive ∧ r ≠ p)
    (hchild : (v.life p).phase = .alive → l.phase = .alive)
    (hpid : l.pid = (v.life p).pid ∧ (l.phase ≠ .free → (v.life p).phase ≠ .free) ∨
      l.pid = v.nextpid ∧ v.nextpid < n ∨ l.pid = 0 ∧ l.phase = .free)
    (hnone : l.phase = .free ∨ l.phase = .embryo ∧ l.stage ≠ .ready → l.parent = none) :
    Inv init { v.set p l with mem := m, nextpid := n } where
  initAlive := by
    simp only [set_life]
    split
    · next heq => exact (hinit heq.symm).1
    · exact h.initAlive
  initPid := by
    simp only [set_life]
    split
    · next heq =>
      rw [(hinit heq.symm).2.1, ← heq]
      exact h.initPid
    · exact h.initPid
  initParent := by
    simp only [set_life]
    split
    · next heq =>
      rw [(hinit heq.symm).2.2, ← heq]
      exact h.initParent
    · exact h.initParent
  freeParent q := by
    simp only [set_life]
    split
    · exact fun hfree => hnone (Or.inl hfree)
    · exact h.freeParent q
  youngParent q := by
    simp only [set_life]
    split
    · exact fun hembryo hstage => hnone (Or.inr ⟨hembryo, hstage⟩)
    · exact h.youngParent q
  parentAlive q r := by
    intro hq
    have hold : (v.life r).phase = .alive ∧ r ≠ q := by
      simp only [set_life] at hq
      split at hq
      · next heq =>
        subst heq
        rcases hparent r hq with hsame | hnew
        · exact h.parentAlive q r hsame
        · exact hnew
      · exact h.parentAlive q r hq
    refine ⟨?_, hold.2⟩
    simp only [set_life]
    split
    · next heq =>
      subst heq
      exact hchild hold.1
    · exact hold.1
  pidLt q := by
    simp only [set_life]
    split
    · rcases hpid with ⟨hsame, _⟩ | ⟨hnew, hlt⟩ | ⟨hzero, _⟩
      · rw [hsame]
        exact lt_of_lt_of_le (h.pidLt p) hn
      · rw [hnew]
        exact hlt
      · rw [hzero]
        exact lt_of_lt_of_le h.nextpid_pos hn
    · exact lt_of_lt_of_le (h.pidLt q) hn
  pidPos q := by
    simp only [set_life]
    split
    · intro hbusy
      rcases hpid with ⟨hsame, hold⟩ | ⟨hnew, _⟩ | ⟨_, hfree⟩
      · rw [hsame]
        exact h.pidPos p (hold hbusy)
      · rw [hnew]
        exact h.nextpid_pos
      · exact absurd hfree hbusy
    · exact h.pidPos q
  pidOnce q r := by
    -- the slot `p` clashes with no other one
    have hother (x : Slot) (hx : x ≠ p) (heq : l.pid = (v.life x).pid) : l.pid = 0 := by
      rcases hpid with ⟨hsame, _⟩ | ⟨hnew, _⟩ | ⟨hzero, _⟩
      · rcases h.pidOnce x p (heq.symm.trans hsame) with hzero | hxp
        · exact heq.trans hzero
        · exact absurd hxp hx
      · have hlt := h.pidLt x
        rw [← heq, hnew] at hlt
        exact absurd hlt (lt_irrefl _)
      · exact hzero
    simp only [set_life]
    by_cases hq : q = p <;> by_cases hr : r = p
    · exact fun _ => .inr (hq.trans hr.symm)
    · rw [if_pos hq, if_neg hr]
      exact fun heq => .inl (hother r hr heq)
    · rw [if_neg hq, if_pos hr]
      exact fun heq => .inl (heq.trans (hother q hq heq.symm))
    · rw [if_neg hq, if_neg hr]
      exact h.pidOnce q r

theorem Inv.mem {v : View} (h : Inv init v) (m : Frames) : Inv init { v with mem := m } :=
  ⟨h.initAlive, h.initPid, h.initParent, h.freeParent, h.youngParent, h.parentAlive, h.pidLt,
    h.pidPos, h.pidOnce⟩

theorem Inv.exit {v : View} (h : Inv init v)
    (halive : (v.life p).phase = .alive) (hne : p ≠ init) : Inv init (v.exit init p) := by
  have hphase (q : Slot) (x : Phase) (hx : x ≠ .zombie)
      (hq : (if q = p then Phase.zombie else (v.life q).phase) = x) :
      q ≠ p ∧ (v.life q).phase = x := by
    by_cases heq : q = p
    · rw [if_pos heq] at hq
      exact absurd hq.symm hx
    · rw [if_neg heq] at hq
      exact ⟨heq, hq⟩
  have hkept (q : Slot) (hq : (v.life q).parent = none) :
      (if (v.life q).parent = some p then some init else (v.life q).parent) = none := by
    rw [hq]
    rfl
  have hbusy (q : Slot) (hq : (if q = p then Phase.zombie else (v.life q).phase) ≠ .free) :
      (v.life q).phase ≠ .free := by
    split at hq
    · next heq =>
      rw [heq, halive]
      exact nofun
    · exact hq
  have hinit : (if init = p then Phase.zombie else (v.life init).phase) = .alive := by
    rw [if_neg hne.symm]
    exact h.initAlive
  exact {
    initAlive := hinit
    initPid := h.initPid
    initParent := hkept init h.initParent
    freeParent := fun q hq => hkept q (h.freeParent q (hphase q .free nofun hq).2)
    youngParent := fun q hq hstage =>
      hkept q (h.youngParent q (hphase q .embryo nofun hq).2 hstage)
    parentAlive := by
      intro q r hq
      simp only [View.exit] at hq
      split at hq
      · next hchild =>
        cases hq
        refine ⟨hinit, ?_⟩
        rintro rfl
        rw [h.initParent] at hchild
        cases hchild
      · next hother =>
        obtain ⟨hr, hrq⟩ := h.parentAlive q r hq
        refine ⟨?_, hrq⟩
        have hrp : r ≠ p := by
          rintro rfl
          exact hother hq
        simp only [View.exit, if_neg hrp]
        exact hr
    pidLt := h.pidLt
    pidPos := fun q hq => h.pidPos q (hbusy q hq)
    pidOnce := h.pidOnce }

theorem Effect.inv {v v' : View} {ev : List Event} (he : Effect init v ev v')
    (h : Inv init v) : Inv init v' := by
  have hne (q : Slot) (x : Phase) (hq : (v.life q).phase = x) (hx : x ≠ .alive) : q ≠ init := by
    rintro rfl
    rw [h.initAlive] at hq
    exact hx hq.symm
  cases he with
  | quiet => exact h
  | failed => exact h
  | exitBegin p d halive hfirst =>
    refine h.set le_rfl (fun _ => ⟨halive, rfl, rfl⟩) (fun r hr => .inl hr) (fun _ => halive)
      (Or.inl ⟨rfl, id⟩) ?_
    simp [halive]
  | exitEnd p halive _ hinit => exact h.exit halive hinit
  | reap p q hzombie hparent =>
    refine h.set le_rfl (fun heq => absurd heq (hne q _ hzombie nofun)) (by simp) ?_
      (Or.inr (Or.inr ⟨rfl, rfl⟩)) (fun _ => rfl)
    simp [hzombie]
  | alloc np hfree =>
    refine h.set (by omega) (fun heq => absurd heq (hne np _ hfree nofun))
      (fun r hr => .inl hr) ?_ (Or.inr (Or.inl ⟨rfl, by omega⟩))
      (fun _ => h.freeParent np hfree)
    simp [hfree]
  | stack np f rest hembryo hstage hf =>
    refine h.set le_rfl (fun heq => absurd heq (hne np _ hembryo nofun))
      (fun r hr => .inl hr) ?_ (Or.inl ⟨rfl, id⟩)
      (fun _ => h.youngParent np hembryo (by simp [hstage]))
    simp [hembryo]
  | noStack np hembryo hstage =>
    refine h.set le_rfl (fun heq => absurd heq (hne np _ hembryo nofun))
      (fun r hr => .inl hr) ?_ (Or.inl ⟨rfl, by simp⟩)
      (fun _ => h.youngParent np hembryo (by simp [hstage]))
    simp [hembryo]
  | dir np f rest hembryo hstage hf =>
    refine h.set le_rfl (fun heq => absurd heq (hne np _ hembryo nofun))
      (fun r hr => .inl hr) ?_ (Or.inl ⟨rfl, id⟩)
      (fun _ => h.youngParent np hembryo (by simp [hstage]))
    simp [hembryo]
  | noDir np hembryo hstage =>
    refine h.set le_rfl (fun heq => absurd heq (hne np _ hembryo nofun))
      (fun r hr => .inl hr) ?_ (Or.inl ⟨rfl, by simp⟩)
      (fun _ => h.youngParent np hembryo (by simp [hstage]))
    simp [hembryo]
  | parent p np halive hembryo hstage =>
    refine h.set le_rfl (fun heq => absurd heq (hne np _ hembryo nofun)) ?_ ?_
      (Or.inl ⟨rfl, id⟩) (by simp [hembryo])
    · rintro r hr
      cases hr
      refine .inr ⟨halive, ?_⟩
      rintro rfl
      rw [hembryo] at halive
      cases halive
    · simp [hembryo]
  | done np hembryo hstage =>
    refine h.set le_rfl (fun heq => absurd heq (hne np _ hembryo nofun))
      (fun r hr => .inl hr) (fun _ => rfl) (Or.inl ⟨rfl, by simp [hembryo]⟩) (by simp)
  | exec p f halive hf => exact h.mem _
  | kalloc f rest hf => exact h.mem _
  | kfree f hf => exact h.mem _

def owned (v : View) (q : Slot) : Multiset Nat :=
  (v.mem.kstack q).toList + if (v.life q).hasDir then ((v.mem.pgdir q).toList : Multiset Nat) else 0

def total (v : View) : Multiset Nat := v.mem.free + v.mem.held + ∑ q, v.owned q

/-- Which pages a slot must have, and that no page is counted twice. -/
structure MemInv (v : View) : Prop where
  stack : ∀ q, (v.mem.kstack q).isSome = (v.life q).hasStack
  dir : ∀ q, (v.life q).hasDir = true → (v.mem.pgdir q).isSome = true
  nodup : v.total.Nodup

theorem total_of_slot {v v' : View} (hslots : ∀ q, q ≠ p → v'.owned q = v.owned q)
    (hmove : (v'.mem.free + v'.mem.held + v'.owned p : Multiset Nat) =
      v.mem.free + v.mem.held + v.owned p) : v'.total = v.total := by
  have hsum := Lib.sum_add_of_eq_off (Finset.mem_univ p) fun q _ hq => hslots q hq
  unfold total
  apply add_right_cancel (b := v.owned p + v'.owned p)
  calc
    _ = (v'.mem.free + v'.mem.held + v'.owned p : Multiset Nat) +
        (∑ q, v'.owned q + v.owned p) := by abel
    _ = (v.mem.free + v.mem.held + v.owned p : Multiset Nat) +
        (∑ q, v.owned q + v'.owned p) := by rw [hmove, hsum]
    _ = _ := by abel

theorem owned_congr {v v' : View} (hstack : v'.mem.kstack q = v.mem.kstack q)
    (hdir : v'.mem.pgdir q = v.mem.pgdir q) (hlife : (v'.life q).hasDir = (v.life q).hasDir) :
    v'.owned q = v.owned q := by
  unfold owned
  rw [hstack, hdir, hlife]

theorem MemInv.same {v : View} (h : MemInv v) {life : Slot → Life} {n : Int}
    (hstack : ∀ q, (life q).hasStack = (v.life q).hasStack)
    (hdir : ∀ q, (life q).hasDir = (v.life q).hasDir) : MemInv ⟨life, n, v.mem⟩ where
  stack q := (h.stack q).trans (hstack q).symm
  dir q hq := h.dir q ((hdir q).symm.trans hq)
  nodup := by
    have howned (q : Slot) : (⟨life, n, v.mem⟩ : View).owned q = v.owned q :=
      owned_congr rfl rfl (hdir q)
    unfold total
    simp only [howned]
    exact h.nodup

theorem MemInv.slot {v v' : View} (h : MemInv v) (hlife : ∀ q, q ≠ p → v'.life q = v.life q)
    (hkstack : ∀ q, q ≠ p → v'.mem.kstack q = v.mem.kstack q)
    (hpgdir : ∀ q, q ≠ p → v'.mem.pgdir q = v.mem.pgdir q)
    (hstack : (v'.mem.kstack p).isSome = (v'.life p).hasStack)
    (hdir : (v'.life p).hasDir = true → (v'.mem.pgdir p).isSome = true)
    (hmove : (v'.mem.free + v'.mem.held + v'.owned p : Multiset Nat) =
      v.mem.free + v.mem.held + v.owned p) : MemInv v' where
  stack q := by
    by_cases hq : q = p
    · rw [hq]
      exact hstack
    · rw [hlife q hq, hkstack q hq]
      exact h.stack q
  dir q := by
    by_cases hq : q = p
    · rw [hq]
      exact hdir
    · rw [hlife q hq, hpgdir q hq]
      exact h.dir q
  nodup := by
    rw [total_of_slot (fun q hq => owned_congr (hkstack q hq) (hpgdir q hq)
      (by rw [hlife q hq])) hmove]
    exact h.nodup

theorem set_of_ne (v : View) (l : Life) (hq : q ≠ p) : (v.set p l).life q = v.life q := by
  rw [set_life, if_neg hq]

theorem set_self (v : View) (p : Slot) (l : Life) : (v.set p l).life p = l := by
  rw [set_life, if_pos rfl]

theorem coe_erase_add {f : Nat} {l : List Nat} (hf : f ∈ l) :
    (l : Multiset Nat) = {f} + (l.erase f : Multiset Nat) := by
  rw [← coe_erase, singleton_add, cons_erase hf]

theorem Effect.memInv {v v' : View} {ev : List Event} (he : Effect init v ev v')
    (h : MemInv v) : MemInv v' := by
  -- a slot whose phase and stage have the same pages as before
  have hset (p : Slot) (l : Life) (hstack : l.hasStack = (v.life p).hasStack)
      (hdir : l.hasDir = (v.life p).hasDir) (n : Int) :
      MemInv { v.set p l with nextpid := n } := by
    refine h.same ?_ ?_
    · intro q
      rcases eq_or_ne q p with rfl | hq
      · rw [← hstack]
        exact congrArg _ (v.set_self q l)
      · exact congrArg _ (v.set_of_ne l hq)
    · intro q
      rcases eq_or_ne q p with rfl | hq
      · rw [← hdir]
        exact congrArg _ (v.set_self q l)
      · exact congrArg _ (v.set_of_ne l hq)
  cases he with
  | quiet => exact h
  | failed => exact h
  | exitBegin p d halive hfirst =>
    refine hset p _ ?_ ?_ _ <;> rfl
  | exitEnd p halive hexiting hinit =>
    refine h.same ?_ ?_
    · intro q
      by_cases hq : q = p
      · simp [Life.hasStack, hq, halive]
      · simp [Life.hasStack, hq]
    · intro q
      by_cases hq : q = p
      · simp [Life.hasDir, hq, halive]
      · simp [Life.hasDir, hq]
  | reap p q hzombie hparent =>
    refine h.slot (p := q) (fun r hr => v.set_of_ne _ hr) ?_ (fun _ _ => rfl) ?_ ?_ ?_
    · intro r hr
      simp [Frames.reap, hr]
    · simp [Frames.reap, set_self, Life.hasStack]
    · simp [set_self, Life.hasDir]
    · simp only [owned, Frames.reap, set_self, Life.hasDir, hzombie, update_self,
        Option.toList_none, ← coe_add, coe_nil, if_true, Bool.false_eq_true,
        if_false]
      abel
  | alloc np hfree =>
    refine hset np _ ?_ ?_ _ <;> simp [Life.hasStack, Life.hasDir, hfree]
  | stack np f rest hembryo hstage hf =>
    have hnone : v.mem.kstack np = none := by
      have hold := h.stack np
      simpa [Life.hasStack, hembryo, hstage] using hold
    refine h.slot (p := np) (fun r hr => v.set_of_ne _ hr) ?_ (fun _ _ => rfl) ?_ ?_ ?_
    · intro r hr
      simp [Frames.setStack, hr]
    · simp [Frames.setStack, set_self, Life.hasStack, hembryo]
    · simp [set_self, Life.hasDir, hembryo]
    · simp only [owned, Frames.setStack, set_self, Life.hasDir, hembryo, hstage, hnone, hf,
        update_self, Option.toList_some, Option.toList_none, ← cons_coe,
        ← singleton_add]
      simp only [reduceCtorEq, or_self, decide_false, Bool.false_eq_true, if_false]
      abel
  | noStack np hembryo hstage =>
    have hnone : v.mem.kstack np = none := by
      have hold := h.stack np
      simpa [Life.hasStack, hembryo, hstage] using hold
    refine h.slot (p := np) (fun r hr => v.set_of_ne _ hr) ?_ (fun _ _ => rfl) ?_ ?_ ?_
    · intro r hr
      simp [Frames.noStack, hr]
    · simp [Frames.noStack, set_self, Life.hasStack]
    · simp [set_self, Life.hasDir]
    · simp [owned, Frames.noStack, set_self, Life.hasDir, hembryo, hstage, hnone]
  | dir np f rest hembryo hstage hf =>
    refine h.slot (p := np) (fun r hr => v.set_of_ne _ hr) (fun _ _ => rfl) ?_ ?_ ?_ ?_
    · intro r hr
      simp [Frames.setDir, hr]
    · have hold := h.stack np
      simpa [Frames.setDir, set_self, Life.hasStack, hembryo, hstage] using hold
    · simp [Frames.setDir]
    · simp only [owned, Frames.setDir, set_self, Life.hasDir, hembryo, hstage, hf,
        update_self, Option.toList_some, ← cons_coe, ← singleton_add]
      simp only [reduceCtorEq, or_self, or_false, decide_true, decide_false, Bool.false_eq_true,
        if_true, if_false, coe_nil]
      abel
  | noDir np hembryo hstage =>
    refine h.slot (p := np) (fun r hr => v.set_of_ne _ hr) ?_ ?_ ?_ ?_ ?_
    · intro r hr
      simp [Frames.noDir, hr]
    · intro r hr
      simp [Frames.noDir, hr]
    · simp [Frames.noDir, set_self, Life.hasStack]
    · simp [set_self, Life.hasDir]
    · simp only [owned, Frames.noDir, set_self, Life.hasDir, hembryo, hstage,
        update_self, Option.toList_none, ← coe_add]
      simp only [reduceCtorEq, or_self, decide_false, Bool.false_eq_true, if_false, coe_nil]
      abel
  | parent p np halive hembryo hstage =>
    refine hset np _ ?_ ?_ _ <;> simp [Life.hasStack, Life.hasDir, hembryo, hstage]
  | done np hembryo hstage =>
    refine hset np _ ?_ ?_ _ <;> simp [Life.hasStack, Life.hasDir, hembryo, hstage]
  | exec p f halive hf =>
    refine h.slot (p := p) (fun _ _ => rfl) (fun _ _ => rfl) ?_ (h.stack p) ?_ ?_
    · intro r hr
      simp [Frames.exec, hr]
    · simp [Frames.exec]
    · simp only [owned, Frames.exec, Life.hasDir, halive, coe_erase_add hf, update_self,
        Option.toList_some, if_true, ← coe_add, coe_singleton]
      abel
  | kalloc f rest hf =>
    refine h.slot (p := init) (fun _ _ => rfl) (fun _ _ => rfl) (fun _ _ => rfl)
      (h.stack init) (h.dir init) ?_
    simp only [owned, hf, ← cons_coe, ← singleton_add]
    abel
  | kfree f hf =>
    refine h.slot (p := init) (fun _ _ => rfl) (fun _ _ => rfl) (fun _ _ => rfl)
      (h.stack init) (h.dir init) ?_
    simp only [owned, coe_erase_add hf, ← cons_coe, ← singleton_add]
    abel

def Busy (l : Life) : Prop := l.phase = .alive ∨ l.phase = .zombie

/-- Only `wait` ends the life of a slot, and it frees zombies only. -/
theorem Effect.busy {v v' : View} {ev : List Event} (he : Effect init v ev v')
    (hq : Busy (v.life q)) : Busy (v'.life q) ∨
      (v.life q).phase = .zombie ∧ ∃ w pid status, Event.reaped w pid status ∈ ev := by
  have hset (p : Slot) (l : Life) (hl : q = p → Busy l) : Busy ((v.set p l).life q) := by
    rw [set_life]
    split
    · next heq => exact hl heq
    · exact hq
  have hne (p : Slot) (x : Phase) (hp : (v.life p).phase = x) (hx : x = .free ∨ x = .embryo) :
      q ≠ p := by
    rintro rfl
    rcases hq with halive | hzombie
    · rw [halive] at hp
      rcases hx with rfl | rfl <;> cases hp
    · rw [hzombie] at hp
      rcases hx with rfl | rfl <;> cases hp
  cases he with
  | quiet => exact .inl hq
  | failed => exact .inl hq
  | exitBegin p d halive _ => exact .inl (hset p _ fun _ => .inl halive)
  | exitEnd p halive _ _ =>
    refine .inl ?_
    by_cases hp : q = p
    · exact .inr (if_pos hp)
    · simpa [Busy, exit, hp] using hq
  | reap p r hzombie hparent =>
    rcases eq_or_ne q r with rfl | hr
    · exact .inr ⟨hzombie, _, _, _, List.mem_singleton.mpr rfl⟩
    · refine .inl ?_
      show Busy ((v.set r _).life q)
      rw [set_of_ne v _ hr]
      exact hq
  | alloc np hfree =>
    exact .inl (hset np _ fun heq => absurd heq (hne np _ hfree (Or.inl rfl)))
  | stack np f rest hembryo _ _ =>
    exact .inl (hset np _ fun heq => absurd heq (hne np _ hembryo (Or.inr rfl)))
  | noStack np hembryo _ =>
    exact .inl (hset np _ fun heq => absurd heq (hne np _ hembryo (Or.inr rfl)))
  | dir np f rest hembryo _ _ =>
    exact .inl (hset np _ fun heq => absurd heq (hne np _ hembryo (Or.inr rfl)))
  | noDir np hembryo _ =>
    exact .inl (hset np _ fun heq => absurd heq (hne np _ hembryo (Or.inr rfl)))
  | parent p np _ hembryo _ =>
    exact .inl (hset np _ fun heq => absurd heq (hne np _ hembryo (Or.inr rfl)))
  | done np hembryo _ => exact .inl (hset np _ fun _ => .inl rfl)
  | exec p f _ _ => exact .inl hq
  | kalloc f rest _ => exact .inl hq
  | kfree f _ => exact .inl hq

/-- Every process has a kernel stack and a page directory which no other slot
owns and which are not free. -/
theorem MemInv.pages {v : View} (h : MemInv v) (hp : Busy (v.life p)) :
    ∃ stack dir, v.mem.kstack p = some stack ∧ v.mem.pgdir p = some dir ∧ stack ≠ dir ∧
      ∀ f, f = stack ∨ f = dir → f ∉ v.mem.free ∧ ∀ q, q ≠ p → f ∉ v.owned q := by
  have hstack : (v.life p).hasStack = true := by
    rcases hp with hp | hp <;> simp [Life.hasStack, hp]
  have hdir : (v.life p).hasDir = true := by
    rcases hp with hp | hp <;> simp [Life.hasDir, hp]
  obtain ⟨stack, hs⟩ := Option.isSome_iff_exists.mp ((h.stack p).trans hstack)
  obtain ⟨dir, hd⟩ := Option.isSome_iff_exists.mp (h.dir p hdir)
  have howned : v.owned p = {stack, dir} := by
    simp [owned, hs, hd, hdir]
  have hnodup := h.nodup
  unfold total at hnodup
  obtain ⟨_, hsum, hdisj⟩ := nodup_add.mp hnodup
  have hle : v.owned p ≤ ∑ q, v.owned q :=
    Finset.single_le_sum (fun _ _ => Multiset.zero_le _) (Finset.mem_univ p)
  have hpair : (v.owned p).Nodup := nodup_of_le hle hsum
  refine ⟨stack, dir, hs, hd, ?_, ?_⟩
  · rw [howned] at hpair
    simpa using hpair
  · intro f hf
    have hmem : f ∈ v.owned p := by
      rw [howned]
      simpa using hf
    refine ⟨?_, ?_⟩
    · intro hfree
      exact disjoint_left.mp hdisj (mem_add.mpr (Or.inl hfree))
        (mem_of_le hle hmem)
    · intro q hq hfq
      exact hq (Lib.owner_unique hsum (Finset.mem_univ q) (Finset.mem_univ p) hfq hmem)

end View

end Xv6.Sched

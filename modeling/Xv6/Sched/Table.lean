import Mathlib.Tactic
import Xv6.Param

/-!
The process table of `proc.c` and the functions that `ptable.lock` protects,
as functions on the table. A process slot is an index below `NPROC`; pointers
to processes are slots.
-/

namespace Xv6.Sched

abbrev Slot := Fin NPROC

inductive ProcState where
  | UNUSED
  | EMBRYO
  | SLEEPING
  | RUNNABLE
  | RUNNING
  | ZOMBIE
  deriving DecidableEq, Repr

/-- `enum proc_prio` is an `int` in memory, and `setprio` stores any value. -/
def NORM_PRIO : Nat := 0
def HI_PRIO : Nat := 1

/-- A sleep channel is an address: of a process (`wait`) or of anything else. -/
inductive Chan where
  | proc (p : Slot)
  | other (addr : Nat)
  deriving DecidableEq, Repr

/-- The fields of `struct proc` that scheduling, `exit` and `wait` use. -/
structure Proc where
  state : ProcState
  pid : Int
  parent : Option Slot
  chan : Option Chan
  killed : Bool
  exitStatus : Int
  prio : Nat
  deriving DecidableEq, Repr

abbrev Table := Slot → Proc

/-- The scheduler's test of its first loop. -/
def Proc.HiRunnable (p : Proc) : Prop := p.prio = HI_PRIO ∧ p.state = .RUNNABLE

/-- The scheduler's test of its second loop. -/
def Proc.NormRunnable (p : Proc) : Prop := p.prio = NORM_PRIO ∧ p.state = .RUNNABLE

instance (p : Proc) : Decidable p.HiRunnable := by unfold Proc.HiRunnable; infer_instance
instance (p : Proc) : Decidable p.NormRunnable := by unfold Proc.NormRunnable; infer_instance

def Proc.zero : Proc := ⟨.UNUSED, 0, none, none, false, 0, NORM_PRIO⟩

namespace Table

def set (t : Table) (p : Slot) (f : Proc → Proc) : Table := Function.update t p (f (t p))

/-- The first slot, in table order, that satisfies a test. -/
def first (t : Table) (test : Proc → Bool) : Option Slot :=
  (List.finRange NPROC).find? fun p => test (t p)

def wakeup1 (t : Table) (chan : Chan) : Table := fun p =>
  if (t p).state = .SLEEPING ∧ (t p).chan = some chan then { t p with state := .RUNNABLE } else t p

/-- `kill`: the table, and whether a process was found. -/
def kill (t : Table) (pid : Int) : Table × Bool :=
  match t.first fun q => q.pid == pid with
  | some p =>
    (t.set p fun q => { q with
      killed := true
      state := if q.state = .SLEEPING then .RUNNABLE else q.state }, true)
  | none => (t, false)

def setprio (t : Table) (pid : Int) (prio : Nat) : Table × Bool :=
  match t.first fun q => q.pid == pid with
  | some p => (t.set p fun q => { q with prio := prio }, true)
  | none => (t, false)

/-- The locked part of `allocproc`. -/
def allocproc (t : Table) (nextpid : Int) : Option (Slot × Table) :=
  match t.first fun q => q.state == .UNUSED with
  | some p => some (p, t.set p fun q => { q with state := .EMBRYO, pid := nextpid, prio := NORM_PRIO })
  | none => none

/-- The loop of `exit` that passes abandoned children to init. -/
def reparent (t : Table) (cur init : Slot) : Table :=
  (List.finRange NPROC).foldl (fun t p =>
    if (t p).parent = some cur then
      let t := t.set p fun q => { q with parent := some init }
      if (t p).state = .ZOMBIE then t.wakeup1 (.proc init) else t
    else t) t

/-- The locked part of `exit`, up to `sched`. -/
def exit (t : Table) (cur init : Slot) : Table :=
  let t := match (t cur).parent with
    | some parent => t.wakeup1 (.proc parent)
    | none => t
  let t := t.reparent cur init
  t.set cur fun q => { q with state := .ZOMBIE }

inductive WaitScan where
  | reaped (pid : Int) (status : Int)
  | failed
  | blocked
  deriving DecidableEq, Repr

/-- One turn of the loop in `wait`: the first zombie child is freed. -/
def wait (t : Table) (cur : Slot) : Table × WaitScan :=
  match t.first fun q => q.parent == some cur && q.state == .ZOMBIE with
  | some p =>
    (t.set p fun q => { q with pid := 0, parent := none, killed := false, state := .UNUSED },
      .reaped (t p).pid (t p).exitStatus)
  | none =>
    let havekids := (List.finRange NPROC).any fun p => (t p).parent == some cur
    if !havekids || (t cur).killed then (t, .failed) else (t, .blocked)

/-- `sleep` up to `sched`. -/
def sleep (t : Table) (cur : Slot) (chan : Chan) : Table :=
  t.set cur fun q => { q with chan := some chan, state := .SLEEPING }

@[simp] theorem set_self (t : Table) (p : Slot) (f : Proc → Proc) : t.set p f p = f (t p) := by
  simp [set]

theorem set_of_ne (t : Table) {p q : Slot} (f : Proc → Proc) (h : q ≠ p) : t.set p f q = t q := by
  simp [set, h]

theorem first_some {t : Table} {test : Proc → Bool} {p : Slot} (h : t.first test = some p) :
    test (t p) = true := by
  unfold first at h
  have hfound := List.find?_some h
  exact hfound

end Table

end Xv6.Sched

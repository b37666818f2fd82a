import Mathlib.Logic.Function.Basic
import Mathlib.Logic.Relation

/-!
Interrupts and spin locks. `pushcli` and `popcli` keep a count and the
interrupt flag to go back to, `ncli` and `intena`, in the structure of the
processor, although both are about the kernel thread: a thread may leave one
processor in `sched` and come back on another one. `sched` therefore saves
`intena` on the stack of the thread, and the count is 1 there, for
`ptable.lock`, which is handed over in the switch.

The machine below has any number of processors, kernel threads and locks. A
thread takes and releases locks in any order and calls `sched` where it likes,
so that `yield` and `sleep` are among its runs; an interrupt may come between
any two instructions while the flag is on, also between `readeflags` and `cli`
of `pushcli`, and a fault of a process at any time. Their handler is again such
code. A scheduler thread goes round its loop.
-/

namespace Xv6.Sync.Cli

open Relation Function

/-- The fields of `struct cpu` that are used here, and the flag `FL_IF`. -/
structure Cpu where
  ncli : Int
  intena : Bool
  flag : Bool
  deriving DecidableEq, Repr

inductive Panic where
  | acquire
  | release
  | popcliInterruptible
  | popcli
  | mycpu
  | schedLock
  | schedLocks
  | schedInterruptible
  deriving DecidableEq, Repr

/-- `pushcli` behind `readeflags`. -/
def pushcli (eflags : Bool) (x : Cpu) : Cpu :=
  { ncli := x.ncli + 1, intena := if x.ncli = 0 then eflags else x.intena, flag := false }

def popcli (x : Cpu) : Except Panic Cpu :=
  if x.flag then .error .popcliInterruptible
  else if x.ncli - 1 < 0 then .error .popcli
  else .ok { x with ncli := x.ncli - 1, flag := x.ncli - 1 == 0 && x.intena }

structure Spinlock where
  locked : Bool
  cpu : Option Nat
  deriving DecidableEq, Repr

/-- `ptable.lock` -/
def ptableLock : Nat := 0

inductive Pc where
  /-- between calls -/
  | code
  /-- `acquire`, behind `readeflags` in `pushcli` -/
  | eflags (l : Nat) (f : Bool)
  /-- at the `xchg` -/
  | spin (l : Nat)
  /-- before `lk->cpu = mycpu()` -/
  | taken (l : Nat)
  /-- `release`, behind `lk->cpu = 0` -/
  | cleared (l : Nat)
  /-- before `popcli` -/
  | unlocked
  /-- `sched`, in `swtch` -/
  | switched
  /-- before `mycpu()->intena = intena` -/
  | resumed
  /-- a thread that has not run -/
  | forkret
  deriving DecidableEq, Repr

/-- A thread: where it is, the trap frames below it, and the variable of `sched`.
The last two fields are not in the source: the locks the thread has, and the flag
before its outermost `acquire`. -/
structure Thread where
  pc : Pc
  frames : List (Pc × Bool)
  intena : Bool
  held : List Nat
  outer : Option Bool
  deriving DecidableEq, Repr

/-- The thread `allocproc` makes: `forkret` comes behind `swtch`, with `ptable.lock`. -/
def newThread : Thread :=
  { pc := .forkret, frames := [], intena := false, held := [ptableLock], outer := none }

inductive Tid where
  | scheduler (c : Nat)
  | proc (p : Nat)
  deriving DecidableEq, Repr

inductive Loop where
  /-- before `sti` -/
  | top
  /-- before `acquire(&ptable.lock)` or in it -/
  | ready
  /-- with `ptable.lock` -/
  | locked
  deriving DecidableEq, Repr

structure State where
  cpu : Nat → Cpu
  lock : Nat → Spinlock
  current : Nat → Tid
  thread : Tid → Thread
  loop : Nat → Loop

inductive Act where
  /-- call `acquire(l)` and read the flags -/
  | acquire (c l : Nat)
  /-- the rest of `pushcli`, and `holding` -/
  | cli (c : Nat)
  | xchg (c : Nat)
  | record (c : Nat)
  /-- call `release(l)`: `holding` and `lk->cpu = 0` -/
  | release (c l : Nat)
  | unlock (c : Nat)
  | pop (c : Nat)
  /-- `pushcli` and `popcli` with nothing else between them -/
  | myproc (c : Nat)
  | sched (c : Nat)
  | restore (c : Nat)
  | swtch (c p : Nat)
  | sti (c : Nat)
  /-- an interrupt, or a fault in the code of a process -/
  | trap (c : Nat)
  | iret (c : Nat)
  /-- the process is over and its slot has a new one -/
  | allocproc (p : Nat)
  deriving DecidableEq, Repr

namespace State

def run (s : State) (c : Nat) : Thread := s.thread (s.current c)

/-- Change a processor and the thread on it. -/
def put (s : State) (c : Nat) (x : Cpu) (t : Thread) : State :=
  { s with
    cpu := update s.cpu c x
    thread := update s.thread (s.current c) t }

def setLock (s : State) (l : Nat) (k : Spinlock) : State :=
  { s with lock := update s.lock l k }

def setLoop (s : State) (c : Nat) (loop : Loop) : State :=
  { s with loop := update s.loop c loop }

/-- The processor is in the loop of its scheduler. -/
def base (s : State) (c : Nat) : Bool :=
  s.current c == .scheduler c && (s.run c).frames.isEmpty

def holding (s : State) (c l : Nat) : Except Panic (Bool × Cpu) := do
  let x := pushcli (s.cpu c).flag (s.cpu c)
  let r := (s.lock l).locked && (s.lock l).cpu == some c
  let x ← popcli x
  return (r, x)

/-- The acts, `none` where one is not possible. -/
def step (s : State) : Act → Option (Except Panic State)
  | .acquire c l =>
    if (s.run c).pc = .code ∧ (s.base c → s.loop c = .ready ∧ l = ptableLock) then
      some (.ok (s.put c (s.cpu c) { s.run c with pc := .eflags l (s.cpu c).flag }))
    else none
  | .cli c =>
    match (s.run c).pc with
    | .eflags l f => some do
        let outer := if (s.run c).held = [] then some f else (s.run c).outer
        let s := s.put c (pushcli f (s.cpu c)) { s.run c with pc := .spin l, outer := outer }
        let (r, x) ← s.holding c l
        if r then .error .acquire else return s.put c x (s.run c)
    | _ => none
  | .xchg c =>
    match (s.run c).pc with
    | .spin l =>
      if (s.lock l).locked then some (.ok s)
      else some (.ok ((s.put c (s.cpu c) { s.run c with pc := .taken l }).setLock l
        { s.lock l with locked := true }))
    | _ => none
  | .record c =>
    match (s.run c).pc with
    | .taken l =>
      some (.ok (((s.put c (s.cpu c)
        { s.run c with pc := .code, held := l :: (s.run c).held }).setLock l
        { s.lock l with cpu := some c }).setLoop c (if s.base c then .locked else s.loop c)))
    | _ => none
  | .release c l =>
    if (s.run c).pc = .code ∧ (s.base c → s.loop c = .locked ∧ l = ptableLock) then some do
      let (r, x) ← s.holding c l
      if r then
        return ((s.put c x
          { s.run c with pc := .cleared l, held := (s.run c).held.erase l }).setLock l
          { s.lock l with cpu := none }).setLoop c (if s.base c then .top else s.loop c)
      else .error .release
    else none
  | .unlock c =>
    match (s.run c).pc with
    | .cleared l =>
      some (.ok ((s.put c (s.cpu c) { s.run c with pc := .unlocked }).setLock l
        { s.lock l with locked := false }))
    | _ => none
  | .pop c =>
    if (s.run c).pc = .unlocked then some do
      let x ← popcli (s.cpu c)
      return s.put c x { s.run c with pc := .code }
    else none
  | .myproc c =>
    if (s.run c).pc = .code then some do
      let x ← popcli (pushcli (s.cpu c).flag (s.cpu c))
      return s.put c x (s.run c)
    else none
  | .sched c =>
    if s.current c ≠ .scheduler c ∧ (s.run c).pc = .code then some do
      let (r, x) ← s.holding c ptableLock
      if !r then .error .schedLock
      else if x.flag then .error .mycpu
      else if x.ncli ≠ 1 then .error .schedLocks
      else if x.flag then .error .schedInterruptible
      else return { s.put c x { s.run c with pc := .switched, intena := x.intena } with
        current := update s.current c (.scheduler c) }
    else none
  | .restore c =>
    if (s.run c).pc = .resumed then
      some (.ok (s.put c { s.cpu c with intena := (s.run c).intena }
        { s.run c with pc := .code }))
    else none
  | .swtch c p =>
    if s.base c ∧ s.loop c = .locked ∧ (s.run c).pc = .code ∧
        ((s.thread (.proc p)).pc = .switched ∨ (s.thread (.proc p)).pc = .forkret) then
      some (.ok { s with
        current := update s.current c (.proc p)
        thread := update s.thread (.proc p)
          { s.thread (.proc p) with
            pc := if (s.thread (.proc p)).pc = .switched then .resumed else .code } })
    else none
  | .sti c =>
    if s.base c ∧ s.loop c = .top ∧ (s.run c).pc = .code then
      some (.ok ((s.put c { s.cpu c with flag := true } (s.run c)).setLoop c .ready))
    else none
  | .trap c =>
    if (s.cpu c).flag ∨ s.current c ≠ .scheduler c ∧ (s.run c).pc = .code then
      some (.ok (s.put c { s.cpu c with flag := false }
        { s.run c with
          pc := .code, frames := ((s.run c).pc, (s.cpu c).flag) :: (s.run c).frames }))
    else none
  | .iret c =>
    match (s.run c).frames with
    | (pc, f) :: frames =>
      -- a handler that interrupts code without locks returns without locks
      if (s.run c).pc = .code ∧ (f → (s.run c).held = []) then
        some (.ok (s.put c { s.cpu c with flag := f }
          { s.run c with pc := pc, frames := frames }))
      else none
    | [] => none
  | .allocproc p =>
    if (s.thread (.proc p)).pc = .switched ∨ (s.thread (.proc p)).pc = .forkret then
      some (.ok { s with thread := update s.thread (.proc p) newThread })
    else none

def Next (s s' : State) : Prop := ∃ a, s.step a = some (.ok s')

/-- Every processor comes to its scheduler with interrupts off. -/
def boot : State where
  cpu _ := { ncli := 0, intena := false, flag := false }
  lock _ := { locked := false, cpu := none }
  current c := .scheduler c
  thread
    | .scheduler _ => { pc := .code, frames := [], intena := false, held := [], outer := none }
    | .proc _ => newThread
  loop _ := .top

/-- The state behind a list of acts, none of which panics. -/
def runActs (s : State) : List Act → Option State
  | [] => some s
  | a :: acts =>
    match s.step a with
    | some (.ok s') => s'.runActs acts
    | _ => none

theorem run_of_acts {s t : State} {acts : List Act} (h : s.runActs acts = some t) :
    ReflTransGen Next s t := by
  induction acts generalizing s with
  | nil =>
    cases h
    exact .refl
  | cons a acts ih =>
    unfold runActs at h
    split at h
    case h_1 s' hs' => exact .head ⟨a, hs'⟩ (ih h)
    case h_2 => cases h

end State

end Xv6.Sync.Cli

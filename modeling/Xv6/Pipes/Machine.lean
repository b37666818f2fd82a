import Xv6.Lib.Ring
import Xv6.Lib.Transition

/-!
One pipe and the processes that use it. `pipewrite`, `piperead` and
`pipeclose` are cut at every point where another process can see or change
something: the acquisitions and releases of the pipe's lock, each turn of a
loop, each `wakeup`, and the two halves of `sleep`, which takes `ptable.lock`,
gives up the pipe's lock and only then marks the process `SLEEPING`. `kill` may
come between any two steps. The processes are the elements of an arbitrary
type.
-/

namespace Xv6.Pipes

def PIPESIZE : Nat := 512

/-- `struct pipe` without its lock. -/
structure Pipe extends Lib.Ring UInt8 32 PIPESIZE where
  readopen : Bool
  writeopen : Bool

/-- The two addresses that processes sleep on. -/
inductive Chan where
  | nread
  | nwrite
  deriving DecidableEq, Repr

/-- A call that holds the pipe's lock at the top of its loop: `pipewrite` in
front of byte `i`, `piperead` in front of its first loop, `pipeclose`. -/
inductive Call where
  | write (addr : Nat → UInt8) (n : Int) (i : Nat)
  | read (n : Int)
  | close (writable : Bool)

inductive Pc where
  /-- not in the pipe's code -/
  | idle
  /-- before `acquire(&p->lock)`, at the start of a call or at the end of `sleep` -/
  | acquire (call : Call)
  | hold (call : Call)
  /-- `pipewrite`, full and neither closed nor killed: `wakeup(&p->nread)` is next -/
  | full (addr : Nat → UInt8) (n : Int) (i : Nat)
  /-- `sleep(chan, &p->lock)` is next -/
  | sleep (chan : Chan) (call : Call)
  /-- in `sleep`, with `ptable.lock` instead of the pipe's lock -/
  | doze (chan : Chan) (call : Call)
  /-- the second loop of `piperead` -/
  | copy (n : Int) (i : Nat)
  /-- the last `wakeup` of a call that returns `r` -/
  | wake (chan : Chan) (r : Int)
  /-- `release(&p->lock)` of a call that returns `r` -/
  | release (r : Int)

/-- A process; `chan` is set while it is `SLEEPING`. -/
structure Thread where
  pc : Pc
  chan : Option Chan
  killed : Bool

structure State (ι : Type*) where
  pipe : Pipe
  /-- the process that holds `p->lock` -/
  lock : Option ι
  /-- the process that holds `ptable.lock` between two steps -/
  ptable : Option ι
  thread : ι → Thread

namespace State

variable {ι : Type*} [DecidableEq ι]

def setThread (s : State ι) (p : ι) (f : Thread → Thread) : State ι :=
  { s with thread := Function.update s.thread p (f (s.thread p)) }

def goto (s : State ι) (p : ι) (pc : Pc) : State ι := s.setThread p fun th => { th with pc := pc }

def wakeup (s : State ι) (chan : Chan) : State ι :=
  { s with thread := fun q =>
      if (s.thread q).chan = some chan then { s.thread q with chan := none } else s.thread q }

/-- The test of `pipewrite` for a full pipe. -/
def Full (s : State ι) : Prop := s.pipe.nwrite = s.pipe.nread + BitVec.ofNat 32 PIPESIZE

/-- The test of `piperead` for an empty pipe. -/
def Empty (s : State ι) : Prop := s.pipe.nread = s.pipe.nwrite

instance (s : State ι) : Decidable s.Full := by unfold Full; infer_instance
instance (s : State ι) : Decidable s.Empty := by unfold Empty; infer_instance

/-- The next step of process `p`, or `none` where it has to wait. -/
def turn (s : State ι) (p : ι) : Option (State ι) :=
  match (s.thread p).pc with
  | .idle => none
  | .acquire call =>
    if s.lock = none ∧ (s.thread p).chan = none then
      some ({ s with lock := some p }.goto p (.hold call))
    else none
  | .hold (.write addr n i) =>
    if (i : Int) < n then
      if s.Full then
        if s.pipe.readopen = false ∨ (s.thread p).killed = true then
          -- release(&p->lock); return -1
          some ({ s with lock := none }.goto p .idle)
        else some (s.goto p (.full addr n i))
      else
        some ({ s with pipe := { s.pipe with toRing := s.pipe.push (addr i) } }.goto p
          (.hold (.write addr n (i + 1))))
    else some (s.goto p (.wake .nread n))
  | .full addr n i =>
    if s.ptable = none then some ((s.wakeup .nread).goto p (.sleep .nwrite (.write addr n i)))
    else none
  | .sleep chan call =>
    if s.ptable = none then
      some ({ s with lock := none, ptable := some p }.goto p (.doze chan call))
    else none
  | .doze chan call =>
    some ({ s with ptable := none }.setThread p fun th =>
      { th with pc := .acquire call, chan := some chan })
  | .hold (.read n) =>
    if s.Empty ∧ s.pipe.writeopen = true then
      if (s.thread p).killed = true then some ({ s with lock := none }.goto p .idle)
      else some (s.goto p (.sleep .nread (.read n)))
    else some (s.goto p (.copy n 0))
  | .copy n i =>
    if (i : Int) < n ∧ ¬ s.Empty then
      some ({ s with pipe := { s.pipe with toRing := s.pipe.pop } }.goto p (.copy n (i + 1)))
    else some (s.goto p (.wake .nwrite i))
  | .hold (.close true) =>
    some ({ s with pipe := { s.pipe with writeopen := false } }.goto p (.wake .nread 0))
  | .hold (.close false) =>
    some ({ s with pipe := { s.pipe with readopen := false } }.goto p (.wake .nwrite 0))
  | .wake chan r => if s.ptable = none then some ((s.wakeup chan).goto p (.release r)) else none
  | .release _ => some ({ s with lock := none }.goto p .idle)

inductive Act (ι : Type*) where
  /-- process `p` calls `pipewrite`, `piperead` or `pipeclose` -/
  | call (p : ι) (call : Call)
  /-- the next step of process `p` inside its call -/
  | turn (p : ι)
  /-- `kill` of process `p` -/
  | kill (p : ι)

def Call.Fresh : Call → Prop
  | .write _ _ i => i = 0
  | _ => True

instance (call : Call) : Decidable (Call.Fresh call) := by
  cases call <;> unfold Call.Fresh <;> infer_instance

def idle (s : State ι) (p : ι) : Bool :=
  match (s.thread p).pc with
  | .idle => true
  | _ => false

def step (s : State ι) : Act ι → Option (State ι)
  | .call p call =>
    if s.idle p = true ∧ Call.Fresh call then some (s.goto p (.acquire call)) else none
  | .turn p => s.turn p
  | .kill p =>
    if s.ptable = none then
      some (s.setThread p fun th => { th with killed := true, chan := none })
    else none

/-- No process is in the pipe's code, whatever the pipe holds. -/
structure Quiet (s : State ι) : Prop where
  lock : s.lock = none
  ptable : s.ptable = none
  idle : ∀ p, (s.thread p).pc = .idle
  awake : ∀ p, (s.thread p).chan = none

/-- The bytes that a step puts into the pipe. -/
def stores (s : State ι) : Act ι → List UInt8
  | .turn p =>
    match (s.thread p).pc with
    | .hold (.write addr n i) => if (i : Int) < n ∧ ¬ s.Full then [addr i] else []
    | _ => []
  | _ => []

/-- The bytes that a step hands to a reader: `addr[i] = p->data[p->nread++ % PIPESIZE]`. -/
def delivers (s : State ι) : Act ι → List UInt8
  | .turn p =>
    match (s.thread p).pc with
    | .copy n i => if (i : Int) < n ∧ ¬ s.Empty then [s.pipe.front] else []
    | _ => []
  | _ => []

/-- Runs, with the bytes stored and delivered along them in order. -/
inductive Run : State ι → State ι → List UInt8 → List UInt8 → Prop where
  | refl (s : State ι) : Run s s [] []
  | tail {s t u : State ι} {stored delivered : List UInt8} (hrun : Run s t stored delivered)
      (a : Act ι) (hstep : t.step a = some u) :
      Run s u (stored ++ t.stores a) (delivered ++ t.delivers a)

/-- The last step of a run of given acts, with the bytes moved. -/
def trace (s : State ι) : List (Act ι) → Option (State ι × List UInt8 × List UInt8)
  | [] => some (s, [], [])
  | a :: acts =>
    match s.step a with
    | none => none
    | some t =>
      (t.trace acts).map fun (u, stored, delivered) =>
        (u, s.stores a ++ stored, s.delivers a ++ delivered)

theorem Run.append {s t u : State ι} {st st' de de' : List UInt8} (h : Run s t st de)
    (h' : Run t u st' de') : Run s u (st ++ st') (de ++ de') := by
  induction h' with
  | refl =>
    rw [List.append_nil, List.append_nil]
    exact h
  | tail _ a hstep ih =>
    rw [← List.append_assoc, ← List.append_assoc]
    exact ih.tail a hstep

theorem run_of_trace {s t : State ι} {acts : List (Act ι)} {stored delivered : List UInt8}
    (h : s.trace acts = some (t, stored, delivered)) : Run s t stored delivered := by
  induction acts generalizing s stored delivered with
  | nil =>
    cases h
    exact .refl _
  | cons a acts ih =>
    simp only [trace] at h
    split at h
    · cases h
    · next t1 hstep =>
      obtain ⟨⟨u, st, de⟩, htrace, heq⟩ := Option.map_eq_some_iff.mp h
      cases heq
      have hfirst := (Run.refl s).tail a hstep
      rw [List.nil_append, List.nil_append] at hfirst
      exact hfirst.append (ih htrace)

/-- An empty pipe with both ends open, at any value of the counters. -/
def start (ι : Type*) (c : BitVec 32) : State ι where
  pipe := { data := fun _ => 0, nread := c, nwrite := c, readopen := true, writeopen := true }
  lock := none
  ptable := none
  thread := fun _ => ⟨.idle, none, false⟩

end State

end Xv6.Pipes

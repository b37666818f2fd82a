import Xv6.Sched.Table

/-!
Processors, their scheduler threads and the kernel threads of processes, at
the granularity of `ptable.lock`. Code between an acquisition of the lock and
its release, or the `swtch` that hands the lock over, runs without
interleaving; the scheduler's two loops are cut further into iterations.

A processor runs either its scheduler thread or the process it dispatched.
`swtch` keeps the lock held: the dispatched thread releases it, and a thread
that enters the scheduler again has acquired it.
-/

namespace Xv6.Sched

section

variable {α β γ : Type} {o : Option α}

theorem bind_of_some {f : α → Option β} {a : α} {b : β} (h : o.bind f = some b)
    (ha : o = some a) : f a = some b := by
  rwa [ha] at h

theorem bind_bind_eq_some {f : α → Option β} {g : α → β → Option γ} {c : γ}
    (h : (o.bind fun a => (f a).bind (g a)) = some c) :
    ∃ a, o = some a ∧ ∃ b, f a = some b ∧ g a b = some c := by
  obtain ⟨a, ha, h⟩ := Option.bind_eq_some_iff.mp h
  exact ⟨a, ha, Option.bind_eq_some_iff.mp h⟩

end

/-- Where the scheduler thread of a processor stands. -/
inductive SchedPc where
  /-- before `acquire` -/
  | top
  /-- first loop, next slot `p` -/
  | hi (p : Nat)
  /-- first loop, switched to process `p` -/
  | hiRun (p : Slot)
  /-- second loop, next slot `p` -/
  | norm (p : Nat)
  /-- second loop, switched to process `p` -/
  | normRun (p : Slot)
  /-- after the second loop, which ended at `p` -/
  | normEnd (p : Nat)
  deriving DecidableEq, Repr

/-- A processor with the local variables of its `scheduler()`. -/
structure Cpu where
  pc : SchedPc
  proc : Option Slot
  flagHI : Bool
  ultimo : Option Slot
  deriving DecidableEq, Repr

/-- What a thread does when the scheduler switches back to it. -/
inductive Kont where
  /-- `forkret` and `yield`: release the lock -/
  | release
  /-- `sleep` with another lock: clear `chan`, release the lock -/
  | sleep
  /-- `sleep` inside `wait`: clear `chan`, scan the table again -/
  | wait
  deriving DecidableEq, Repr

/-- A kernel thread outside the table: the slot a `fork` in progress is
filling, and its continuation. -/
structure Thread where
  embryo : Option Slot
  kont : Kont
  deriving DecidableEq, Repr

structure Kernel where
  table : Table
  nextpid : Int
  initproc : Slot
  cpu : Nat → Cpu
  thread : Slot → Thread
  /-- the processor that holds `ptable.lock` -/
  lock : Option Nat

namespace Kernel

def setCpu (k : Kernel) (c : Nat) (f : Cpu → Cpu) : Kernel :=
  { k with cpu := Function.update k.cpu c (f (k.cpu c)) }

def setThread (k : Kernel) (p : Slot) (f : Thread → Thread) : Kernel :=
  { k with thread := Function.update k.thread p (f (k.thread p)) }

/-- `switchuvm`, `p->state = RUNNING` and `swtch` to process `p`. -/
def dispatch (k : Kernel) (c : Nat) (p : Slot) (pc : SchedPc) : Kernel :=
  { k with
    table := k.table.set p fun q => { q with state := .RUNNING }
    cpu := Function.update k.cpu c { k.cpu c with proc := some p, pc := pc } }

/-- One iteration of the loop the scheduler of processor `c` is in, or the
step out of it. -/
def scan (k : Kernel) (c : Nat) : Option Kernel :=
  match (k.cpu c).pc with
  | .hi p =>
    if h : p < NPROC then
      if (k.table ⟨p, h⟩).HiRunnable then some (k.dispatch c ⟨p, h⟩ (.hiRun ⟨p, h⟩))
      else some (k.setCpu c fun cpu => { cpu with pc := .hi (p + 1) })
    else if (k.cpu c).flagHI then
      some { k.setCpu c fun cpu => { cpu with pc := .top } with lock := none }
    else
      some (k.setCpu c fun cpu => { cpu with
        pc := .norm (match cpu.ultimo with
          | some q => q.val + 1
          | none => 0) })
  | .norm p =>
    if h : p < NPROC then
      if (k.table ⟨p, h⟩).NormRunnable then some (k.dispatch c ⟨p, h⟩ (.normRun ⟨p, h⟩))
      else some (k.setCpu c fun cpu => { cpu with pc := .norm (p + 1) })
    else some (k.setCpu c fun cpu => { cpu with pc := .normEnd p })
  | .normEnd p =>
    some { k.setCpu c fun cpu => { cpu with
      pc := .top
      ultimo := if p + 1 ≥ NPROC then none else cpu.ultimo } with lock := none }
  | _ => none

/-- The process running on processor `c` has changed its state and calls
`sched`: the scheduler thread goes on behind its `swtch`. -/
def resume (k : Kernel) (c : Nat) : Kernel :=
  { k.setCpu c fun cpu =>
      match cpu.pc with
      | .hiRun p => { cpu with proc := none, flagHI := true, pc := .hi (p.val + 1) }
      | .normRun p => { cpu with proc := none, ultimo := some p, pc := .normEnd p.val }
      | _ => cpu
    with lock := some c }

theorem scan_table {k k' : Kernel} {c : Nat} (h : k.scan c = some k') :
    k'.nextpid = k.nextpid ∧ (k'.table = k.table ∨ ∃ p, (k.table p).state = .RUNNABLE ∧
      k'.table = k.table.set p fun q => { q with state := .RUNNING }) := by
  unfold scan at h
  split at h
  · split at h
    · split at h <;> cases h
      · next hready => exact ⟨rfl, .inr ⟨_, hready.2, rfl⟩⟩
      · exact ⟨rfl, .inl rfl⟩
    · split at h <;> cases h <;> exact ⟨rfl, .inl rfl⟩
  · split at h
    · split at h <;> cases h
      · next hready => exact ⟨rfl, .inr ⟨_, hready.2, rfl⟩⟩
      · exact ⟨rfl, .inl rfl⟩
    · cases h
      exact ⟨rfl, .inl rfl⟩
  · cases h
    exact ⟨rfl, .inl rfl⟩
  · cases h

/-- The process whose thread runs on processor `c`. -/
def running (k : Kernel) (c : Nat) : Option Slot :=
  match (k.cpu c).pc with
  | .hiRun p => some p
  | .normRun p => some p
  | _ => none

inductive Act where
  /-- `scheduler`: `flagHI = 0; acquire(&ptable.lock); p = ptable.proc` -/
  | acquire (c : Nat)
  | scan (c : Nat)
  /-- a dispatched thread releases the lock (`forkret`, `yield`, `sleep`) -/
  | unlock (c : Nat)
  | yield (c : Nat)
  | sleep (c : Nat) (chan : Chan)
  | wait (c : Nat)
  | exit (c : Nat) (status : Int)
  /-- `wakeup`, also from an interrupt handler -/
  | wakeup (chan : Chan)
  | kill (c : Nat) (pid : Int)
  | setprio (c : Nat) (pid : Int) (prio : Nat)
  /-- `fork`: `allocproc` -/
  | forkAlloc (c : Nat)
  /-- `fork`: out of memory; no lock is taken to mark the slot `UNUSED` -/
  | forkFail (c : Nat)
  /-- `fork`: `np->parent` and `np->prio`, without the lock -/
  | forkCopy (c : Nat)
  /-- `fork`: `np->state = RUNNABLE` -/
  | forkDone (c : Nat)

/-- Thread `p` on processor `c` runs a turn of `wait` with the lock held. -/
def waitTurn (k : Kernel) (c : Nat) (p : Slot) : Kernel :=
  match k.table.wait p with
  | (t, .blocked) =>
    ({ k with table := t.sleep p (.proc p) }.setThread p fun th => { th with kont := .wait }).resume c
  | (t, _) => { k with table := t, lock := none }

/-- One atomic step, or `none` where the actor cannot take it. -/
def step (k : Kernel) : Act → Option Kernel
  | .acquire c =>
    if k.lock = none ∧ (k.cpu c).pc = .top then
      some { k.setCpu c fun cpu => { cpu with flagHI := false, pc := .hi 0 } with lock := some c }
    else none
  | .scan c => if k.lock = some c then k.scan c else none
  | .unlock c => do
      let p ← k.running c
      if k.lock = some c then
        match (k.thread p).kont with
        | .release => some { k with lock := none }
        | .sleep =>
          some { k with table := k.table.set p fun q => { q with chan := none }, lock := none }
        | .wait => some ({ k with table := k.table.set p fun q => { q with chan := none } }.waitTurn c p)
      else none
  | .yield c => do
      let p ← k.running c
      if k.lock = none then
        some (({ k with table := k.table.set p fun q => { q with state := .RUNNABLE } }.setThread p
          fun th => { th with kont := .release }).resume c)
      else none
  | .sleep c chan => do
      let p ← k.running c
      if k.lock = none ∧ (k.thread p).embryo = none then
        some (({ k with table := k.table.sleep p chan }.setThread p
          fun th => { th with kont := .sleep }).resume c)
      else none
  | .wait c => do
      let p ← k.running c
      if k.lock = none ∧ (k.thread p).embryo = none then some (k.waitTurn c p) else none
  | .exit c status => do
      let p ← k.running c
      if k.lock = none ∧ (k.thread p).embryo = none ∧ p ≠ k.initproc then
        let t := k.table.set p fun q => { q with exitStatus := status }
        some ({ k with table := t.exit p k.initproc }.resume c)
      else none
  | .wakeup chan => if k.lock = none then some { k with table := k.table.wakeup1 chan } else none
  | .kill c pid => do
      let p ← k.running c
      if k.lock = none ∧ (k.thread p).embryo = none then
        some { k with table := (k.table.kill pid).1 }
      else none
  | .setprio c pid prio => do
      let p ← k.running c
      if k.lock = none ∧ (k.thread p).embryo = none then
        some { k with table := (k.table.setprio pid prio).1 }
      else none
  | .forkAlloc c => do
      let p ← k.running c
      if k.lock = none ∧ (k.thread p).embryo = none then
        let (np, t) ← k.table.allocproc k.nextpid
        some ({ k with table := t, nextpid := k.nextpid + 1 }.setThread p
          fun th => { th with embryo := some np })
      else none
  | .forkFail c => do
      let p ← k.running c
      let np ← (k.thread p).embryo
      if k.lock = some c then none
      else
        some ({ k with table := k.table.set np fun q => { q with state := .UNUSED } }.setThread p
          fun th => { th with embryo := none })
  | .forkCopy c => do
      let p ← k.running c
      let np ← (k.thread p).embryo
      if k.lock = some c then none
      else
        some { k with table := k.table.set np fun q => { q with
          parent := some p
          prio := (k.table p).prio } }
  | .forkDone c => do
      let p ← k.running c
      let np ← (k.thread p).embryo
      if k.lock = none then
        some (({ k with table := k.table.set np fun q => { q with state := .RUNNABLE } }.setThread p
          fun th => { th with embryo := none }).setThread np fun _ => ⟨none, .release⟩)
      else none

/-- After `userinit`: one runnable process, every processor in front of its
scheduler loop. -/
def boot : Kernel where
  table := fun p => if p.val = 0 then { Proc.zero with state := .RUNNABLE, pid := 1 } else Proc.zero
  nextpid := 2
  initproc := ⟨0, by decide⟩
  cpu := fun _ => ⟨.top, none, false, none⟩
  thread := fun _ => ⟨none, .release⟩
  lock := none

inductive Step : Kernel → Kernel → Prop where
  | act {k k' : Kernel} (a : Act) (hstep : k.step a = some k') : Step k k'

/-- The state after a list of steps, where every one of them can be taken. -/
def run (k : Kernel) (acts : List Act) : Option Kernel := acts.foldlM step k

theorem reflTransGen_of_run {k k' : Kernel} {acts : List Act} (h : k.run acts = some k') :
    Relation.ReflTransGen Step k k' := by
  induction acts generalizing k with
  | nil =>
    cases h
    exact .refl
  | cons a acts ih =>
    obtain ⟨k1, hstep, hrest⟩ := Option.bind_eq_some_iff.mp h
    exact .head (.act a hstep) (ih hrest)

end Kernel

end Xv6.Sched

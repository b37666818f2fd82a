import Mathlib.Data.List.Induction
import Xv6.Lib.Monitor
import Xv6.Param

/-!
The disk drivers `ide.c` and `memide.c`. `memide.c` serves a request at once
from memory. `ide.c` queues it, starts the device on the head of the queue and
sleeps until the interrupt handler has served it. Processes call `iderw` on
buffers they have locked, with any contents that the memory disk serves, and
interrupts come at any time after the device has finished, on any processor.

The device finishes each command once, without error, and raises one interrupt
for it. What the driver was asked and what it has started are kept as a history
beside its state.
-/

namespace Xv6.Disk

open Lib.Monitor Function List

/-- The part of `struct buf` that the drivers use, for disk 1; `δ` is the type of
a block's contents. -/
structure Buf (δ : Type*) where
  valid : Bool
  dirty : Bool
  blockno : Nat
  data : δ

variable {τ B δ : Type*}

/-- `(flags & (B_VALID|B_DIRTY)) == B_VALID` -/
def Buf.synced (x : Buf δ) : Bool := x.valid && !x.dirty

/-- The requests that pass the checks of both drivers. -/
def Buf.Served (x : Buf δ) : Prop := x.synced = false ∧ x.blockno < FSSIZE

/-- `iderw` of `memide.c` behind its checks. -/
def memIderw (disk : Nat → δ) (x : Buf δ) : (Nat → δ) × Buf δ :=
  if x.dirty then
    (update disk x.blockno x.data, { x with dirty := false, valid := true })
  else (disk, { x with data := disk x.blockno, valid := true })

/-- A call of `iderw`: the buffer and its contents at the call. -/
structure Req (B δ : Type*) where
  b : B
  buf : Buf δ

/-- The memory disk after a list of requests. -/
def memRun (disk : Nat → δ) (reqs : List (Req B δ)) : Nat → δ :=
  reqs.foldl (fun disk r => (memIderw disk r.buf).1) disk

/-- What the memory disk leaves in the buffer of request `n`. -/
def memResult (disk : Nat → δ) (reqs : List (Req B δ)) (n : Nat) : Option (Buf δ) :=
  reqs[n]?.map fun r => (memIderw (memRun disk (reqs.take n)) r.buf).2

/-- The last data written to a block, or what was there at the start. -/
def lastWritten (disk : Nat → δ) (reqs : List (Req B δ)) (blockno : Nat) : δ :=
  (reqs.reverse.find? fun r => r.buf.dirty && r.buf.blockno == blockno).elim (disk blockno)
    fun r => r.buf.data

theorem memRun_append (disk : Nat → δ) (reqs : List (Req B δ)) (r : Req B δ) :
    memRun disk (reqs ++ [r]) = (memIderw (memRun disk reqs) r.buf).1 := by
  simp [memRun]

theorem memRun_apply (disk : Nat → δ) (reqs : List (Req B δ)) (blockno : Nat) :
    memRun disk reqs blockno = lastWritten disk reqs blockno := by
  induction reqs using List.reverseRecOn with
  | nil => rfl
  | append_singleton reqs r ih =>
    rw [memRun_append]
    unfold memIderw lastWritten
    by_cases hdirty : r.buf.dirty = true
    · by_cases hblock : r.buf.blockno = blockno
      · simp [hdirty, hblock]
      · simp only [hdirty, if_true, reverse_append, reverse_singleton,
          singleton_append, List.find?_cons, Bool.true_and, beq_eq_false_iff_ne.mpr hblock]
        rw [update_of_ne (Ne.symm hblock), ih]
        rfl
    · simp only [hdirty, Bool.false_eq_true, if_false, reverse_append,
        reverse_singleton, singleton_append, List.find?_cons, Bool.false_and]
      exact ih

/-- Driver, device and disk, with the history of requests: `reqs` in queue order,
of which `done` are served, and the buffers for which `idestart` was called. -/
structure Ide (τ B δ : Type*) where
  buf : B → Buf δ
  /-- the holder of `b->lock` -/
  owner : B → Option τ
  /-- `idequeue`, through `qnext` -/
  queue : List B
  /-- the command that the device works on -/
  cmd : Option (Buf δ)
  /-- what `insl` reads after a read command -/
  port : δ
  disk : Nat → δ
  reqs : List (Req B δ)
  done : Nat
  started : List B

/-- Program points of processes and of interrupt handlers. -/
inductive Pc (B δ : Type*) where
  | init
  | idle
  /-- about to lock `b`, fill it and call `iderw` -/
  | call (b : B) (x : Buf δ)
  | enter (b : B)
  | append (b : B)
  /-- the test of the loop; the request is number `n` -/
  | test (b : B) (n : Nat)
  | wait (b : B) (n : Nat)
  | leave (b : B) (n : Nat)
  /-- `iderw` has returned -/
  | ret (b : B) (n : Nat)
  /-- no interrupt -/
  | ready
  /-- `ideintr`: before `acquire`, at the head of the queue, before `wakeup`, before the next
  request is started, before `release` -/
  | intr
  | pop
  | wake (b : B)
  | next
  | intrLeave

section

variable [DecidableEq B]

def idestart (d : Ide τ B δ) (b : B) : Ide τ B δ :=
  { d with cmd := some (d.buf b), started := d.started ++ [b] }

/-- The caller locks a free buffer and fills it. -/
def lockBuf (p : τ) (b : B) (x : Buf δ) (d : Ide τ B δ) : Ide τ B δ × Pc B δ :=
  if (d.owner b).isSome then (d, .idle)
  else ({ d with buf := update d.buf b x, owner := update d.owner b (some p) }, .enter b)

/-- `iderw` up to its loop: append, and start the device if the queue was empty. -/
def append (b : B) (d : Ide τ B δ) : Ide τ B δ × Pc B δ :=
  let d' := { d with queue := d.queue ++ [b], reqs := d.reqs ++ [⟨b, d.buf b⟩] }
  (if d'.queue.head? = some b then idestart d' b else d', .test b d.reqs.length)

/-- The device finishes its command and raises an interrupt. -/
def finish (d : Ide τ B δ) : Ide τ B δ × Pc B δ :=
  match d.cmd with
  | none => (d, .ready)
  | some x =>
    (if x.dirty then { d with cmd := none, disk := update d.disk x.blockno x.data }
     else { d with cmd := none, port := d.disk x.blockno }, .intr)

/-- `ideintr` up to `wakeup`. -/
def pop (d : Ide τ B δ) : Ide τ B δ × Pc B δ :=
  match d.queue with
  | [] => (d, .intrLeave)
  | b :: rest =>
    let x := d.buf b
    let x := if x.dirty then x else { x with data := d.port }
    ({ d with
        queue := rest, done := d.done + 1
        buf := update d.buf b { x with valid := true, dirty := false } }, .wake b)

/-- The rest of `ideintr`. -/
def startNext (d : Ide τ B δ) : Ide τ B δ × Pc B δ :=
  match d.queue with
  | [] => (d, .intrLeave)
  | b :: _ => (idestart d b, .intrLeave)

/-- The code of processes and of interrupt handlers. -/
def code (handler : τ → Bool) (p : τ) : Pc B δ → Instr τ Unit B (Ide τ B δ) (Pc B δ)
  | .init => .choose fun _ k => k = if handler p then .ready else .idle
  | .idle => .choose fun _ k => ∃ b x, x.Served ∧ k = .call b x
  | .call b x => .act (lockBuf p b x)
  | .enter b => .acquire () (.append b)
  | .append b => .act (append b)
  | .test b n => .act fun d => (d, if (d.buf b).synced then .leave b n else .wait b n)
  | .wait b n => .sleep b () (.test b n)
  | .leave b n => .release () (.ret b n)
  | .ret b _ => .act fun d => ({ d with owner := update d.owner b none }, .idle)
  | .ready => .act finish
  | .intr => .acquire () .pop
  | .pop => .act pop
  | .wake b => .wakeup b .next
  | .next => .act startNext
  | .intrLeave => .release () .ready

end

/-- Processes and handlers with the driver, under `idelock`. -/
abbrev IdeState (τ B δ : Type*) := State τ Unit B (Ide τ B δ) (Pc B δ)

/-- Any buffers, all unlocked, and no request. -/
def ideInit (τ : Type*) (buf : B → Buf δ) (port : δ) (disk : Nat → δ) : IdeState τ B δ :=
  State.start ⟨buf, fun _ => none, [], none, port, disk, [], 0, []⟩ .init

/-- `idelock` is held. -/
def Pc.lock : Pc B δ → Option Unit
  | .append _ | .test _ _ | .wait _ _ | .leave _ _ | .pop | .wake _ | .next | .intrLeave => some ()
  | .init | .idle | .call _ _ | .enter _ | .ret _ _ | .ready | .intr => none

/-- `wakeup(b)` is next. -/
def Pc.due (pc : Pc B δ) (b : B) : Prop := pc = .wake b

theorem disciplined [DecidableEq B] (handler : τ → Bool) :
    Disciplined (code (B := B) (δ := δ) handler) Pc.lock where
  acquire p pc m k h := by cases pc <;> cases h <;> exact ⟨rfl, rfl⟩
  release p pc m k h := by cases pc <;> cases h <;> exact ⟨rfl, rfl⟩
  act p pc f h d := by
    cases pc <;> cases h
    case call b x =>
      unfold lockBuf
      split <;> rfl
    case test b n =>
      dsimp only
      split <;> rfl
    case ready =>
      unfold finish
      split <;> rfl
    case pop =>
      unfold pop
      split <;> rfl
    case next =>
      unfold startNext
      split <;> rfl
    all_goals rfl
  choose p pc allowed h d k hk := by
    cases pc <;> cases h
    case init =>
      rw [hk]
      split <;> rfl
    case idle =>
      obtain ⟨b, x, _, rfl⟩ := hk
      rfl
  sleep p pc c m k h := by
    cases pc <;> cases h
    exact ⟨rfl, rfl⟩
  wakeup p pc c k h := by
    cases pc <;> cases h
    rfl
  kill p pc q k h := by cases pc <;> cases h

theorem signals [DecidableEq B] (handler : τ → Bool) :
    Signals (code (B := B) (δ := δ) handler) Pc.lock (fun _ => ()) Pc.due where
  wakeup p pc c k h := by
    cases pc <;> cases h
    rfl
  due pc c h p := by
    cases h
    exact ⟨_, rfl⟩

end Xv6.Disk

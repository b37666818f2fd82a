import Mathlib.Logic.Function.Basic
import Xv6.Lib.Transition

/-!
Threads with spin locks, `sleep` and `wakeup`. A thread runs a program whose
instructions take and release spin locks, change shared data, or sleep on a
channel with a lock given up; `wakeup` and `kill` make sleepers runnable. One
further lock, the process table's, guards who sleeps where. `sleep` takes it
before it gives up its own lock and the scheduler releases it once the thread
is off the processor. A step is what can happen between two points at which
another thread can see a difference.

The main result is that no wakeup is lost. When each change that ends the
condition of a sleeper is followed by a `wakeup` before the lock is released,
a thread sleeps on a channel only while its condition holds or such a `wakeup`
is under way.
-/

namespace Xv6.Lib.Monitor

open Relation Function

/-- Instructions: threads `ι`, spin locks `μ`, channels `κ`, shared data `σ`
and program points `π`. -/
inductive Instr (ι μ κ σ π : Type*) where
  | acquire (m : μ) (k : π)
  | release (m : μ) (k : π)
  /-- reads and writes shared data, which also decides where to go on -/
  | act (f : σ → σ × π)
  | sleep (c : κ) (m : μ) (k : π)
  | wakeup (c : κ) (k : π)
  | kill (q : ι) (k : π)
  /-- goes on at any of the points that the data allows -/
  | choose (allowed : σ → π → Prop)

/-- Where a thread stands: at a point of its program, or inside `sleep`,
`wakeup` or `kill`, after which it goes on at `k`. -/
inductive Mode (ι μ κ π : Type*) where
  | run (pc : π)
  /-- in `sleep` with the table's lock, before `release(lk)` -/
  | handOver (c : κ) (m : μ) (k : π)
  /-- in `sleep`, before the thread is marked -/
  | doze (c : κ) (m : μ) (k : π)
  /-- marked, before the scheduler releases the table's lock -/
  | sched (m : μ) (k : π)
  | off (m : μ) (k : π)
  /-- switched to again by the scheduler, with the table's lock -/
  | back (m : μ) (k : π)
  | reacquire (m : μ) (k : π)
  /-- in `wakeup` with the table's lock -/
  | wake (c : κ) (k : π)
  /-- in `kill` with the table's lock -/
  | slay (q : ι) (k : π)
  /-- before the table's lock is released at the end of `wakeup` or `kill` -/
  | leave (k : π)

/-- A thread with its entry in the process table. -/
structure Thread (ι μ κ π : Type*) where
  mode : Mode ι μ κ π
  sleeping : Bool
  chan : Option κ
  killed : Bool

structure State (ι μ κ σ π : Type*) where
  data : σ
  lock : μ → Option ι
  ptable : Option ι
  thread : ι → Thread ι μ κ π

variable {ι μ κ σ π : Type*}

namespace State

section

variable [DecidableEq ι]

def setThread (s : State ι μ κ σ π) (p : ι) (th : Thread ι μ κ π) : State ι μ κ σ π :=
  { s with thread := update s.thread p th }

def goto (s : State ι μ κ σ π) (p : ι) (mode : Mode ι μ κ π) : State ι μ κ σ π :=
  s.setThread p { s.thread p with mode := mode }

def wakeup1 [DecidableEq κ] (s : State ι μ κ σ π) (c : κ) : State ι μ κ σ π :=
  { s with thread := fun q =>
      if (s.thread q).sleeping = true ∧ (s.thread q).chan = some c then
        { s.thread q with sleeping := false }
      else s.thread q }

/-- Thread `q` is marked and no longer sleeps. -/
def slay (s : State ι μ κ σ π) (q : ι) : State ι μ κ σ π :=
  s.setThread q { s.thread q with killed := true, sleeping := false }

def setLock [DecidableEq μ] (s : State ι μ κ σ π) (m : μ) (holder : Option ι) : State ι μ κ σ π :=
  { s with lock := update s.lock m holder }

theorem mode_setThread (s : State ι μ κ σ π) (p q : ι) (th : Thread ι μ κ π) :
    ((s.setThread p th).thread q).mode = if q = p then th.mode else (s.thread q).mode := by
  by_cases hq : q = p
  · simp [setThread, hq]
  · simp [setThread, hq]

theorem mode_goto (s : State ι μ κ σ π) (p q : ι) (mode : Mode ι μ κ π) :
    ((s.goto p mode).thread q).mode = if q = p then mode else (s.thread q).mode :=
  mode_setThread s p q _

theorem mode_slay (s : State ι μ κ σ π) (p q : ι) :
    ((s.slay p).thread q).mode = (s.thread q).mode := by
  rw [slay, mode_setThread]
  split
  · next hq => rw [hq]
  · rfl

end

theorem mode_wakeup1 [DecidableEq κ] (s : State ι μ κ σ π) (c : κ) (q : ι) :
    ((s.wakeup1 c).thread q).mode = (s.thread q).mode := by
  unfold wakeup1
  dsimp only
  split <;> rfl

section

variable [DecidableEq ι] [DecidableEq μ] [DecidableEq κ]

/-- One step of thread `p` where every thread runs `prog`. -/
inductive StepOf (prog : ι → π → Instr ι μ κ σ π) (s : State ι μ κ σ π) (p : ι) :
    State ι μ κ σ π → Prop where
  | acquire {pc m k} (hmode : (s.thread p).mode = .run pc) (hi : prog p pc = .acquire m k)
      (hfree : s.lock m = none) : StepOf prog s p ((s.setLock m (some p)).goto p (.run k))
  | release {pc m k} (hmode : (s.thread p).mode = .run pc) (hi : prog p pc = .release m k) :
      StepOf prog s p ((s.setLock m none).goto p (.run k))
  | act {pc f} (hmode : (s.thread p).mode = .run pc) (hi : prog p pc = .act f) :
      StepOf prog s p ({ s with data := (f s.data).1 }.goto p (.run (f s.data).2))
  | choose {pc allowed k} (hmode : (s.thread p).mode = .run pc) (hi : prog p pc = .choose allowed)
      (hk : allowed s.data k) : StepOf prog s p (s.goto p (.run k))
  | sleep {pc c m k} (hmode : (s.thread p).mode = .run pc) (hi : prog p pc = .sleep c m k)
      (hfree : s.ptable = none) :
      StepOf prog s p ({ s with ptable := some p }.goto p (.handOver c m k))
  | handOver {c m k} (hmode : (s.thread p).mode = .handOver c m k) :
      StepOf prog s p ((s.setLock m none).goto p (.doze c m k))
  | doze {c m k} (hmode : (s.thread p).mode = .doze c m k) :
      StepOf prog s p (s.setThread p
        { s.thread p with mode := .sched m k, sleeping := true, chan := some c })
  | sched {m k} (hmode : (s.thread p).mode = .sched m k) :
      StepOf prog s p ({ s with ptable := none }.goto p (.off m k))
  | back {m k} (hmode : (s.thread p).mode = .off m k) (hawake : (s.thread p).sleeping = false)
      (hfree : s.ptable = none) : StepOf prog s p ({ s with ptable := some p }.goto p (.back m k))
  | tidy {m k} (hmode : (s.thread p).mode = .back m k) :
      StepOf prog s p ({ s with ptable := none }.setThread p
        { s.thread p with mode := .reacquire m k, chan := none })
  | reacquire {m k} (hmode : (s.thread p).mode = .reacquire m k) (hfree : s.lock m = none) :
      StepOf prog s p ((s.setLock m (some p)).goto p (.run k))
  | wakeup {pc c k} (hmode : (s.thread p).mode = .run pc) (hi : prog p pc = .wakeup c k)
      (hfree : s.ptable = none) : StepOf prog s p ({ s with ptable := some p }.goto p (.wake c k))
  | wake {c k} (hmode : (s.thread p).mode = .wake c k) :
      StepOf prog s p ((s.wakeup1 c).goto p (.leave k))
  | kill {pc q k} (hmode : (s.thread p).mode = .run pc) (hi : prog p pc = .kill q k)
      (hfree : s.ptable = none) : StepOf prog s p ({ s with ptable := some p }.goto p (.slay q k))
  | slay {q k} (hmode : (s.thread p).mode = .slay q k) :
      StepOf prog s p ((s.slay q).goto p (.leave k))
  | leave {k} (hmode : (s.thread p).mode = .leave k) :
      StepOf prog s p ({ s with ptable := none }.goto p (.run k))

def Step (prog : ι → π → Instr ι μ κ σ π) (s t : State ι μ κ σ π) : Prop :=
  ∃ p, StepOf prog s p t

theorem StepOf.mode_of_ne {prog : ι → π → Instr ι μ κ σ π} {s t : State ι μ κ σ π} {p q : ι}
    (h : StepOf prog s p t) (hq : q ≠ p) : (t.thread q).mode = (s.thread q).mode := by
  cases h
  case doze => rw [mode_setThread, if_neg hq]
  case tidy => rw [mode_setThread, if_neg hq]
  case wake => rw [mode_goto, if_neg hq, mode_wakeup1]
  case slay => rw [mode_goto, if_neg hq, mode_slay]
  all_goals exact (mode_goto _ _ _ _).trans (if_neg hq)

end

def SleepsOn (s : State ι μ κ σ π) (p : ι) (c : κ) : Prop :=
  (s.thread p).sleeping = true ∧ (s.thread p).chan = some c

/-- Every thread at the point `pc`, every lock free. -/
def start (data : σ) (pc : π) : State ι μ κ σ π where
  data := data
  lock := fun _ => none
  ptable := none
  thread := fun _ => ⟨.run pc, false, none, false⟩

end State

open State

/-! Which locks a thread holds is read off the point where it stands. -/

section

/-- The spin lock that a thread holds, given the one held at each point. -/
def Mode.holds (holds : π → Option μ) : Mode ι μ κ π → Option μ
  | .run pc => holds pc
  | .handOver _ m _ => some m
  | .wake _ k | .slay _ k | .leave k => holds k
  | .doze _ _ _ | .sched _ _ | .off _ _ | .back _ _ | .reacquire _ _ => none

/-- The thread holds the process table's lock. -/
def Mode.table : Mode ι μ κ π → Bool
  | .handOver _ _ _ | .doze _ _ _ | .sched _ _ | .back _ _ | .wake _ _ | .slay _ _ | .leave _ => true
  | .run _ | .off _ _ | .reacquire _ _ => false

/-- The lock that `sleep` takes back, and where the thread goes on with it. -/
def Mode.resume : Mode ι μ κ π → Option (μ × π)
  | .handOver _ m k | .doze _ m k | .sched m k | .off m k | .back m k | .reacquire m k =>
    some (m, k)
  | .run _ | .wake _ _ | .slay _ _ | .leave _ => none

/-- The program takes and releases its spin locks one at a time, as `holds`
says. -/
structure Disciplined (prog : ι → π → Instr ι μ κ σ π) (holds : π → Option μ) : Prop where
  acquire : ∀ p pc m k, prog p pc = .acquire m k → holds pc = none ∧ holds k = some m
  release : ∀ p pc m k, prog p pc = .release m k → holds pc = some m ∧ holds k = none
  act : ∀ p pc f, prog p pc = .act f → ∀ d, holds (f d).2 = holds pc
  choose : ∀ p pc allowed, prog p pc = .choose allowed → ∀ d k, allowed d k → holds k = holds pc
  sleep : ∀ p pc c m k, prog p pc = .sleep c m k → holds pc = some m ∧ holds k = some m
  wakeup : ∀ p pc c k, prog p pc = .wakeup c k → holds k = holds pc
  kill : ∀ p pc q k, prog p pc = .kill q k → holds k = holds pc

/-- The holders of the locks are the threads that stand where they are held, and
a thread in `sleep` came there from its program. -/
structure Locked (prog : ι → π → Instr ι μ κ σ π) (holds : π → Option μ) (s : State ι μ κ σ π) :
    Prop where
  lock : ∀ m p, s.lock m = some p ↔ (s.thread p).mode.holds holds = some m
  table : ∀ p, s.ptable = some p ↔ (s.thread p).mode.table = true
  resume : ∀ p m k, (s.thread p).mode.resume = some (m, k) → ∃ pc c, prog p pc = .sleep c m k

variable {prog : ι → π → Instr ι μ κ σ π} {holds : π → Option μ} {s t : State ι μ κ σ π} {p : ι}

theorem locked_start {data : σ} {pc : π} (hpc : holds pc = none) :
    Locked prog holds (State.start data pc) where
  lock m p := by simp [State.start, Mode.holds, hpc]
  table p := by simp [State.start, Mode.table]
  resume p m k h := by simp [State.start, Mode.resume] at h

/-- How a step of `p` can change the holder of a spin lock. -/
inductive LockMove [DecidableEq μ] (s t : State ι μ κ σ π) (p : ι) (old new : Option μ) : Prop where
  | keep (hlock : t.lock = s.lock) (hnew : new = old)
  | take (m : μ) (hfree : s.lock m = none) (hold : old = none) (hnew : new = some m)
      (hlock : t.lock = update s.lock m (some p))
  | drop (m : μ) (hold : old = some m) (hnew : new = none)
      (hlock : t.lock = update s.lock m none)

/-- How a step of `p` can change the holder of the process table's lock. -/
inductive TableMove (s t : State ι μ κ σ π) (p : ι) (old new : Bool) : Prop where
  | keep (htable : t.ptable = s.ptable) (hnew : new = old)
  | take (hfree : s.ptable = none) (hnew : new = true) (htable : t.ptable = some p)
  | drop (hold : old = true) (hnew : new = false) (htable : t.ptable = none)

theorem Locked.lock_move [DecidableEq ι] [DecidableEq μ] (h : Locked prog holds s)
    (hothers : ∀ q, q ≠ p → (t.thread q).mode = (s.thread q).mode)
    (hmove : LockMove s t p ((s.thread p).mode.holds holds) ((t.thread p).mode.holds holds))
    (m : μ) (q : ι) : t.lock m = some q ↔ (t.thread q).mode.holds holds = some m := by
  have hself := h.lock m q
  by_cases hq : q = p
  · subst hq
    cases hmove with
    | keep hlock hnew => rw [hlock, hnew, hself]
    | take m' hfree hold hnew hlock =>
      rw [hlock, hnew]
      by_cases hm : m = m'
      · simp [hm]
      · rw [update_of_ne hm, hself, hold]
        simp [Ne.symm hm]
    | drop m' hold hnew hlock =>
      rw [hlock, hnew]
      by_cases hm : m = m'
      · simp [hm]
      · rw [update_of_ne hm, hself, hold]
        simp [Ne.symm hm]
  · rw [hothers q hq, ← hself]
    cases hmove with
    | keep hlock _ => rw [hlock]
    | take m' hfree _ _ hlock =>
      rw [hlock]
      by_cases hm : m = m'
      · simp [hm, hfree, Ne.symm hq]
      · rw [update_of_ne hm]
    | drop m' hold _ hlock =>
      rw [hlock]
      by_cases hm : m = m'
      · have hp := (h.lock m' p).mpr hold
        simp [hm, hp, Ne.symm hq]
      · rw [update_of_ne hm]

theorem Locked.table_move [DecidableEq ι] (h : Locked prog holds s)
    (hothers : ∀ q, q ≠ p → (t.thread q).mode = (s.thread q).mode)
    (hmove : TableMove s t p (s.thread p).mode.table (t.thread p).mode.table) (q : ι) :
    t.ptable = some q ↔ (t.thread q).mode.table = true := by
  have hself := h.table q
  by_cases hq : q = p
  · subst hq
    cases hmove with
    | keep htable hnew => rw [htable, hnew, hself]
    | take _ hnew htable => simp [htable, hnew]
    | drop _ hnew htable => simp [htable, hnew]
  · rw [hothers q hq, ← hself]
    cases hmove with
    | keep htable _ => rw [htable]
    | take hfree _ htable => simp [htable, hfree, Ne.symm hq]
    | drop hold _ htable => simp [htable, (h.table p).mpr hold, Ne.symm hq]

theorem Locked.unique (h : Locked prog holds s) {q : ι} {m : μ}
    (hp : (s.thread p).mode.holds holds = some m) (hq : (s.thread q).mode.holds holds = some m) :
    p = q :=
  Option.some.inj (((h.lock m p).mpr hp).symm.trans ((h.lock m q).mpr hq))

variable [DecidableEq ι] [DecidableEq μ] [DecidableEq κ]

/-- What a step of a disciplined program does to the locks. -/
theorem moves_of_step (hd : Disciplined prog holds) (hlocked : Locked prog holds s)
    (h : StepOf prog s p t) :
    LockMove s t p ((s.thread p).mode.holds holds) ((t.thread p).mode.holds holds) ∧
      TableMove s t p (s.thread p).mode.table (t.thread p).mode.table := by
  cases h with
  | acquire hmode hi hfree =>
    obtain ⟨hold, hnew⟩ := hd.acquire _ _ _ _ hi
    rw [mode_goto, if_pos rfl, hmode]
    exact ⟨.take _ hfree hold hnew rfl, .keep rfl rfl⟩
  | release hmode hi =>
    obtain ⟨hold, hnew⟩ := hd.release _ _ _ _ hi
    rw [mode_goto, if_pos rfl, hmode]
    exact ⟨.drop _ hold hnew rfl, .keep rfl rfl⟩
  | act hmode hi =>
    rw [mode_goto, if_pos rfl, hmode]
    exact ⟨.keep rfl (hd.act _ _ _ hi _), .keep rfl rfl⟩
  | choose hmode hi hk =>
    rw [mode_goto, if_pos rfl, hmode]
    exact ⟨.keep rfl (hd.choose _ _ _ hi _ _ hk), .keep rfl rfl⟩
  | sleep hmode hi hfree =>
    rw [mode_goto, if_pos rfl, hmode]
    exact ⟨.keep rfl (hd.sleep _ _ _ _ _ hi).1.symm, .take hfree rfl rfl⟩
  | handOver hmode =>
    rw [mode_goto, if_pos rfl, hmode]
    exact ⟨.drop _ rfl rfl rfl, .keep rfl rfl⟩
  | doze hmode =>
    rw [mode_setThread, if_pos rfl, hmode]
    exact ⟨.keep rfl rfl, .keep rfl rfl⟩
  | sched hmode =>
    rw [mode_goto, if_pos rfl, hmode]
    exact ⟨.keep rfl rfl, .drop rfl rfl rfl⟩
  | back hmode _ hfree =>
    rw [mode_goto, if_pos rfl, hmode]
    exact ⟨.keep rfl rfl, .take hfree rfl rfl⟩
  | tidy hmode =>
    rw [mode_setThread, if_pos rfl, hmode]
    exact ⟨.keep rfl rfl, .drop rfl rfl rfl⟩
  | reacquire hmode hfree =>
    obtain ⟨_, _, hi⟩ := hlocked.resume p _ _ (by rw [hmode]; rfl)
    have hnew := (hd.sleep _ _ _ _ _ hi).2
    rw [mode_goto, if_pos rfl, hmode]
    exact ⟨.take _ hfree rfl hnew rfl, .keep rfl rfl⟩
  | wakeup hmode hi hfree =>
    rw [mode_goto, if_pos rfl, hmode]
    exact ⟨.keep rfl (hd.wakeup _ _ _ _ hi), .take hfree rfl rfl⟩
  | wake hmode =>
    rw [mode_goto, if_pos rfl, hmode]
    exact ⟨.keep rfl rfl, .keep rfl rfl⟩
  | kill hmode hi hfree =>
    rw [mode_goto, if_pos rfl, hmode]
    exact ⟨.keep rfl (hd.kill _ _ _ _ hi), .take hfree rfl rfl⟩
  | slay hmode =>
    rw [mode_goto, if_pos rfl, hmode]
    exact ⟨.keep rfl rfl, .keep rfl rfl⟩
  | leave hmode =>
    rw [mode_goto, if_pos rfl, hmode]
    exact ⟨.keep rfl rfl, .drop rfl rfl rfl⟩

theorem resume_of_step (hlocked : Locked prog holds s) (h : StepOf prog s p t) {m : μ} {k : π}
    (hk : (t.thread p).mode.resume = some (m, k)) : ∃ pc c, prog p pc = .sleep c m k := by
  have hold (hmode : (s.thread p).mode.resume = some (m, k)) := hlocked.resume p m k hmode
  cases h with
  | sleep hmode hi hfree =>
    rw [mode_goto, if_pos rfl] at hk
    cases hk
    exact ⟨_, _, hi⟩
  | handOver hmode | sched hmode | back hmode =>
    rw [mode_goto, if_pos rfl] at hk
    exact hold (by rw [hmode]; exact hk)
  | doze hmode | tidy hmode =>
    rw [mode_setThread, if_pos rfl] at hk
    exact hold (by rw [hmode]; exact hk)
  | _ =>
    rw [mode_goto, if_pos rfl] at hk
    cases hk

theorem Locked.step (hd : Disciplined prog holds) (h : Locked prog holds s)
    (hstep : StepOf prog s p t) : Locked prog holds t := by
  obtain ⟨hlock, htable⟩ := moves_of_step hd h hstep
  refine ⟨h.lock_move (fun q hq => hstep.mode_of_ne hq) hlock,
    h.table_move (fun q hq => hstep.mode_of_ne hq) htable, fun q m k hk => ?_⟩
  by_cases hq : q = p
  · subst hq
    exact resume_of_step h hstep hk
  · rw [hstep.mode_of_ne hq] at hk
    exact h.resume q m k hk

end

/-! The data and the points of the threads form a system of their own. -/

section

/-- The point where a thread stands, or where it goes on after `sleep`,
`wakeup` or `kill`. -/
def Mode.point : Mode ι μ κ π → π
  | .run k | .handOver _ _ k | .doze _ _ k | .sched _ k | .off _ k | .back _ k | .reacquire _ k
  | .wake _ k | .slay _ k | .leave k => k

/-- An instruction takes data `d` to `d'` and goes on at `k`. -/
inductive Goes (d : σ) : Instr ι μ κ σ π → σ → π → Prop where
  | acquire (m k) : Goes d (.acquire m k) d k
  | release (m k) : Goes d (.release m k) d k
  | act (f) : Goes d (.act f) (f d).1 (f d).2
  | sleep (c m k) : Goes d (.sleep c m k) d k
  | wakeup (c k) : Goes d (.wakeup c k) d k
  | kill (q k) : Goes d (.kill q k) d k
  | choose {allowed k} (hk : allowed d k) : Goes d (.choose allowed) d k

variable {prog : ι → π → Instr ι μ κ σ π} {holds : π → Option μ} {s t : State ι μ κ σ π} {p : ι}

/-- Outside `sleep` the lock held is the one of the point. -/
theorem Locked.holds_point (h : Locked prog holds s) (p : ι) :
    (s.thread p).mode.holds holds = holds (s.thread p).mode.point ∨
      ∃ pc c m, prog p pc = .sleep c m (s.thread p).mode.point := by
  cases hmode : (s.thread p).mode with
  | run pc | wake c k | slay q k | leave k => exact .inl rfl
  | handOver c m k | doze c m k | sched m k | off m k | back m k | reacquire m k =>
    obtain ⟨pc, c, hi⟩ := h.resume p m k (by rw [hmode]; rfl)
    exact .inr ⟨pc, c, m, hi⟩

theorem goes_of_step [DecidableEq ι] [DecidableEq μ] [DecidableEq κ] (h : StepOf prog s p t) :
    (t.data = s.data ∧ (t.thread p).mode.point = (s.thread p).mode.point) ∨
      ∃ pc, (s.thread p).mode = .run pc ∧ Goes s.data (prog p pc) t.data (t.thread p).mode.point := by
  cases h with
  | acquire hmode hi | release hmode hi | sleep hmode hi | wakeup hmode hi | kill hmode hi =>
    refine .inr ⟨_, hmode, ?_⟩
    rw [hi, mode_goto, if_pos rfl]
    constructor
  | act hmode hi =>
    refine .inr ⟨_, hmode, ?_⟩
    rw [hi, mode_goto, if_pos rfl]
    exact .act _
  | choose hmode hi hk =>
    refine .inr ⟨_, hmode, ?_⟩
    rw [hi, mode_goto, if_pos rfl]
    exact .choose hk
  | doze hmode | tidy hmode =>
    refine .inl ⟨rfl, ?_⟩
    rw [mode_setThread, if_pos rfl, hmode]
    rfl
  | handOver hmode | sched hmode | back hmode | reacquire hmode | wake hmode | slay hmode
  | leave hmode =>
    refine .inl ⟨rfl, ?_⟩
    rw [mode_goto, if_pos rfl, hmode]
    rfl

def State.points (s : State ι μ κ σ π) (p : ι) : π := (s.thread p).mode.point

/-- Where a lock is held there is one thread; a thread that waits in `sleep` is
excluded by its point. -/
theorem Locked.eq_of_points (h : Locked prog holds s) {q : ι} {m : μ}
    (hp : (s.thread p).mode.holds holds = some m) (hq : holds (s.points q) = some m)
    (hsleep : ∀ pc c m', prog q pc ≠ .sleep c m' (s.points q)) : q = p := by
  rcases h.holds_point q with hholds | ⟨pc, c, m', hi⟩
  · exact h.unique (hholds.trans hq) hp
  · exact absurd hi (hsleep pc c m')

/-- What the instructions keep of the data and the points, every step keeps. -/
theorem points_step [DecidableEq ι] [DecidableEq μ] [DecidableEq κ] {I : σ → (ι → π) → Prop}
    (hI : ∀ s p pc d k, Locked prog holds s → I s.data s.points → (s.thread p).mode = .run pc →
      Goes s.data (prog p pc) d k → I d (update s.points p k))
    (hlocked : Locked prog holds s) (h : I s.data s.points) (hstep : StepOf prog s p t) :
    I t.data t.points := by
  have hpoints : t.points = update s.points p (t.thread p).mode.point := by
    funext q
    by_cases hq : q = p
    · rw [hq, update_self]
      rfl
    · rw [update_of_ne hq]
      exact congrArg Mode.point (hstep.mode_of_ne hq)
  rw [hpoints]
  rcases goes_of_step hstep with ⟨hdata, hpoint⟩ | ⟨pc, hmode, hgoes⟩
  · have hsame : update s.points p (t.thread p).mode.point = s.points :=
      update_eq_self_iff.mpr hpoint
    rw [hdata, hsame]
    exact h
  · exact hI s p pc _ _ hlocked h hmode hgoes

end

/-! No wakeup is lost. -/

section

/-- Channel `c` is used with the lock `mon c`, and `due pc c` marks the points
whose next instruction is the `wakeup` that is owed to the sleepers on `c`. -/
structure Signals (prog : ι → π → Instr ι μ κ σ π) (holds : π → Option μ) (mon : κ → μ)
    (due : π → κ → Prop) : Prop where
  wakeup : ∀ p pc c k, prog p pc = .wakeup c k → holds pc = some (mon c)
  due : ∀ pc c, due pc c → ∀ p, ∃ k, prog p pc = .wakeup c k

/-- What has to hold where a thread stands: it goes to sleep only under its
condition, and where it ends a condition it goes to a point where the `wakeup`
is due. -/
structure Wakes (prog : ι → π → Instr ι μ κ σ π) (cond : κ → σ → Prop) (due : π → κ → Prop)
    (s : State ι μ κ σ π) : Prop where
  sleep : ∀ p pc c m k, (s.thread p).mode = .run pc → prog p pc = .sleep c m k → cond c s.data
  act : ∀ p pc f c, (s.thread p).mode = .run pc → prog p pc = .act f → cond c s.data →
    cond c (f s.data).1 ∨ due (f s.data).2 c

/-- A `wakeup` on `c` is under way. -/
def Pending (holds : π → Option μ) (mon : κ → μ) (due : π → κ → Prop) (s : State ι μ κ σ π)
    (c : κ) : Prop :=
  ∃ q, (∃ pc, (s.thread q).mode = .run pc ∧ due pc c) ∨
    ∃ k, (s.thread q).mode = .wake c k ∧ holds k = some (mon c)

/-- Thread `p` sleeps on `c`, or is on its way in `sleep`. -/
def Dozes (s : State ι μ κ σ π) (p : ι) (c : κ) : Prop :=
  (∃ m k, (s.thread p).mode = .handOver c m k ∨ (s.thread p).mode = .doze c m k) ∨ s.SleepsOn p c

def NoLoss (cond : κ → σ → Prop) (holds : π → Option μ) (mon : κ → μ) (due : π → κ → Prop)
    (s : State ι μ κ σ π) : Prop :=
  ∀ p c, Dozes s p c → cond c s.data ∨ Pending holds mon due s c

variable {prog : ι → π → Instr ι μ κ σ π} {holds : π → Option μ} {mon : κ → μ}
  {due : π → κ → Prop} {cond : κ → σ → Prop} {s t : State ι μ κ σ π} {p : ι}

theorem sleepsOn_setThread [DecidableEq ι] {th : Thread ι μ κ π} {q : ι} {c : κ}
    (h : (s.setThread p th).SleepsOn q c) :
    (q = p ∧ th.sleeping = true ∧ th.chan = some c) ∨ s.SleepsOn q c := by
  by_cases hq : q = p
  · simp only [SleepsOn, setThread, hq, update_self] at h
    exact .inl ⟨hq, h⟩
  · simp only [SleepsOn, setThread, update_of_ne hq] at h
    exact .inr h

theorem sleepsOn_goto [DecidableEq ι] {mode : Mode ι μ κ π} {q : ι} {c : κ}
    (h : (s.goto p mode).SleepsOn q c) : s.SleepsOn q c := by
  rcases sleepsOn_setThread h with ⟨rfl, hself⟩ | hother
  · exact hself
  · exact hother

theorem sleepsOn_wakeup1 [DecidableEq κ] {c c' : κ} {q : ι} (h : (s.wakeup1 c).SleepsOn q c') :
    s.SleepsOn q c' ∧ c' ≠ c := by
  unfold SleepsOn wakeup1 at h
  dsimp only at h
  split at h
  · cases h.1
  · next hnot =>
    refine ⟨h, ?_⟩
    rintro rfl
    exact hnot h

/-- A sleeper whose lock is free sleeps for a reason. -/
theorem NoLoss.reason (hsig : Signals prog holds mon due) (hlocked : Locked prog holds s)
    (h : NoLoss cond holds mon due s) {c : κ} (hfree : s.lock (mon c) = none)
    (hp : s.SleepsOn p c) : cond c s.data := by
  rcases h p c (Or.inr hp) with hc | ⟨q, hq⟩
  · exact hc
  · have hholds : (s.thread q).mode.holds holds = some (mon c) := by
      rcases hq with ⟨pc, hmode, hdue⟩ | ⟨k, hmode, hk⟩
      · obtain ⟨k, hi⟩ := hsig.due pc c hdue q
        rw [hmode]
        exact hsig.wakeup _ _ _ _ hi
      · rw [hmode]
        exact hk
    rw [(hlocked.lock (mon c) q).mpr hholds] at hfree
    cases hfree

variable [DecidableEq ι] [DecidableEq μ] [DecidableEq κ]

/-- A thread that sleeps or is about to did so before the step, or begins to. -/
theorem dozes_of_step (h : StepOf prog s p t) {q : ι} {c : κ} (hq : Dozes t q c) :
    Dozes s q c ∨ ∃ pc m k, (s.thread p).mode = .run pc ∧ prog p pc = .sleep c m k := by
  rcases hq with ⟨m, k, hmode⟩ | hsleeps
  · by_cases hqp : q = p
    · subst hqp
      cases h with
      | sleep hmode' hi =>
        rw [mode_goto, if_pos rfl] at hmode
        rcases hmode with hmode | hmode
        · cases hmode
          exact .inr ⟨_, _, _, hmode', hi⟩
        · cases hmode
      | handOver hmode' =>
        rw [mode_goto, if_pos rfl] at hmode
        rcases hmode with hmode | hmode
        · cases hmode
        · cases hmode
          exact .inl (Or.inl ⟨_, _, .inl hmode'⟩)
      | doze | tidy =>
        rw [mode_setThread, if_pos rfl] at hmode
        rcases hmode with hmode | hmode <;> cases hmode
      | _ =>
        rw [mode_goto, if_pos rfl] at hmode
        rcases hmode with hmode | hmode <;> cases hmode
    · rw [h.mode_of_ne hqp] at hmode
      exact .inl (Or.inl ⟨m, k, hmode⟩)
  · cases h with
    | doze hmode =>
      rcases sleepsOn_setThread hsleeps with ⟨rfl, _, hc⟩ | hother
      · cases hc
        exact .inl (Or.inl ⟨_, _, .inr hmode⟩)
      · exact .inl (Or.inr hother)
    | tidy =>
      rcases sleepsOn_setThread hsleeps with ⟨_, _, hc⟩ | hother
      · cases hc
      · exact .inl (Or.inr hother)
    | wake => exact .inl (Or.inr (sleepsOn_wakeup1 (sleepsOn_goto hsleeps)).1)
    | slay =>
      rcases sleepsOn_setThread (sleepsOn_goto hsleeps) with ⟨_, hself, _⟩ | hother
      · cases hself
      · exact .inl (Or.inr hother)
    | _ => exact .inl (Or.inr (sleepsOn_goto hsleeps))

theorem step_wake (h : StepOf prog s p t) {c : κ} {k : π}
    (hmode : (s.thread p).mode = .wake c k) : t = (s.wakeup1 c).goto p (.leave k) := by
  cases h <;> simp_all

theorem step_wakeup (h : StepOf prog s p t) {pc : π} {c : κ} {k : π}
    (hmode : (s.thread p).mode = .run pc) (hi : prog p pc = .wakeup c k) :
    t = { s with ptable := some p }.goto p (.wake c k) := by
  cases h <;> simp_all

theorem data_of_step (h : StepOf prog s p t) :
    t.data = s.data ∨ ∃ pc f, (s.thread p).mode = .run pc ∧ prog p pc = .act f ∧
      t = { s with data := (f s.data).1 }.goto p (.run (f s.data).2) := by
  cases h with
  | act hmode hi => exact .inr ⟨_, _, hmode, hi, rfl⟩
  | _ => exact .inl rfl

/-- After the scan of `wakeup` nobody sleeps on the channel or is about to. -/
theorem not_dozes_of_wake (hlocked : Locked prog holds s) (h : StepOf prog s p t) {c : κ} {k : π}
    (hmode : (s.thread p).mode = .wake c k) (q : ι) : ¬ Dozes t q c := by
  have htable := (hlocked.table p).mpr (by rw [hmode]; rfl)
  rw [step_wake h hmode]
  rintro (⟨m, k', hq⟩ | hq)
  · rw [mode_goto] at hq
    split at hq
    · rcases hq with hq | hq <;> cases hq
    · next hne =>
      -- a thread inside `sleep` would hold the table's lock as well
      rw [mode_wakeup1] at hq
      have hother := (hlocked.table q).mpr (by rcases hq with hq | hq <;> rw [hq] <;> rfl)
      exact hne (Option.some.inj (hother.symm.trans htable))
  · exact (sleepsOn_wakeup1 (sleepsOn_goto hq)).2 rfl

theorem Pending.step (hsig : Signals prog holds mon due) (hd : Disciplined prog holds)
    (h : StepOf prog s p t) {c : κ} (hc : Pending holds mon due s c)
    (hnot : ∀ k, (s.thread p).mode ≠ .wake c k) : Pending holds mon due t c := by
  obtain ⟨q, hq⟩ := hc
  refine ⟨q, ?_⟩
  by_cases hqp : q = p
  · subst hqp
    rcases hq with ⟨pc, hmode, hdue⟩ | ⟨k, hmode, _⟩
    · obtain ⟨k, hi⟩ := hsig.due pc c hdue q
      rw [step_wakeup h hmode hi, mode_goto, if_pos rfl]
      refine .inr ⟨k, rfl, ?_⟩
      rw [hd.wakeup _ _ _ _ hi]
      exact hsig.wakeup _ _ _ _ hi
    · exact absurd hmode (hnot k)
  · rw [h.mode_of_ne hqp]
    exact hq

/-- Where the condition of a channel ends, a `wakeup` is on its way. -/
theorem cond_of_step (hwakes : Wakes prog cond due s) (h : StepOf prog s p t) {c : κ}
    (hc : cond c s.data) : cond c t.data ∨ Pending holds mon due t c := by
  rcases data_of_step h with hdata | ⟨pc, f, hmode, hi, rfl⟩
  · rw [hdata]
    exact .inl hc
  · rcases hwakes.act p pc f c hmode hi hc with hc' | hdue
    · exact .inl hc'
    · exact .inr ⟨p, .inl ⟨_, by rw [mode_goto, if_pos rfl], hdue⟩⟩

theorem NoLoss.step (hsig : Signals prog holds mon due) (hd : Disciplined prog holds)
    (hlocked : Locked prog holds s) (hwakes : Wakes prog cond due s)
    (h : NoLoss cond holds mon due s) (hstep : StepOf prog s p t) : NoLoss cond holds mon due t := by
  intro q c hq
  by_cases hwake : ∃ k, (s.thread p).mode = .wake c k
  · obtain ⟨k, hmode⟩ := hwake
    exact absurd hq (not_dozes_of_wake hlocked hstep hmode q)
  · rcases dozes_of_step hstep hq with hold | ⟨pc, m, k, hmode, hi⟩
    · rcases h q c hold with hc | hpending
      · exact cond_of_step hwakes hstep hc
      · exact .inr (hpending.step hsig hd hstep fun k hk => hwake ⟨k, hk⟩)
    · exact cond_of_step hwakes hstep (hwakes.sleep p pc c m k hmode hi)

end

/-- The rule for runs: with an invariant of the data and the points that gives
`Wakes`, nobody sleeps without reason. -/
theorem noLoss_of_run [DecidableEq ι] [DecidableEq μ] [DecidableEq κ]
    {prog : ι → π → Instr ι μ κ σ π} {holds : π → Option μ} {mon : κ → μ} {due : π → κ → Prop}
    {cond : κ → σ → Prop} (hd : Disciplined prog holds) (hsig : Signals prog holds mon due)
    (I : σ → (ι → π) → Prop)
    (hwakes : ∀ s, Locked prog holds s → I s.data s.points → Wakes prog cond due s)
    (hI : ∀ s p pc d k, Locked prog holds s → I s.data s.points → (s.thread p).mode = .run pc →
      Goes s.data (prog p pc) d k → I d (update s.points p k))
    {data : σ} {pc : π} (hpc : holds pc = none) (hinit : I data fun _ => pc)
    {s : State ι μ κ σ π} (hrun : ReflTransGen (Step prog) (State.start data pc) s) :
    Locked prog holds s ∧ I s.data s.points ∧ NoLoss cond holds mon due s := by
  refine invariant_of_run
    (fun s => Locked prog holds s ∧ I s.data s.points ∧ NoLoss cond holds mon due s) hrun
    ⟨locked_start hpc, hinit, ?_⟩ ?_
  · rintro p c (⟨m, k, hmode⟩ | ⟨hsleeping, _⟩)
    · rcases hmode with hmode | hmode <;> cases hmode
    · cases hsleeping
  · rintro a b ⟨hlocked, hinv, hnoloss⟩ ⟨p, hstep⟩
    exact ⟨hlocked.step hd hstep, points_step hI hlocked hinv hstep,
      hnoloss.step hsig hd hlocked (hwakes a hlocked hinv) hstep⟩

end Xv6.Lib.Monitor

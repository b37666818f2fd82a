import Xv6.Sched.Setprio

/-!
The system calls that name a process by its pid. `kill`, `getprio` and
`setprio` stop at the first slot with the pid and do not look at its state, so
what they do for a pid that no process has depends on what the slots not in
use hold: pid 0 in a slot never used or reaped, and the pid of the process
that was to be in a slot where `allocproc` or `fork` ran out of memory.

A slot found so is marked for the process that gets it next: `allocproc` does
not reset `killed`.
-/

namespace Xv6.Sched

variable {t : Table} {p : Slot} {pid : Int}

namespace Table

/-- `getprio`, which returns -1 where there is no slot with the pid. -/
def getprio (t : Table) (pid : Int) : Option Nat := (t.find pid).map fun p => (t p).prio

def killed (q : Proc) : Proc :=
  { q with killed := true, state := if q.state = .SLEEPING then .RUNNABLE else q.state }

def NoProcess (t : Table) (pid : Int) : Prop := ∀ p, (t p).state ≠ .UNUSED → (t p).pid ≠ pid

/-- A call with a result and a new table changes the process with the pid by
`f` and nothing else, and without such a process fails and changes nothing. -/
def ChangesLive (t : Table) (pid : Int) (f : Proc → Proc) (call : Table × Bool) : Prop :=
  (∀ p, (t p).state ≠ .UNUSED → (t p).pid = pid → call = (t.set p f, true)) ∧
  (t.NoProcess pid → call = (t, false))

/-- The three calls act on the process with the pid only. -/
structure LiveCalls (t : Table) (pid : Int) (prio : Nat) : Prop where
  kill : t.ChangesLive pid killed (t.kill pid)
  setprio : t.ChangesLive pid (fun q => { q with prio := prio }) (t.setprio pid prio)
  getprio : (∀ p, (t p).state ≠ .UNUSED → (t p).pid = pid → t.getprio pid = some (t p).prio) ∧
    (t.NoProcess pid → t.getprio pid = none)

def NotStale (t : Table) (pid : Int) : Prop := ∀ p, (t p).state = .UNUSED → (t p).pid ≠ pid

/-- In a table whose pids differ, with no slot out of use holding the pid, the
first slot with the pid is that of the process. -/
theorem find_of_live (hpids : ∀ p q, (t p).state ≠ .UNUSED → (t p).pid = (t q).pid → p = q)
    (hp : (t p).state ≠ .UNUSED) : t.find (t p).pid = some p := by
  obtain ⟨q, hfind⟩ := find_isSome (t := t) (p := p) rfl
  have hpq : p = q := hpids p q hp (find_some hfind).symm
  rw [hfind, hpq]

theorem find_of_noProcess (hstale : t.NotStale pid)
    (hnone : t.NoProcess pid) : t.find pid = none := by
  cases hfind : t.find pid with
  | none => rfl
  | some p =>
    have hpid := find_some hfind
    by_cases hp : (t p).state = .UNUSED
    · exact absurd hpid (hstale p hp)
    · exact absurd hpid (hnone p hp)

theorem changesLive_of_find {f : Proc → Proc} {call : Table × Bool}
    (hpids : ∀ p q, (t p).state ≠ .UNUSED → (t p).pid = (t q).pid → p = q)
    (hstale : t.NotStale pid) (hsome : ∀ p, t.find pid = some p → call = (t.set p f, true))
    (hnone : t.find pid = none → call = (t, false)) : t.ChangesLive pid f call := by
  constructor
  · rintro p hp rfl
    exact hsome p (find_of_live hpids hp)
  · intro hno
    exact hnone (find_of_noProcess hstale hno)

theorem kill_of_find (h : t.find pid = some p) : t.kill pid = (t.set p killed, true) := by
  unfold find at h
  rw [Table.kill, h]
  rfl

theorem kill_of_find_none (h : t.find pid = none) : t.kill pid = (t, false) := by
  unfold find at h
  rw [Table.kill, h]

theorem setprio_of_find (h : t.find pid = some p)
    (prio : Nat) : t.setprio pid prio = (t.set p fun q => { q with prio := prio }, true) := by
  unfold find at h
  rw [Table.setprio, h]

theorem setprio_of_find_none (h : t.find pid = none) (prio : Nat) :
    t.setprio pid prio = (t, false) := by
  unfold find at h
  rw [Table.setprio, h]

/-- In a table whose pids differ the calls do what they should for a pid
exactly when no slot out of use holds it. -/
theorem liveCalls_iff (hpids : ∀ p q, (t p).state ≠ .UNUSED → (t p).pid = (t q).pid → p = q)
    (pid : Int) (prio : Nat) : t.LiveCalls pid prio ↔ t.NotStale pid := by
  constructor
  · intro hcalls p hp heq
    -- a process with the pid would be in the same slot
    have hno : t.NoProcess pid := by
      intro q hq hqpid
      have hqp := hpids q p hq (hqpid.trans heq.symm)
      rw [hqp] at hq
      exact hq hp
    obtain ⟨q, hfind⟩ := find_isSome heq
    have hfails := hcalls.kill.2 hno
    rw [kill_of_find hfind] at hfails
    cases congrArg Prod.snd hfails
  · intro hstale
    constructor
    · exact changesLive_of_find hpids hstale (fun _ => kill_of_find) kill_of_find_none
    · exact changesLive_of_find hpids hstale (fun _ h => setprio_of_find h prio)
        fun h => setprio_of_find_none h prio
    · constructor
      · rintro p hp rfl
        rw [Table.getprio, find_of_live hpids hp, Option.map_some]
      · intro hno
        rw [Table.getprio, find_of_noProcess hstale hno, Option.map_none]

end Table

namespace System

/-- In every table the machine reaches `kill`, `getprio` and `setprio` act on
the process with the pid only, and fail without changing anything where there
is none, exactly when no slot out of use holds that pid. -/
theorem live_calls_iff {n : Nat} {tr : List Event} {s : System} (h : Run (boot n) tr s)
    (pid : Int) (prio : Nat) : s.k.table.LiveCalls pid prio ↔ s.k.table.NotStale pid := by
  have hI : Inv s := (h.induct (fun _ _ => True) trivial fun _ _ _ _ _ _ _ => trivial).1
  exact Table.liveCalls_iff (fun p q hp heq => hI.view.pidInj p q (phase_of_used hp) heq) pid prio

/-- Once init runs, the calls do what they should for its pid. -/
theorem live_calls_init : ∃ tr s, Run (boot 0) tr s ∧ s.k.table.NotStale 1 ∧
    s.k.table.LiveCalls 1 HI_PRIO := by
  obtain ⟨tr, s, hrun, _, _, _, htable⟩ := firstTurn_run
  have hstale : s.k.table.NotStale 1 := by
    rw [htable]
    unfold Table.NotStale
    decide +kernel
  exact ⟨tr, s, run_of_acts hrun, hstale, (live_calls_iff (run_of_acts hrun) 1 HI_PRIO).mpr hstale⟩

/-- Init runs, calls `kill(0)` and then `fork`. -/
def killZeroActs : List Act := firstTurn ++
  [.kill 0 0, .forkAlloc 0, .forkStack 0, .forkDir 0 true, .forkParent 0, .forkDone 0]

/-- While init is the only process the calls succeed for pid 0, which no
process has, and the child that init makes after `kill(0)` is killed from the
start. -/
theorem kill_zero_hits_unused :
    (∃ tr s, Run (boot 0) tr s ∧ s.k.table.NoProcess 0 ∧ (s.k.table.kill 0).2 = true ∧
      (s.k.table.setprio 0 HI_PRIO).2 = true ∧ s.k.table.getprio 0 = some NORM_PRIO) ∧
    ∃ tr s p, (boot 2).runActs killZeroActs = some (tr, s) ∧ (s.k.table p).state = .RUNNABLE ∧
      (s.k.table p).pid = 2 ∧ (s.k.table p).killed = true := by
  constructor
  · obtain ⟨tr, s, hrun, _, _, _, htable⟩ := firstTurn_run
    refine ⟨tr, s, run_of_acts hrun, ?_⟩
    rw [htable]
    unfold Table.NoProcess
    decide +kernel
  · obtain ⟨⟨tr, s⟩, hrun⟩ := Option.isSome_iff_exists.mp
      (show ((boot 2).runActs killZeroActs).isSome = true by decide +kernel)
    have hchild : ((boot 2).runActs killZeroActs).map (fun r => ((r.2.k.table ⟨1, by decide⟩).state,
        (r.2.k.table ⟨1, by decide⟩).pid, (r.2.k.table ⟨1, by decide⟩).killed)) =
        some (.RUNNABLE, 2, true) := by decide +kernel
    rw [hrun] at hchild
    simp only [Option.map_some, Option.some.injEq, Prod.mk.injEq] at hchild
    exact ⟨tr, s, ⟨1, by decide⟩, hrun, hchild⟩

end System

end Xv6.Sched

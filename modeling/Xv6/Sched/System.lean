import Xv6.Sched.Lifecycle
import Xv6.Sched.Priority

/-!
The machine of processors and threads with what `fork`, `exec`, `exit` and
`wait` do between their acquisitions of `ptable.lock`. `fork` fills its slot in
stages without the lock, `exit` records the status long before the process
becomes a zombie and may sleep in between, and a thread that calls `sched`
stays on its kernel stack until the scheduler has run `switchkvm`.

Every step refines a step of the life cycle of processes.
-/

namespace Xv6.Sched

open Function List Option Multiset Kernel Table

/-- The zombie that a turn of `wait` frees. -/
def Table.zombieChild (t : Table) (cur : Slot) : Option Slot :=
  t.first fun q => q.parent == some cur && q.state == .ZOMBIE

/-- Whether `trap` lets a process die this way. -/
def Death.allowed (death : Death) (killed : Bool) : Bool :=
  match death with
  | .call _ => true
  | _ => killed

structure System where
  k : Kernel
  mem : Frames
  /-- how far the `fork` that fills the slot has got -/
  stage : Slot → ForkStage
  /-- the thread of the process is inside `exit` -/
  exiting : Slot → Bool
  /-- the process on whose stack and page directory a processor runs -/
  onStack : Nat → Option Slot

variable {p cur init : Slot} {k : Kernel} {c : Nat} {tr : List Event}

namespace System

inductive Act where
  | acquire (c : Nat)
  | scan (c : Nat)
  /-- behind `swtch`: the scheduler runs on its own stack -/
  | switchkvm (c : Nat)
  | unlock (c : Nat)
  | yield (c : Nat)
  /-- `sleep` outside `wait`; no other channel is a process -/
  | sleep (c : Nat) (addr : Nat)
  | wakeup (addr : Nat)
  | kill (c : Nat) (pid : Int)
  | setprio (c : Nat) (pid : Int) (prio : Nat)
  /-- `trap`: `myproc()->killed = 1` -/
  | fault (c : Nat)
  | wait (c : Nat)
  /-- `exit`: `curproc->exit_status = status` -/
  | exitBegin (c : Nat) (death : Death)
  /-- `exit` from `acquire(&ptable.lock)` on -/
  | exitEnd (c : Nat)
  /-- `allocproc`, the locked part -/
  | forkAlloc (c : Nat)
  /-- `allocproc`: `p->kstack = kalloc()` -/
  | forkStack (c : Nat)
  /-- `np->pgdir = copyuvm(...)`, which may run out of memory -/
  | forkDir (c : Nat) (ok : Bool)
  /-- `np->parent = curproc`, `np->prio` -/
  | forkParent (c : Nat)
  /-- `np->state = RUNNABLE` -/
  | forkDone (c : Nat)
  /-- `exec` commits to the page directory `f` it has built -/
  | exec (c : Nat) (f : Nat)
  /-- any other `kalloc` -/
  | kalloc
  /-- any other `kfree` -/
  | kfree (f : Nat)

/-- A turn of `wait` by `p` on table `t` led to `k`: free what it reaped. -/
def waited (s : System) (p : Slot) (t : Table) (k : Kernel) : System :=
  { s with k := k, mem := (t.zombieChild p).elim s.mem s.mem.reap }

/-- The table after `sleep` has returned in `p`. -/
def woken (s : System) (p : Slot) : Table := s.k.table.set p fun q => { q with chan := none }

def step (s : System) : Act → Option System
  | .acquire c => (s.k.step (.acquire c)).map fun k => { s with k := k }
  | .scan c =>
    if s.onStack c = none then
      (s.k.step (.scan c)).map fun k =>
        { s with k := k, onStack := update s.onStack c (k.running c) }
    else none
  | .switchkvm c =>
    if s.k.running c = none then some { s with onStack := update s.onStack c none }
    else none
  | .unlock c => do
      let p ← s.k.running c
      let k ← s.k.step (.unlock c)
      if (s.k.thread p).kont = .wait then some (s.waited p (s.woken p) k)
      else some { s with k := k }
  | .yield c => (s.k.step (.yield c)).map fun k => { s with k := k }
  | .sleep c addr => (s.k.step (.sleep c (.other addr))).map fun k => { s with k := k }
  | .wakeup addr => (s.k.step (.wakeup (.other addr))).map fun k => { s with k := k }
  | .kill c pid => (s.k.step (.kill c pid)).map fun k => { s with k := k }
  | .setprio c pid prio => (s.k.step (.setprio c pid prio)).map fun k => { s with k := k }
  | .fault c => do
      let p ← s.k.running c
      some { s with k := { s.k with table := s.k.table.set p fun q => { q with killed := true } } }
  | .wait c => do
      let p ← s.k.running c
      if s.exiting p then none
      else
        let k ← s.k.step (.wait c)
        some (s.waited p s.k.table k)
  | .exitBegin c death => do
      let p ← s.k.running c
      if s.k.lock = some c ∨ (s.k.thread p).embryo ≠ none ∨ s.exiting p ∨
          death.allowed (s.k.table p).killed = false then none
      else
        some { s with
          k := { s.k with
            table := s.k.table.set p fun q => { q with exitStatus := death.status.toInt } }
          exiting := update s.exiting p true }
  | .exitEnd c => do
      let p ← s.k.running c
      if s.exiting p then
        (s.k.step (.exit c (s.k.table p).exitStatus)).map fun k => { s with k := k }
      else none
  | .forkAlloc c => do
      let p ← s.k.running c
      if s.exiting p then none
      else
        let k ← s.k.step (.forkAlloc c)
        let np ← (k.thread p).embryo
        some { s with
          k := k
          stage := update s.stage np .proc
          exiting := update s.exiting np false }
  | .forkStack c => do
      let p ← s.k.running c
      let np ← (s.k.thread p).embryo
      if s.stage np = .proc ∧ s.k.lock ≠ some c then
        match s.mem.free with
        | f :: rest =>
          some { s with
            mem := s.mem.setStack np f rest
            stage := update s.stage np .stack }
        | [] => (s.k.step (.forkFail c)).map fun k => { s with k := k, mem := s.mem.noStack np }
      else none
  | .forkDir c ok => do
      let p ← s.k.running c
      let np ← (s.k.thread p).embryo
      if s.stage np = .stack ∧ s.k.lock ≠ some c then
        match ok, s.mem.free with
        | true, f :: rest =>
          some { s with
            mem := s.mem.setDir np f rest
            stage := update s.stage np .copied }
        | true, [] => none
        | false, _ => (s.k.step (.forkFail c)).map fun k => { s with k := k, mem := s.mem.noDir np }
      else none
  | .forkParent c => do
      let p ← s.k.running c
      let np ← (s.k.thread p).embryo
      if s.stage np = .copied then
        (s.k.step (.forkCopy c)).map fun k =>
          { s with k := k, stage := update s.stage np .ready }
      else none
  | .forkDone c => do
      let p ← s.k.running c
      let np ← (s.k.thread p).embryo
      if s.stage np = .ready then (s.k.step (.forkDone c)).map fun k => { s with k := k }
      else none
  | .exec c f => do
      let p ← s.k.running c
      if s.k.lock = some c ∨ (s.k.thread p).embryo ≠ none ∨ s.exiting p then none
      else if f ∈ s.mem.held then some { s with mem := s.mem.exec p f } else none
  | .kalloc =>
    match s.mem.free with
    | f :: rest => some { s with mem := { s.mem with free := rest, held := f :: s.mem.held } }
    | [] => none
  | .kfree f =>
    if f ∈ s.mem.held then
      some { s with mem := { s.mem with free := f :: s.mem.free, held := s.mem.held.erase f } }
    else none

/-- What a turn of `wait` by `p` on table `t` returns to its caller. -/
def waitEvents (t : Table) (p : Slot) : List Event :=
  match (t.wait p).2 with
  | .reaped pid status => [.reaped (t p).pid pid status]
  | .failed => [.failed (t p).pid]
  | .blocked => []

def emits (s : System) : Act → List Event
  | .unlock c =>
    (s.k.running c).elim [] fun p =>
      if (s.k.thread p).kont = .wait then waitEvents (s.woken p) p else []
  | .wait c => (s.k.running c).elim [] fun p => waitEvents s.k.table p
  | .exitBegin c death =>
    (s.k.running c).elim [] fun p => [.exit (s.k.table p).pid death]
  | .exitEnd c => (s.k.running c).elim [] fun p => [.dead (s.k.table p).pid]
  | .forkParent c =>
    (s.k.running c).elim [] fun p => (s.k.thread p).embryo.elim [] fun np =>
      [.fork (s.k.table p).pid (s.k.table np).pid]
  | _ => []

/-- After `userinit`, with `n` free pages. -/
def boot (n : Nat) : System where
  k := Kernel.boot
  mem :=
    { kstack := fun p => if p.val = 0 then some 0 else none
      pgdir := fun p => if p.val = 0 then some 1 else none
      free := List.range' 2 n
      held := [] }
  stage := fun _ => .ready
  exiting := fun _ => false
  onStack := fun _ => none

/-- A run of the machine with what the processes see of it. -/
inductive Run : System → List Event → System → Prop where
  | refl (s : System) : Run s [] s
  | tail {s t u : System} {tr : List Event} (hrun : Run s tr t) (a : Act)
      (hstep : t.step a = some u) : Run s (tr ++ t.emits a) u

def life (s : System) (q : Slot) : Life :=
  { (s.k.table q).core with exiting := s.exiting q, stage := s.stage q }

/-- The life cycle in the state of the machine. -/
def view (s : System) : View := ⟨s.life, s.k.nextpid, s.mem⟩

theorem phase_eq (s : System) (p : Slot) : (s.view.life p).phase = (s.k.table p).state.phase := rfl

theorem phase_of_used {s : System} (hp : (s.k.table p).state ≠ .UNUSED) :
    (s.view.life p).phase ≠ .free := by
  rw [phase_eq]
  cases hstate : (s.k.table p).state <;> simp [ProcState.phase]
  exact hp hstate

theorem view_congr {s s' : System} (hcore : ∀ q, (s'.k.table q).core = (s.k.table q).core)
    (hnext : s'.k.nextpid = s.k.nextpid) (hmem : s'.mem = s.mem) (hstage : s'.stage = s.stage)
    (hexiting : s'.exiting = s.exiting) : s'.view = s.view := by
  have hlife : s'.life = s.life := by
    funext q
    unfold life
    rw [hcore q, hstage, hexiting]
  unfold view
  rw [hlife, hnext, hmem]

theorem view_set (s s' : System) {l : Life}
    (hothers : ∀ q, q ≠ p → (s'.k.table q).core = (s.k.table q).core)
    (hstage : ∀ q, q ≠ p → s'.stage q = s.stage q)
    (hexiting : ∀ q, q ≠ p → s'.exiting q = s.exiting q) (hself : s'.life p = l) :
    s'.view = { s.view.set p l with nextpid := s'.k.nextpid, mem := s'.mem } := by
  have hlife : s'.life = (s.view.set p l).life := by
    funext q
    rw [View.set_life]
    split
    · next heq =>
      rw [heq]
      exact hself
    · next hne =>
      show s'.life q = s.life q
      unfold life
      rw [hothers q hne, hstage q hne, hexiting q hne]
  unfold view
  rw [hlife]
  rfl

end System

namespace Table

theorem core_set {t : Table} {f : Proc → Proc} (h : (f (t p)).core = (t p).core)
    (q : Slot) : (t.set p f q).core = (t q).core := by
  rcases eq_or_ne q p with rfl | hq
  · rw [set_self]
    exact h
  · rw [set_of_ne t f hq]

theorem set_exitStatus_self (t : Table) (p : Slot) :
    (t.set p fun q => { q with exitStatus := (t p).exitStatus }) = t :=
  update_eq_self p t

@[simp] theorem core_wakeup1 (t : Table) (chan : Chan) (q : Slot) :
    (t.wakeup1 chan q).core = (t q).core := by
  unfold wakeup1
  split
  · next hsleep => simp [Proc.core, hsleep.1, ProcState.phase]
  · rfl

theorem core_kill (t : Table) (pid : Int) (q : Slot) : ((t.kill pid).1 q).core = (t q).core := by
  unfold kill
  split
  · apply core_set
    unfold Proc.core
    simp only
    split
    · next hsleep => simp [hsleep, ProcState.phase]
    · rfl
  · rfl

theorem core_setprio (t : Table) (pid : Int) (prio : Nat) (q : Slot) :
    ((t.setprio pid prio).1 q).core = (t q).core := by
  unfold setprio
  split
  · apply core_set
    rfl
  · rfl

/-- One iteration of the loop in `exit`. -/
def adopt (cur init : Slot) (t : Table) (p : Slot) : Table :=
  if (t p).parent = some cur then
    let t := t.set p fun q => { q with parent := some init }
    if (t p).state = .ZOMBIE then t.wakeup1 (.proc init) else t
  else t

theorem reparent_eq (t : Table) (cur init : Slot) :
    t.reparent cur init = (List.finRange NPROC).foldl (adopt cur init) t := rfl

theorem core_adopt (cur init : Slot) (t : Table) (p q : Slot) :
    (adopt cur init t p q).core = if q = p then (t q).core.adopted cur init else (t q).core := by
  unfold adopt
  split
  · next hchild =>
    have hset : (t.set p (fun q => { q with parent := some init }) q).core =
        if q = p then (t q).core.adopted cur init else (t q).core := by
      rcases eq_or_ne q p with rfl | hq
      · rw [set_self, if_pos rfl]
        simp [Core.adopted, Proc.core, hchild]
      · rw [set_of_ne t _ hq, if_neg hq]
    simp only
    split
    · rw [core_wakeup1]
      exact hset
    · exact hset
  · next hother =>
    split
    · next heq =>
      subst heq
      simp [Core.adopted, Proc.core, hother]
    · rfl

theorem core_reparent (t : Table) (hne : cur ≠ init) (q : Slot) :
    (t.reparent cur init q).core = (t q).core.adopted cur init := by
  have hfold (slots : List Slot) (t : Table) : (slots.foldl (adopt cur init) t q).core =
      if q ∈ slots then (t q).core.adopted cur init else (t q).core := by
    induction slots generalizing t with
    | nil => rfl
    | cons p rest ih =>
      rw [List.foldl_cons, ih, core_adopt]
      by_cases hp : q = p <;> by_cases hr : q ∈ rest <;>
        simp [hp, hr, Core.adopted_adopted _ hne]
  rw [reparent_eq, hfold, if_pos (mem_finRange q)]

theorem core_exit (t : Table) (hne : cur ≠ init) (q : Slot) :
    (t.exit cur init q).core = { (t q).core.adopted cur init with
      phase := if q = cur then .zombie else (t q).core.phase } := by
  have hwake (t' : Table) (ht : ∀ q, (t' q).core = (t q).core) :
      ((t'.reparent cur init).set cur (fun q => { q with state := .ZOMBIE }) q).core =
        { (t q).core.adopted cur init with
          phase := if q = cur then .zombie else (t q).core.phase } := by
    have hadopt := core_reparent t' hne q
    rw [ht q] at hadopt
    rcases eq_or_ne q cur with rfl | hq
    · rw [set_self, if_pos rfl, ← hadopt]
      rfl
    · rw [set_of_ne _ _ hq, if_neg hq, hadopt]
      rfl
  unfold exit
  simp only
  split
  · exact hwake _ fun q => core_wakeup1 t _ q
  · exact hwake _ fun _ => rfl

theorem exit_of_childless {t : Table} {parent : Slot}
    (hparent : (t cur).parent = some parent) (hnone : ∀ q, (t q).parent ≠ some cur) :
    t.exit cur init = (t.wakeup1 (.proc parent)).set cur fun q => { q with state := .ZOMBIE } := by
  have hwake (q : Slot) : (t.wakeup1 (.proc parent) q).parent ≠ some cur := by
    rw [← Proc.core_parent, core_wakeup1]
    exact hnone q
  have hfold (slots : List Slot) : slots.foldl (adopt cur init) (t.wakeup1 (.proc parent)) =
      t.wakeup1 (.proc parent) := by
    induction slots with
    | nil => rfl
    | cons p rest ih =>
      rw [List.foldl_cons, adopt, if_neg (hwake p)]
      exact ih
  unfold exit
  rw [hparent]
  simp only [reparent_eq]
  rw [hfold]

theorem wait_cases (t : Table) (p : Slot) :
    (∃ q, t.zombieChild p = some q ∧ (t q).parent = some p ∧ (t q).state = .ZOMBIE ∧
      t.wait p = (t.set q fun r =>
        { r with pid := 0, parent := none, killed := false, state := .UNUSED },
        .reaped (t q).pid (t q).exitStatus)) ∨
    (t.zombieChild p = none ∧ t.wait p = (t, .failed) ∧
      ((∀ q, (t q).parent ≠ some p) ∨ (t p).killed = true)) ∨
    t.zombieChild p = none ∧ t.wait p = (t, .blocked) := by
  cases hfound : t.zombieChild p with
  | some q =>
    refine .inl ⟨q, rfl, ?_⟩
    have htest := first_some hfound
    simp only [Bool.and_eq_true, beq_iff_eq] at htest
    refine ⟨htest.1, htest.2, ?_⟩
    unfold wait
    unfold zombieChild at hfound
    rw [hfound]
  | none =>
    refine .inr ?_
    unfold wait
    unfold zombieChild at hfound
    rw [hfound]
    simp only
    split
    · next hfail =>
      refine .inl ⟨trivial, rfl, ?_⟩
      simp only [Bool.or_eq_true, Bool.not_eq_true', List.any_eq_false, beq_iff_eq] at hfail
      exact hfail.imp (fun hno q => hno q (mem_finRange q)) id
    · exact .inr ⟨trivial, rfl⟩

end Table

namespace Kernel

theorem waitTurn_nextpid (k : Kernel) (c : Nat) (p : Slot) :
    (k.waitTurn c p).nextpid = k.nextpid := by
  unfold waitTurn
  split <;> rfl

theorem waitTurn_table (c : Nat) (hrun : (k.table p).state = .RUNNING)
    (q : Slot) : ((k.waitTurn c p).table q).core = ((k.table.wait p).1 q).core := by
  unfold waitTurn
  split
  · next t hwait =>
    rcases k.table.wait_cases p with ⟨_, _, _, _, heq⟩ | ⟨_, heq, _⟩ | ⟨_, heq⟩
    · rw [heq] at hwait
      cases hwait
    · rw [heq] at hwait
      cases hwait
    · rw [heq] at hwait ⊢
      cases hwait
      refine core_set ?_ q
      simp [Proc.core, hrun, ProcState.phase]
  · next t _ _ hwait =>
    rw [hwait]

theorem step_initproc {k' : Kernel} {a : Act} (h : k.step a = some k') :
    k'.initproc = k.initproc := by
  have hwait (k1 : Kernel) (c : Nat) (p : Slot) : (k1.waitTurn c p).initproc = k1.initproc := by
    unfold waitTurn
    split <;> rfl
  cases a <;> simp only [step, scan] at h <;> repeat' first
    | simp only [bind_eq_bind, bind_eq_some_iff] at h
    | obtain ⟨_, _, h⟩ : ∃ _, _ ∧ _ := h
    | split at h
  all_goals cases h
  all_goals first
    | rfl
    | exact hwait _ _ _

end Kernel

namespace System

theorem effect_of_same {s s' : System} {ev : List Event}
    (hcore : ∀ q, (s'.k.table q).core = (s.k.table q).core)
    (hnext : s'.k.nextpid = s.k.nextpid) (hmem : s'.mem = s.mem) (hstage : s'.stage = s.stage)
    (hexiting : s'.exiting = s.exiting)
    (heffect : View.Effect s.k.initproc s.view ev s.view) :
    View.Effect s.k.initproc s.view ev s'.view := by
  rw [view_congr hcore hnext hmem hstage hexiting]
  exact heffect

theorem quiet_effect {s s' : System} (hcore : ∀ q, (s'.k.table q).core = (s.k.table q).core)
    (hnext : s'.k.nextpid = s.k.nextpid) (hmem : s'.mem = s.mem) (hstage : s'.stage = s.stage)
    (hexiting : s'.exiting = s.exiting) : View.Effect s.k.initproc s.view [] s'.view :=
  effect_of_same hcore hnext hmem hstage hexiting (.quiet _)

theorem effect_of_slot {s s' : System} {ev : List Event} {l : Life}
    (hothers : ∀ q, q ≠ p → (s'.k.table q).core = (s.k.table q).core)
    (hstage : ∀ q, q ≠ p → s'.stage q = s.stage q)
    (hexiting : ∀ q, q ≠ p → s'.exiting q = s.exiting q) (hself : s'.life p = l)
    (heffect : View.Effect s.k.initproc s.view ev
      { s.view.set p l with nextpid := s'.k.nextpid, mem := s'.mem }) :
    View.Effect s.k.initproc s.view ev s'.view := by
  rw [view_set s s' hothers hstage hexiting hself]
  exact heffect

theorem wait_effect {s : System} {k1 : Kernel} (c : Nat)
    (hcore : ∀ q, (k1.table q).core = (s.k.table q).core) (hnext : k1.nextpid = s.k.nextpid)
    (hrun : (k1.table p).state = .RUNNING) :
    View.Effect s.k.initproc s.view (waitEvents k1.table p)
      (s.waited p k1.table (k1.waitTurn c p)).view := by
  have hpid (q : Slot) : (k1.table q).pid = (s.k.table q).pid := congrArg Core.pid (hcore q)
  have hnext' : (k1.waitTurn c p).nextpid = s.k.nextpid := (k1.waitTurn_nextpid c p).trans hnext
  have htable := waitTurn_table c hrun
  have hevents := waitEvents.eq_def k1.table p
  rcases k1.table.wait_cases p with
    ⟨q, hfound, hparent, hzombie, heq⟩ | ⟨hnone, heq, _⟩ | ⟨hnone, heq⟩
  · have hexit : (k1.table q).exitStatus = (s.k.table q).exitStatus :=
      congrArg Core.exitStatus (hcore q)
    have hphase : (s.life q).phase = .zombie := by
      refine (congrArg Core.phase (hcore q)).symm.trans ?_
      simp [Proc.core, hzombie, ProcState.phase]
    rw [heq] at hevents htable
    simp only [hpid, hexit] at hevents
    rw [hevents]
    refine effect_of_slot (p := q)
      (l := { s.life q with phase := .free, pid := 0, parent := none })
      (fun r hr => ?_) (fun _ _ => rfl) (fun _ _ => rfl) ?_ ?_
    · refine (htable r).trans ?_
      simp only [Table.set_of_ne _ _ hr]
      exact hcore r
    · have hself : ((k1.waitTurn c p).table q).core = ⟨.free, 0, none, (s.k.table q).exitStatus⟩ := by
        rw [htable q, ← hexit]
        simp [Proc.core, ProcState.phase]
      simp only [life, waited]
      rw [hself]
      rfl
    · simp only [waited, hfound, hnext', elim_some]
      exact .reap s.view p q hphase ((congrArg Core.parent (hcore q)).symm.trans hparent)
  · rw [heq] at hevents htable
    rw [hevents]
    refine effect_of_same (fun q => (htable q).trans (hcore q)) hnext' ?_ rfl rfl (.failed _ _)
    simp [waited, hnone]
  · rw [heq] at hevents htable
    rw [hevents]
    refine quiet_effect (fun q => (htable q).trans (hcore q)) hnext' ?_ rfl rfl
    simp [waited, hnone]

theorem scan_core {k' : Kernel} (h : k.scan c = some k') :
    (∀ q, (k'.table q).core = (k.table q).core) ∧ k'.nextpid = k.nextpid := by
  obtain ⟨hnext, htable⟩ := scan_table h
  refine ⟨fun q => ?_, hnext⟩
  rcases htable with heq | ⟨p, hready, heq⟩
  · rw [heq]
  · rw [heq]
    refine core_set ?_ q
    simp [Proc.core, hready, ProcState.phase]

theorem alive_of_running {s : System} (hI : s.k.Inv)
    (hrun : s.k.running c = some p) : (s.view.life p).phase = .alive := by
  simp [view, life, Proc.core, hI.run c p hrun, ProcState.phase]

theorem embryo_of_fork {s : System} (hI : s.k.Inv) {np : Slot}
    (hnp : (s.k.thread p).embryo = some np) : (s.view.life np).phase = .embryo := by
  simp [view, life, Proc.core, hI.embryo p np hnp, ProcState.phase]

theorem forkFail_effect {s : System} {np : Slot} {m : Frames}
    (hrun : s.k.running c = some p) (hnp : (s.k.thread p).embryo = some np)
    (hk : s.k.step (.forkFail c) = some k)
    (heffect : View.Effect s.k.initproc s.view []
      { s.view.set np { s.life np with phase := .free } with mem := m }) :
    View.Effect s.k.initproc s.view [] ({ s with k := k, mem := m } : System).view := by
  have hk := bind_of_some hk hrun
  have hk := bind_of_some hk hnp
  split at hk <;> cases hk
  refine effect_of_slot (p := np) (fun q hq => by simp [Kernel.setThread, Table.set_of_ne _ _ hq])
    (fun _ _ => rfl) (fun _ _ => rfl) ?_ heffect
  simp [life, Proc.core, Kernel.setThread, ProcState.phase]

theorem exit_view (s : System) (c : Nat) (hne : p ≠ s.k.initproc) : s.view.exit s.k.initproc p =
      ({ s with k := ({ s.k with table := (s.k.table.set p fun q =>
        { q with exitStatus := (s.k.table p).exitStatus }).exit p s.k.initproc }).resume c } :
        System).view := by
  unfold view View.exit
  congr 1
  funext q
  simp only [life, Kernel.resume, Kernel.setCpu, set_exitStatus_self]
  rw [core_exit s.k.table hne q]
  rfl

/-- The machine refines the life cycle: every step is one of its steps, with
the same events. -/
theorem step_effect {s s' : System} {a : Act} (hI : s.k.Inv) (h : s.step a = some s') :
    View.Effect s.k.initproc s.view (s.emits a) s'.view := by
  cases a with
  | acquire c =>
    obtain ⟨k, hk, rfl⟩ := map_eq_some_iff.mp h
    simp only [Kernel.step] at hk
    split at hk <;> cases hk
    exact quiet_effect (fun _ => rfl) rfl rfl rfl rfl
  | scan c =>
    simp only [step] at h
    split at h
    · obtain ⟨k, hk, rfl⟩ := map_eq_some_iff.mp h
      simp only [Kernel.step] at hk
      split at hk
      · obtain ⟨hcore, hnext⟩ := scan_core hk
        exact quiet_effect hcore hnext rfl rfl rfl
      · cases hk
    · cases h
  | switchkvm c =>
    simp only [step] at h
    split at h <;> cases h
    exact quiet_effect (fun _ => rfl) rfl rfl rfl rfl
  | unlock c =>
    obtain ⟨p, hrun, k, hk, h⟩ := bind_bind_eq_some h
    have hk := bind_of_some hk hrun
    have hwoken (q : Slot) : (s.woken p q).core = (s.k.table q).core := core_set rfl q
    simp only [emits, hrun, elim_some]
    split at hk
    · split at h
      · next hkont =>
        rw [hkont] at hk
        cases h
        cases hk
        rw [if_pos hkont]
        have hstate : (s.woken p p).state = .RUNNING := by
          rw [show (s.woken p p).state = (s.k.table p).state by simp [woken]]
          exact hI.run c p hrun
        exact @wait_effect p s { s.k with table := s.woken p } c hwoken rfl hstate
      · next hkont =>
        cases h
        rw [if_neg hkont]
        split at hk
        · cases hk
          exact quiet_effect (fun _ => rfl) rfl rfl rfl rfl
        · cases hk
          exact quiet_effect hwoken rfl rfl rfl rfl
        · next hwait => exact absurd hwait hkont
    · cases hk
  | yield c =>
    obtain ⟨k, hk, rfl⟩ := map_eq_some_iff.mp h
    obtain ⟨p, hrun, hk⟩ := bind_eq_some_iff.mp hk
    split at hk <;> cases hk
    refine quiet_effect (fun q => core_set ?_ q) rfl rfl rfl rfl
    simp [Proc.core, hI.run c p hrun, ProcState.phase]
  | sleep c addr =>
    obtain ⟨k, hk, rfl⟩ := map_eq_some_iff.mp h
    obtain ⟨p, hrun, hk⟩ := bind_eq_some_iff.mp hk
    split at hk <;> cases hk
    refine quiet_effect (fun q => core_set ?_ q) rfl rfl rfl rfl
    simp [Proc.core, hI.run c p hrun, ProcState.phase]
  | wakeup addr =>
    obtain ⟨k, hk, rfl⟩ := map_eq_some_iff.mp h
    simp only [Kernel.step] at hk
    split at hk <;> cases hk
    exact quiet_effect (fun q => core_wakeup1 _ _ q) rfl rfl rfl rfl
  | kill c pid =>
    obtain ⟨k, hk, rfl⟩ := map_eq_some_iff.mp h
    obtain ⟨p, hrun, hk⟩ := bind_eq_some_iff.mp hk
    split at hk <;> cases hk
    exact quiet_effect (fun q => core_kill _ _ q) rfl rfl rfl rfl
  | setprio c pid prio =>
    obtain ⟨k, hk, rfl⟩ := map_eq_some_iff.mp h
    obtain ⟨p, hrun, hk⟩ := bind_eq_some_iff.mp hk
    split at hk <;> cases hk
    exact quiet_effect (fun q => core_setprio _ _ _ q) rfl rfl rfl rfl
  | fault c =>
    obtain ⟨p, hrun, h⟩ := bind_eq_some_iff.mp h
    cases h
    exact quiet_effect (fun q => core_set rfl q) rfl rfl rfl rfl
  | wait c =>
    obtain ⟨p, hrun, h⟩ := bind_eq_some_iff.mp h
    split at h
    · cases h
    · obtain ⟨k, hk, h⟩ := bind_eq_some_iff.mp h
      cases h
      have hk := bind_of_some hk hrun
      simp only [emits, hrun, elim_some]
      split at hk <;> cases hk
      exact wait_effect c (fun _ => rfl) rfl (hI.run c p hrun)
  | exitBegin c death =>
    obtain ⟨p, hrun, h⟩ := bind_eq_some_iff.mp h
    split at h
    · cases h
    · next hguard =>
      cases h
      push Not at hguard
      simp only [emits, hrun, elim_some]
      refine effect_of_slot (fun q hq => by simp [Table.set_of_ne _ _ hq]) (fun _ _ => rfl)
        (fun q hq => update_of_ne hq _ _) ?_
        (.exitBegin s.view p death (alive_of_running hI hrun) (Bool.eq_false_iff.mpr hguard.2.2.1))
      simp [view, life, Proc.core]
  | exitEnd c =>
    obtain ⟨p, hrun, h⟩ := bind_eq_some_iff.mp h
    split at h
    · next hexiting =>
      obtain ⟨k, hk, rfl⟩ := map_eq_some_iff.mp h
      have hk := bind_of_some hk hrun
      simp only [emits, hrun, elim_some]
      split at hk
      · next hguard =>
        cases hk
        refine (exit_view s c hguard.2.2) ▸ ?_
        exact .exitEnd s.view p (alive_of_running hI hrun) hexiting hguard.2.2
      · cases hk
    · cases h
  | forkAlloc c =>
    obtain ⟨p, hrun, h⟩ := bind_eq_some_iff.mp h
    split at h
    · cases h
    · obtain ⟨k, hk, np, hnp, h⟩ := bind_bind_eq_some h
      cases h
      have hk := bind_of_some hk hrun
      split at hk
      · obtain ⟨⟨np', t⟩, halloc, hk⟩ := bind_eq_some_iff.mp hk
        cases hk
        simp only [Kernel.setThread, update_self, Option.some.injEq] at hnp
        subst hnp
        unfold Table.allocproc at halloc
        split at halloc
        · next np hfirst =>
          cases halloc
          have hunused : (s.k.table np').state = .UNUSED := by
            simpa using first_some hfirst
          refine effect_of_slot (fun q hq => by simp [Kernel.setThread, Table.set_of_ne _ _ hq])
            (fun q hq => update_of_ne hq _ _)
            (fun q hq => update_of_ne hq _ _) ?_
            (.alloc s.view np' (by simp [view, life, Proc.core, hunused, ProcState.phase]))
          simp [view, life, Proc.core, Kernel.setThread, ProcState.phase]
        · cases halloc
      · cases hk
  | forkStack c =>
    obtain ⟨p, hrun, np, hnp, h⟩ := bind_bind_eq_some h
    have hembryo := embryo_of_fork hI hnp
    split at h
    · next hguard =>
      split at h
      · next f rest hfree =>
        cases h
        refine effect_of_slot (fun _ _ => rfl) (fun q hq => update_of_ne hq _ _)
          (fun _ _ => rfl) ?_ (.stack s.view np f rest hembryo hguard.1 hfree)
        simp [view, life]
      · obtain ⟨k, hk, rfl⟩ := map_eq_some_iff.mp h
        exact forkFail_effect hrun hnp hk (.noStack s.view np hembryo hguard.1)
    · cases h
  | forkDir c ok =>
    obtain ⟨p, hrun, np, hnp, h⟩ := bind_bind_eq_some h
    have hembryo := embryo_of_fork hI hnp
    split at h
    · next hguard =>
      split at h
      · next f rest hfree _ =>
        cases h
        refine effect_of_slot (fun _ _ => rfl) (fun q hq => update_of_ne hq _ _)
          (fun _ _ => rfl) ?_ (.dir s.view np f rest hembryo hguard.1 hfree)
        simp [view, life]
      · cases h
      · obtain ⟨k, hk, rfl⟩ := map_eq_some_iff.mp h
        exact forkFail_effect hrun hnp hk (.noDir s.view np hembryo hguard.1)
    · cases h
  | forkParent c =>
    obtain ⟨p, hrun, np, hnp, h⟩ := bind_bind_eq_some h
    have hembryo := embryo_of_fork hI hnp
    split at h
    · next hstage =>
      obtain ⟨k, hk, rfl⟩ := map_eq_some_iff.mp h
      have hk := bind_of_some hk hrun
      have hk := bind_of_some hk hnp
      split at hk <;> cases hk
      simp only [emits, hrun, hnp, elim_some]
      refine effect_of_slot (fun q hq => by simp [Table.set_of_ne _ _ hq])
        (fun q hq => update_of_ne hq _ _) (fun _ _ => rfl) ?_
        (.parent s.view p np (alive_of_running hI hrun) hembryo hstage)
      simp [view, life, Proc.core]
    · cases h
  | forkDone c =>
    obtain ⟨p, hrun, np, hnp, h⟩ := bind_bind_eq_some h
    have hembryo := embryo_of_fork hI hnp
    split at h
    · next hstage =>
      obtain ⟨k, hk, rfl⟩ := map_eq_some_iff.mp h
      have hk := bind_of_some hk hrun
      have hk := bind_of_some hk hnp
      split at hk <;> cases hk
      refine effect_of_slot (fun q hq => by simp [Kernel.setThread, Table.set_of_ne _ _ hq])
        (fun _ _ => rfl) (fun _ _ => rfl) ?_ (.done s.view np hembryo hstage)
      simp [view, life, Proc.core, Kernel.setThread, ProcState.phase]
    · cases h
  | exec c f =>
    obtain ⟨p, hrun, h⟩ := bind_eq_some_iff.mp h
    split at h
    · cases h
    · split at h
      · next hf =>
        cases h
        exact .exec s.view p f (alive_of_running hI hrun) hf
      · cases h
  | kalloc =>
    simp only [step] at h
    split at h
    · next f rest hfree =>
      cases h
      exact .kalloc s.view f rest hfree
    · cases h
  | kfree f =>
    simp only [step] at h
    split at h
    · next hf =>
      cases h
      exact .kfree s.view f hf
    · cases h

/-- What the step `a` does to the processors and threads. -/
inductive KernelMove (s : System) (a : Act) (s' : System) : Prop where
  | same (hk : s'.k = s.k) (hstack : s'.onStack = s.onStack)
  | scan (c : Nat) (hc : s.onStack c = none) (h : s.k.step (.scan c) = some s'.k)
      (hstack : s'.onStack = update s.onStack c (s'.k.running c))
  | switchkvm (c : Nat) (hc : s.k.running c = none) (hk : s'.k = s.k)
      (hstack : s'.onStack = update s.onStack c none)
  /-- any other step of that machine; outside `wait` nobody sleeps on a process -/
  | step (b : Kernel.Act) (hscan : ∀ c, b ≠ .scan c) (hsleep : ∀ c p, b ≠ .sleep c (.proc p))
      (hprio : ∀ c pid prio, b = .setprio c pid prio → a = .setprio c pid prio)
      (h : s.k.step b = some s'.k) (hstack : s'.onStack = s.onStack)
  /-- the running process changes only its `killed` or `exit_status` -/
  | mark (p : Slot) (killed : Bool) (status : Int)
      (hk : s'.k = { s.k with table := s.k.table.set p fun q =>
        { q with killed := killed, exitStatus := status } }) (hstack : s'.onStack = s.onStack)

theorem step_kernel {s s' : System} {a : Act} (h : s.step a = some s') : KernelMove s a s' := by
  cases a with
  | acquire c =>
    obtain ⟨k, hk, rfl⟩ := map_eq_some_iff.mp h
    exact .step _ (by simp) (by simp) (by simp) hk rfl
  | scan c =>
    simp only [step] at h
    split at h
    · next hc =>
      obtain ⟨k, hk, rfl⟩ := map_eq_some_iff.mp h
      exact .scan c hc hk rfl
    · cases h
  | switchkvm c =>
    simp only [step] at h
    split at h
    · next hc =>
      cases h
      exact .switchkvm c hc rfl rfl
    · cases h
  | unlock c =>
    obtain ⟨p, hrun, k, hk, h⟩ := bind_bind_eq_some h
    split at h <;> cases h <;> exact .step _ (by simp) (by simp) (by simp) hk rfl
  | yield c =>
    obtain ⟨k, hk, rfl⟩ := map_eq_some_iff.mp h
    exact .step _ (by simp) (by simp) (by simp) hk rfl
  | sleep c addr =>
    obtain ⟨k, hk, rfl⟩ := map_eq_some_iff.mp h
    exact .step _ (by simp) (by simp) (by simp) hk rfl
  | wakeup addr =>
    obtain ⟨k, hk, rfl⟩ := map_eq_some_iff.mp h
    exact .step _ (by simp) (by simp) (by simp) hk rfl
  | kill c pid =>
    obtain ⟨k, hk, rfl⟩ := map_eq_some_iff.mp h
    exact .step _ (by simp) (by simp) (by simp) hk rfl
  | setprio c pid prio =>
    obtain ⟨k, hk, rfl⟩ := map_eq_some_iff.mp h
    exact .step _ (by simp) (by simp) (by simp) hk rfl
  | fault c =>
    obtain ⟨p, hrun, h⟩ := bind_eq_some_iff.mp h
    cases h
    exact .mark p true (s.k.table p).exitStatus (by simp [Table.set]) rfl
  | wait c =>
    obtain ⟨p, hrun, h⟩ := bind_eq_some_iff.mp h
    split at h
    · cases h
    · obtain ⟨k, hk, h⟩ := bind_eq_some_iff.mp h
      cases h
      exact .step _ (by simp) (by simp) (by simp) hk rfl
  | exitBegin c death =>
    obtain ⟨p, hrun, h⟩ := bind_eq_some_iff.mp h
    split at h <;> cases h
    exact .mark p (s.k.table p).killed death.status.toInt (by simp [Table.set]) rfl
  | exitEnd c =>
    obtain ⟨p, hrun, h⟩ := bind_eq_some_iff.mp h
    split at h
    · obtain ⟨k, hk, rfl⟩ := map_eq_some_iff.mp h
      exact .step _ (by simp) (by simp) (by simp) hk rfl
    · cases h
  | forkAlloc c =>
    obtain ⟨p, hrun, h⟩ := bind_eq_some_iff.mp h
    split at h
    · cases h
    · obtain ⟨k, hk, np, hnp, h⟩ := bind_bind_eq_some h
      cases h
      exact .step _ (by simp) (by simp) (by simp) hk rfl
  | forkStack c =>
    obtain ⟨p, hrun, np, hnp, h⟩ := bind_bind_eq_some h
    split at h
    · split at h
      · cases h
        exact .same rfl rfl
      · obtain ⟨k, hk, rfl⟩ := map_eq_some_iff.mp h
        exact .step _ (by simp) (by simp) (by simp) hk rfl
    · cases h
  | forkDir c ok =>
    obtain ⟨p, hrun, np, hnp, h⟩ := bind_bind_eq_some h
    split at h
    · split at h
      · cases h
        exact .same rfl rfl
      · cases h
      · obtain ⟨k, hk, rfl⟩ := map_eq_some_iff.mp h
        exact .step _ (by simp) (by simp) (by simp) hk rfl
    · cases h
  | forkParent c =>
    obtain ⟨p, hrun, np, hnp, h⟩ := bind_bind_eq_some h
    split at h
    · obtain ⟨k, hk, rfl⟩ := map_eq_some_iff.mp h
      exact .step _ (by simp) (by simp) (by simp) hk rfl
    · cases h
  | forkDone c =>
    obtain ⟨p, hrun, np, hnp, h⟩ := bind_bind_eq_some h
    split at h
    · obtain ⟨k, hk, rfl⟩ := map_eq_some_iff.mp h
      exact .step _ (by simp) (by simp) (by simp) hk rfl
    · cases h
  | exec c f =>
    obtain ⟨p, hrun, h⟩ := bind_eq_some_iff.mp h
    split at h
    · cases h
    · split at h <;> cases h
      exact .same rfl rfl
  | kalloc =>
    simp only [step] at h
    split at h <;> cases h
    exact .same rfl rfl
  | kfree f =>
    simp only [step] at h
    split at h <;> cases h
    exact .same rfl rfl

theorem KernelMove.inv {s s' : System} {a : Act} (hm : KernelMove s a s') (h : s.k.Inv) :
    s'.k.Inv := by
  cases hm with
  | same hk _ =>
    rw [hk]
    exact h
  | scan c _ hstep _ => exact Kernel.step_inv h _ hstep
  | switchkvm c _ hk _ =>
    rw [hk]
    exact h
  | step b _ _ _ hstep _ => exact Kernel.step_inv h b hstep
  | mark p killed status hk _ =>
    rw [hk]
    have hsame (q : Slot) : (s.k.table.set p (fun q =>
        { q with killed := killed, exitStatus := status }) q).state = (s.k.table q).state ∧
        (s.k.table.set p (fun q =>
          { q with killed := killed, exitStatus := status }) q).prio = (s.k.table q).prio := by
      rcases eq_or_ne q p with rfl | hq
      · rw [Table.set_self]
        exact ⟨rfl, rfl⟩
      · rw [Table.set_of_ne _ _ hq]
        exact ⟨rfl, rfl⟩
    refine ⟨fun c => ?_, fun c q hq => ?_, h.runUnique, fun q nq hnq => ?_, h.embryoUnique⟩
    · have hcursor := h.cursor c
      unfold Kernel.CursorOk Proc.HiRunnable at hcursor ⊢
      simp only [hsame]
      exact hcursor
    · simp only [hsame]
      exact h.run c q hq
    · simp only [hsame]
      exact h.embryo q nq hnq

theorem KernelMove.initproc {s s' : System} {a : Act} (hm : KernelMove s a s') :
    s'.k.initproc = s.k.initproc := by
  cases hm with
  | same hk _ => rw [hk]
  | scan c _ hstep _ => exact step_initproc hstep
  | switchkvm c _ hk _ => rw [hk]
  | step b _ _ _ hstep _ => exact step_initproc hstep
  | mark p killed status hk _ => rw [hk]

structure Inv (s : System) : Prop where
  kernel : s.k.Inv
  init : s.k.initproc = Kernel.boot.initproc
  view : View.Inv s.k.initproc s.view
  mem : s.view.MemInv

theorem boot_life (n : Nat) (q : Slot) : ((boot n).view.life q).toCore =
    if q = Kernel.boot.initproc then ⟨.alive, 1, none, 0⟩ else ⟨.free, 0, none, 0⟩ := by
  show (Kernel.boot.table q).core = _
  by_cases hq : q = Kernel.boot.initproc
  · rw [if_pos hq, hq]
    rfl
  · have hval : ¬ q.val = 0 := fun heq => hq (Fin.ext heq)
    rw [if_neg hq]
    simp only [Kernel.boot, if_neg hval]
    rfl

theorem boot_view (n : Nat) : View.Inv Kernel.boot.initproc (boot n).view := by
  have hlife := boot_life n
  have hbusy (q : Slot) (hq : ((boot n).view.life q).phase ≠ .free) :
      q = Kernel.boot.initproc := by
    by_contra hne
    rw [hlife q, if_neg hne] at hq
    exact hq rfl
  have hparent (q : Slot) : ((boot n).view.life q).parent = none := by
    rw [hlife q]
    split <;> rfl
  have hinit := hlife Kernel.boot.initproc
  rw [if_pos rfl] at hinit
  exact {
    initAlive := congrArg Core.phase hinit
    initPid := congrArg Core.pid hinit
    initParent := hparent _
    freeParent := fun q _ => hparent q
    youngParent := fun q _ _ => hparent q
    parentAlive := by
      intro q r hq
      rw [hparent q] at hq
      cases hq
    pidLt := by
      intro q
      rw [hlife q]
      split
      · exact (by decide : (1 : Int) < 2)
      · exact (by decide : (0 : Int) < 2)
    pidPos := by
      intro q hq
      rw [hbusy q hq, hinit]
      decide
    pidOnce := by
      intro q r heq
      by_cases hq : q = Kernel.boot.initproc
      · by_cases hr : r = Kernel.boot.initproc
        · exact .inr (hq.trans hr.symm)
        · rw [hlife q, hlife r, if_pos hq, if_neg hr] at heq
          cases heq
      · rw [hlife q, if_neg hq]
        exact .inl rfl }

theorem boot_mem (n : Nat) : (boot n).view.MemInv := by
  have hphase (q : Slot) : ((boot n).view.life q).phase = if q.val = 0 then .alive else .free := by
    rw [boot_life n q]
    by_cases hq : q.val = 0
    · rw [if_pos (Fin.ext hq), if_pos hq]
    · rw [if_neg fun heq => hq (congrArg Fin.val heq), if_neg hq]
  refine ⟨fun q => ?_, fun q => ?_, ?_⟩
  · by_cases hq : q.val = 0
    · simp only [Life.hasStack, hphase q, if_pos hq]
      simp [view, boot, hq]
    · simp only [Life.hasStack, hphase q, if_neg hq]
      simp [view, boot, hq]
  · by_cases hq : q.val = 0
    · simp [view, boot, hq]
    · simp [Life.hasDir, hphase q, hq]
  · have hothers (q : Slot) (hq : q ≠ Kernel.boot.initproc) : (boot n).view.owned q = 0 := by
      have hval : ¬ q.val = 0 := fun heq => hq (Fin.ext heq)
      simp [View.owned, hval, view, boot]
    have hsum : ∑ q, (boot n).view.owned q = {0, 1} := by
      rw [Finset.sum_eq_single Kernel.boot.initproc (fun q _ hq => hothers q hq)
        (fun hq => absurd (Finset.mem_univ _) hq)]
      rfl
    unfold View.total
    rw [hsum]
    refine nodup_add.mpr ⟨?_, by decide, ?_⟩
    · simp [view, boot, nodup_range']
    · rw [Multiset.disjoint_left]
      intro f hf hpair
      simp only [view, boot, coe_nil, add_zero, mem_coe, List.mem_range'_1] at hf
      simp only [insert_eq_cons, Multiset.mem_cons, Multiset.mem_singleton] at hpair
      omega

theorem boot_sysInv (n : Nat) : Inv (boot n) :=
  ⟨Kernel.boot_inv, rfl, boot_view n, boot_mem n⟩

theorem Inv.step {s s' : System} {a : Act} (hI : Inv s) (h : s.step a = some s') : Inv s' := by
  have hmove := step_kernel h
  have heffect := step_effect hI.kernel h
  refine ⟨hmove.inv hI.kernel, hmove.initproc.trans hI.init, ?_, heffect.memInv hI.mem⟩
  rw [hmove.initproc]
  exact heffect.inv hI.view

/-- What holds at boot and is kept by every step holds along every run. -/
theorem Run.induct {n : Nat} {s : System} (h : Run (boot n) tr s)
    (P : List Event → System → Prop) (hboot : P [] (boot n))
    (hstep : ∀ tr s a s', Inv s → P tr s → s.step a = some s' → P (tr ++ s.emits a) s') :
    Inv s ∧ P tr s := by
  generalize hs : boot n = s0 at h
  induction h with
  | refl =>
    rw [← hs]
    exact ⟨boot_sysInv n, hboot⟩
  | tail hrun a hlast ih => exact ⟨ih.1.step hlast, hstep _ _ a _ ih.1 ih.2 hlast⟩

/-- A list of acts from a state, where all of them can be taken. -/
def runActs (s : System) : List Act → Option (List Event × System)
  | [] => some ([], s)
  | a :: acts => (s.step a).bind fun s' => (s'.runActs acts).map fun (tr, t) => (s.emits a ++ tr, t)

theorem Run.append {s t u : System} {tr' : List Event} (h : Run s tr t) (h' : Run t tr' u) :
    Run s (tr ++ tr') u := by
  induction h' with
  | refl =>
    rw [append_nil]
    exact h
  | tail _ a hlast ih =>
    rw [← append_assoc]
    exact ih.tail a hlast

theorem run_of_acts {s t : System} {acts : List Act}
    (h : s.runActs acts = some (tr, t)) : Run s tr t := by
  induction acts generalizing s tr with
  | nil =>
    cases h
    exact .refl _
  | cons a acts ih =>
    obtain ⟨s', hstep, h⟩ := bind_eq_some_iff.mp h
    obtain ⟨⟨tr', u⟩, hrest, heq⟩ := map_eq_some_iff.mp h
    cases heq
    exact ((Run.refl s).tail a hstep).append (ih hrest)

/-- Init forks on processor 0 and waits; its child runs. -/
def forkActs : List Act := List.flatten
  [.acquire 0 :: List.replicate 66 (.scan 0),
    [.unlock 0, .forkAlloc 0, .forkStack 0, .forkDir 0 true, .forkParent 0, .forkDone 0,
      .wait 0, .switchkvm 0, .scan 0],
    .acquire 0 :: List.replicate 66 (.scan 0), [.unlock 0]]

end System

end Xv6.Sched

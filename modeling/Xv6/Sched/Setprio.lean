import Xv6.Sched.System
import Xv6.Syscall.Args

/-!
`setprio` and the priorities. `sys_setprio` takes the new priority with
`argptr`, so that the value is checked as if it were the address of a block of
four bytes in the caller's memory and not against the two priorities there
are. A value from 2 up to the caller's size less 4 is stored, and a process
with it is a candidate of neither loop of the scheduler.

`setprio` itself looks at all slots, so that it also finds a slot that is not
in use: pid 0 is that of every slot never used or reaped, and a `fork` that
ran out of memory leaves its pid behind.
-/

namespace Xv6.Sched

open Syscall List Option Table

/-- `sys_setprio`: the table and the result. -/
def sysSetprio (u : User) (t : Table) : Table × Int :=
  match u.argint 0, u.argptr 1 4 with
  | some pid, some prio =>
    let r := t.setprio pid.toInt prio.toNat
    (r.1, if r.2 then 0 else -1)
  | _, _ => (t, -1)

def Legal (prio : Nat) : Prop := prio = NORM_PRIO ∨ prio = HI_PRIO

instance (prio : Nat) : Decidable (Legal prio) := by
  unfold Legal
  infer_instance

/-- The first slot with a pid, in any state. -/
def Table.find (t : Table) (pid : Int) : Option Slot := t.first fun q => q.pid == pid

/-- A legal priority is given to the process with the pid, and any other call
returns -1 and changes nothing. -/
def SetprioContract (u : User) (t : Table) : Prop :=
  (∀ pid v p, u.argint 0 = some pid → u.argint 1 = some v → Legal v.toNat →
    (t p).state ≠ .UNUSED → (t p).pid = pid.toInt →
    sysSetprio u t = (t.set p fun q => { q with prio := v.toNat }, 0)) ∧
  ((∀ pid v p, u.argint 0 = some pid → u.argint 1 = some v → Legal v.toNat →
    (t p).state ≠ .UNUSED → (t p).pid ≠ pid.toInt) → sysSetprio u t = (t, -1))

/-- The arguments: a value that passes the check of `argptr` is legal, and the
slot found is in use. -/
def SetprioArgs (u : User) (t : Table) : Prop :=
  ∀ pid v p, u.argint 0 = some pid → u.argint 1 = some v → u.Within v 4 →
    t.find pid.toInt = some p → Legal v.toNat ∧ (t p).state ≠ .UNUSED

variable {p : Slot} {s s' : System}

theorem Table.find_some {t : Table} {pid : Int} (h : t.find pid = some p) : (t p).pid = pid := by
  simpa using first_some h

theorem Table.find_isSome {t : Table} {pid : Int} (h : (t p).pid = pid) :
    ∃ q, t.find pid = some q := by
  cases hfind : t.find pid with
  | some q => exact ⟨q, rfl⟩
  | none =>
    have htest := List.find?_eq_none.mp hfind p (mem_finRange p)
    simp [h] at htest

theorem sysSetprio_of_within {u : User} {pid v : Word} (hpid : u.argint 0 = some pid)
    (hv : u.argint 1 = some v) (hw : u.Within v 4) {t : Table}
    (hfind : t.find pid.toInt = some p) :
    sysSetprio u t = (t.set p fun q => { q with prio := v.toNat }, 0) := by
  unfold Table.find at hfind
  unfold sysSetprio
  rw [User.argptr_four]
  simp [hpid, hv, hw, Table.setprio, hfind]

theorem sysSetprio_fails {u : User} {t : Table}
    (h : ∀ pid v p, u.argint 0 = some pid → u.argint 1 = some v → u.Within v 4 →
      t.find pid.toInt ≠ some p) : sysSetprio u t = (t, -1) := by
  unfold sysSetprio
  split
  · next pid prio hpid hprio =>
    rw [User.argptr_four] at hprio
    obtain ⟨v, hv, hprio⟩ := bind_eq_some_iff.mp hprio
    split at hprio
    · next hw =>
      cases hprio
      have hnone : t.find pid.toInt = none := by
        cases hfind : t.find pid.toInt with
        | none => rfl
        | some p => exact absurd hfind (h pid prio p hpid hv hw)
      unfold Table.find at hnone
      simp [Table.setprio, hnone]
    · cases hprio
  · rfl

theorem sysSetprio_cases (u : User) (t : Table) :
    sysSetprio u t = (t, -1) ∨ ∃ pid v p, u.argint 0 = some pid ∧ u.argint 1 = some v ∧
      u.Within v 4 ∧ t.find pid.toInt = some p ∧
      sysSetprio u t = (t.set p fun q => { q with prio := v.toNat }, 0) := by
  by_cases hcall : ∃ pid v p, u.argint 0 = some pid ∧ u.argint 1 = some v ∧ u.Within v 4 ∧
      t.find pid.toInt = some p
  · obtain ⟨pid, v, p, hpid, hv, hw, hfind⟩ := hcall
    exact .inr ⟨pid, v, p, hpid, hv, hw, hfind, sysSetprio_of_within hpid hv hw hfind⟩
  · refine .inl (sysSetprio_fails fun pid v p hpid hv hw hfind => hcall ?_)
    exact ⟨pid, v, p, hpid, hv, hw, hfind⟩

theorem within_of_legal {u : User} {pid v : Word} (hpid : u.argint 0 = some pid)
    (hv : u.argint 1 = some v) (hlegal : Legal v.toNat) : u.Within v 4 := by
  have hsz := User.sz_of_two_args hpid hv
  have h8 : (8 : Word).toNat = 8 := rfl
  unfold Legal NORM_PRIO HI_PRIO at hlegal
  simp only [User.Within, BitVec.lt_def, BitVec.le_def, BitVec.toNat_add,
    BitVec.toNat_ofNat] at hsz ⊢
  rw [h8] at hsz
  omega

/-- For a call in a table whose pids differ, the contract holds exactly when
the arguments are as they should be. -/
theorem setprioContract_iff {u : User} {t : Table}
    (hpids : ∀ p q, (t p).state ≠ .UNUSED → (t p).pid = (t q).pid → p = q) :
    SetprioContract u t ↔ SetprioArgs u t := by
  constructor
  · rintro ⟨_, hother⟩ pid v p hpid hv hw hfind
    by_contra hbad
    have hfails : sysSetprio u t = (t, -1) := by
      refine hother fun pid' v' q hpid' hv' hlegal hq heq => hbad ?_
      rw [hpid] at hpid'
      rw [hv] at hv'
      cases hpid'
      cases hv'
      have hqp := hpids q p hq (heq.trans (Table.find_some hfind).symm)
      rw [hqp] at hq
      exact ⟨hlegal, hq⟩
    rw [sysSetprio_of_within hpid hv hw hfind] at hfails
    cases congrArg Prod.snd hfails
  · intro hargs
    refine ⟨fun pid v p hpid hv hlegal hp heq => ?_, fun hnone => ?_⟩
    · obtain ⟨q, hfind⟩ := find_isSome heq
      have hqp := hpids p q hp (heq.trans (Table.find_some hfind).symm)
      rw [← hqp] at hfind
      exact sysSetprio_of_within hpid hv (within_of_legal hpid hv hlegal) hfind
    · refine sysSetprio_fails fun pid v p hpid hv hw hfind => ?_
      obtain ⟨hlegal, hp⟩ := hargs pid v p hpid hv hw hfind
      exact hnone pid v p hpid hv hlegal hp (Table.find_some hfind)

/-- Every priority is one the table had, or the one `allocproc` gives. -/
def Table.PrioFrom (t t' : Table) : Prop :=
  ∀ q, (t' q).prio = NORM_PRIO ∨ ∃ p, (t' q).prio = (t p).prio

namespace Table

theorem PrioFrom.of_eq {t t' : Table} (h : ∀ q, (t' q).prio = (t q).prio) : PrioFrom t t' :=
  fun q => .inr ⟨q, h q⟩

theorem PrioFrom.refl (t : Table) : PrioFrom t t := .of_eq fun _ => rfl

theorem prio_set {t : Table} {f : Proc → Proc} (h : (f (t p)).prio = (t p).prio)
    (q : Slot) : (t.set p f q).prio = (t q).prio := by
  rcases eq_or_ne q p with rfl | hq
  · rw [set_self, h]
  · rw [set_of_ne t f hq]

@[simp] theorem prio_wakeup1 (t : Table) (chan : Chan) (q : Slot) :
    (t.wakeup1 chan q).prio = (t q).prio := by
  unfold wakeup1
  split <;> rfl

theorem prio_kill (t : Table) (pid : Int) (q : Slot) : ((t.kill pid).1 q).prio = (t q).prio := by
  unfold kill
  split
  · exact prio_set (by rfl) q
  · rfl

theorem prio_adopt (cur init : Slot) (t : Table) (p q : Slot) :
    (adopt cur init t p q).prio = (t q).prio := by
  unfold adopt
  split
  · simp only
    split
    · rw [prio_wakeup1]
      exact prio_set (by rfl) q
    · exact prio_set (by rfl) q
  · rfl

theorem prio_reparent (t : Table) (cur init q : Slot) :
    (t.reparent cur init q).prio = (t q).prio := by
  rw [reparent_eq]
  generalize List.finRange NPROC = slots
  induction slots generalizing t with
  | nil => rfl
  | cons p rest ih => rw [foldl_cons, ih, prio_adopt]

theorem prio_exit (t : Table) (cur init q : Slot) : (t.exit cur init q).prio = (t q).prio := by
  unfold exit
  refine (prio_set (by simp) q).trans ?_
  rw [prio_reparent]
  cases (t cur).parent with
  | some parent => exact prio_wakeup1 t _ q
  | none => rfl

theorem prio_wait (t : Table) (cur q : Slot) : ((t.wait cur).1 q).prio = (t q).prio := by
  rcases wait_cases t cur with ⟨p, _, _, _, hwait⟩ | ⟨_, hwait, _⟩ | ⟨_, hwait⟩
  · rw [hwait]
    exact prio_set (by rfl) q
  · rw [hwait]
  · rw [hwait]

theorem allocproc_prioFrom {t t' : Table} {nextpid : Int} {np : Slot}
    (h : t.allocproc nextpid = some (np, t')) : PrioFrom t t' := by
  unfold allocproc at h
  split at h
  · cases h
    intro q
    rcases eq_or_ne q np with rfl | hq
    · rw [set_self]
      exact .inl rfl
    · rw [set_of_ne t _ hq]
      exact .inr ⟨q, rfl⟩
  · cases h

end Table

namespace Kernel

theorem prio_waitTurn (k : Kernel) (c : Nat) (p q : Slot) :
    ((k.waitTurn c p).table q).prio = (k.table q).prio := by
  have hwait := k.table.prio_wait p q
  unfold waitTurn
  split
  · next t heq =>
    rw [heq] at hwait
    exact (prio_set (by rfl) q).trans hwait
  · next t _ _ heq =>
    rw [heq] at hwait
    exact hwait

/-- Only `setprio` brings a new priority into the table. -/
theorem prioFrom_of_step {k k' : Kernel} {a : Act} (h : k.step a = some k')
    (ha : ∀ c pid prio, a ≠ .setprio c pid prio) : k.table.PrioFrom k'.table := by
  cases a with
  | acquire c =>
    simp only [step] at h
    split at h <;> cases h
    exact .refl _
  | scan c =>
    simp only [step] at h
    split at h
    · rcases (scan_table h).2 with heq | ⟨p, _, heq⟩
      · rw [heq]
        exact .refl _
      · rw [heq]
        exact .of_eq (prio_set rfl)
    · cases h
  | unlock c =>
    obtain ⟨p, _, h⟩ := bind_eq_some_iff.mp h
    split at h
    · split at h <;> cases h
      · exact .refl _
      · exact .of_eq (prio_set rfl)
      · exact .of_eq fun q => (prio_waitTurn _ c p q).trans (prio_set (by rfl) q)
    · cases h
  | yield c =>
    obtain ⟨p, _, h⟩ := bind_eq_some_iff.mp h
    split at h <;> cases h
    exact .of_eq (prio_set rfl)
  | sleep c chan =>
    obtain ⟨p, _, h⟩ := bind_eq_some_iff.mp h
    split at h <;> cases h
    exact .of_eq (prio_set rfl)
  | wait c =>
    obtain ⟨p, _, h⟩ := bind_eq_some_iff.mp h
    split at h <;> cases h
    exact .of_eq (prio_waitTurn k c p)
  | exit c status =>
    obtain ⟨p, _, h⟩ := bind_eq_some_iff.mp h
    split at h <;> cases h
    exact .of_eq fun q => (prio_exit _ p _ q).trans (prio_set (by rfl) q)
  | wakeup chan =>
    simp only [step] at h
    split at h <;> cases h
    exact .of_eq (k.table.prio_wakeup1 chan)
  | kill c pid =>
    obtain ⟨p, _, h⟩ := bind_eq_some_iff.mp h
    split at h <;> cases h
    exact .of_eq (k.table.prio_kill pid)
  | setprio c pid prio => exact absurd rfl (ha c pid prio)
  | forkAlloc c =>
    obtain ⟨p, _, h⟩ := bind_eq_some_iff.mp h
    split at h
    · obtain ⟨⟨np, t⟩, halloc, h⟩ := bind_eq_some_iff.mp h
      cases h
      exact allocproc_prioFrom halloc
    · cases h
  | forkFail c =>
    obtain ⟨p, _, np, _, h⟩ := bind_bind_eq_some h
    split at h <;> cases h
    exact .of_eq (prio_set rfl)
  | forkCopy c =>
    obtain ⟨p, _, np, _, h⟩ := bind_bind_eq_some h
    split at h <;> cases h
    intro q
    rcases eq_or_ne q np with rfl | hq
    · exact .inr ⟨p, by simp⟩
    · exact .inr ⟨q, by simp [Table.set_of_ne _ _ hq]⟩
  | forkDone c =>
    obtain ⟨p, _, np, _, h⟩ := bind_bind_eq_some h
    split at h <;> cases h
    exact .of_eq (prio_set rfl)

end Kernel

namespace System

def withTable (s : System) (t : Table) : System := { s with k := { s.k with table := t } }

/-- A step of the machine in which `setprio` is called by `sys_setprio`, with
any arguments of any caller for which `allow` holds. -/
inductive UserStep (allow : User → Table → Prop) : System → System → Prop where
  | act {s s' : System} (a : Act) (ha : ∀ c pid prio, a ≠ .setprio c pid prio)
      (hstep : s.step a = some s') : UserStep allow s s'
  | setprio {s : System} (c : Nat) (p : Slot) (u : User) (hrun : s.k.running c = some p)
      (hlock : s.k.lock = none) (hfork : (s.k.thread p).embryo = none)
      (hallow : allow u s.k.table) :
      UserStep allow s (s.withTable (sysSetprio u s.k.table).1)

def LegalPrios (s : System) : Prop := ∀ q, Legal (s.k.table q).prio

theorem LegalPrios.of_prioFrom (h : s.LegalPrios)
    (hfrom : s.k.table.PrioFrom s'.k.table) : s'.LegalPrios := by
  intro q
  rcases hfrom q with heq | ⟨p, heq⟩
  · exact .inl heq
  · rw [heq]
    exact h p

theorem prioFrom_of_act {a : Act} (h : s.step a = some s')
    (ha : ∀ c pid prio, a ≠ .setprio c pid prio) : s.k.table.PrioFrom s'.k.table := by
  cases step_kernel h with
  | same hk _ =>
    rw [hk]
    exact .refl _
  | scan c _ hstep _ => exact Kernel.prioFrom_of_step hstep (by simp)
  | switchkvm c _ hk _ =>
    rw [hk]
    exact .refl _
  | step b _ _ hprio hstep _ =>
    exact Kernel.prioFrom_of_step hstep fun c pid prio hb => ha c pid prio (hprio c pid prio hb)
  | mark p killed status hk _ =>
    rw [hk]
    exact .of_eq (prio_set rfl)

theorem inv_of_userStep {allow : User → Table → Prop} (hI : Inv s)
    (h : UserStep allow s s') : Inv s' := by
  cases h with
  | act a _ hstep => exact hI.step hstep
  | setprio c p u hrun hlock hfork _ =>
    rcases sysSetprio_cases u s.k.table with heq | ⟨pid, v, q, _, _, _, hfind, heq⟩
    · rw [heq]
      exact hI
    · have hset : (s.k.table.setprio pid.toInt v.toNat).1 = (sysSetprio u s.k.table).1 := by
        unfold Table.find at hfind
        simp [heq, Table.setprio, hfind]
      refine hI.step (a := .setprio c pid.toInt v.toNat) ?_
      simp [step, Kernel.step, hrun, hlock, hfork, hset, withTable]

theorem legalPrios_of_userStep (hlegal : s.LegalPrios)
    (h : UserStep SetprioArgs s s') : s'.LegalPrios := by
  cases h with
  | act a ha hstep => exact hlegal.of_prioFrom (prioFrom_of_act hstep ha)
  | setprio c p u _ _ _ hargs =>
    rcases sysSetprio_cases u s.k.table with heq | ⟨pid, v, q, hpid, hv, hw, hfind, heq⟩
    · rw [heq]
      exact hlegal
    · intro r
      simp only [heq, withTable]
      rcases eq_or_ne r q with rfl | hr
      · rw [Table.set_self]
        exact (hargs pid v r hpid hv hw hfind).1
      · rw [Table.set_of_ne _ _ hr]
        exact hlegal r

/-- Along every run whose calls of `sys_setprio` have arguments as they should
be, each runnable process is a candidate of one of the scheduler's loops, and
a further call meets its contract exactly when its arguments are so. -/
theorem runnable_schedulable {n : Nat} {s : System}
    (h : Relation.ReflTransGen (UserStep SetprioArgs) (boot n) s) :
    (∀ q, Legal (s.k.table q).prio ∧ ((s.k.table q).state = .RUNNABLE →
      (s.k.table q).HiRunnable ∨ (s.k.table q).NormRunnable)) ∧
    ∀ u, SetprioContract u s.k.table ↔ SetprioArgs u s.k.table := by
  obtain ⟨hI, hlegal⟩ : Inv s ∧ s.LegalPrios := by
    refine Lib.invariant_of_run (fun s => Inv s ∧ s.LegalPrios) h ?_ ?_
    · refine ⟨boot_sysInv n, fun q => .inl ?_⟩
      simp only [boot, Kernel.boot]
      split <;> rfl
    · exact fun s s' hs hstep => ⟨inv_of_userStep hs.1 hstep, legalPrios_of_userStep hs.2 hstep⟩
  refine ⟨fun q => ⟨hlegal q, fun hready => ?_⟩, fun u => setprioContract_iff fun p q hp heq => ?_⟩
  · rcases hlegal q with hprio | hprio
    · exact .inr ⟨hprio, hready⟩
    · exact .inl ⟨hprio, hready⟩
  · exact hI.view.pidInj p q (phase_of_used hp) heq

theorem userSteps_of_acts {allow : User → Table → Prop} {acts : List Act} {t : System}
    (hacts : ∀ a ∈ acts, ∀ c pid prio, a ≠ .setprio c pid prio) {tr : List Event}
    (h : s.runActs acts = some (tr, t)) : Relation.ReflTransGen (UserStep allow) s t := by
  induction acts generalizing s tr with
  | nil =>
    cases h
    exact .refl
  | cons a acts ih =>
    obtain ⟨s', hstep, h⟩ := bind_eq_some_iff.mp h
    obtain ⟨⟨tr', u⟩, hrest, heq⟩ := map_eq_some_iff.mp h
    cases heq
    exact .head (.act a (hacts a mem_cons_self) hstep)
      (ih (fun b hb => hacts b (mem_cons_of_mem a hb)) hrest)

def firstTurn : List Act := .acquire 0 :: List.replicate 66 (.scan 0) ++ [.unlock 0]

def initRuns : Table := fun q =>
  if q.val = 0 then { Proc.zero with state := .RUNNING, pid := 1 } else Proc.zero

theorem firstTurn_run : ∃ tr s, (boot 0).runActs firstTurn = some (tr, s) ∧
    s.k.running 0 = some Kernel.boot.initproc ∧ s.k.lock = none ∧
    (s.k.thread Kernel.boot.initproc).embryo = none ∧ s.k.table = initRuns := by
  obtain ⟨⟨tr, s⟩, hrun⟩ := isSome_iff_exists.mp
    (show ((boot 0).runActs firstTurn).isSome = true by decide +kernel)
  have hstate : ((boot 0).runActs firstTurn).map (fun r => (r.2.k.running 0, r.2.k.lock,
      (r.2.k.thread Kernel.boot.initproc).embryo, decide (∀ q, r.2.k.table q = initRuns q))) =
      some (some Kernel.boot.initproc, none, none, true) := by decide +kernel
  rw [hrun] at hstate
  simp only [map_some, Option.some.injEq, Prod.mk.injEq, decide_eq_true_eq] at hstate
  exact ⟨tr, s, hrun, hstate.1, hstate.2.1, hstate.2.2.1, funext hstate.2.2.2⟩

theorem firstTurn_noSetprio : ∀ a ∈ firstTurn, ∀ c pid prio, a ≠ .setprio c pid prio := by
  intro a ha
  simp only [firstTurn, cons_append, mem_cons, mem_append, mem_replicate,
    not_mem_nil, or_false] at ha
  rcases ha with rfl | ⟨_, rfl⟩ | rfl <;> simp

/-- Init, of one page, calls `setprio(pid, prio)` with small arguments. -/
def initCall (pid prio : BitVec 8) : User where
  sz := 4096
  esp := 4080
  mem := fun addr => if addr = 4084 then pid else if addr = 4088 then prio else 0

theorem initCall_args : SetprioArgs (initCall 1 1) initRuns := by
  intro pid v p hpid hv _ hfind
  have hpid' : (initCall 1 1).argint 0 = some 1 := by decide +kernel
  have hv' : (initCall 1 1).argint 1 = some 1 := by decide +kernel
  have hfind' : initRuns.find (BitVec.toInt (1 : Word)) = some Kernel.boot.initproc := by
    decide +kernel
  rw [hpid'] at hpid
  rw [hv'] at hv
  cases hpid
  cases hv
  rw [hfind'] at hfind
  cases hfind
  exact ⟨.inr rfl, by decide⟩

/-- Init makes itself a process of high priority. -/
theorem runnable_schedulable_init : ∃ s : System, s.k.running 0 = some Kernel.boot.initproc ∧
    (s.k.table Kernel.boot.initproc).prio = HI_PRIO ∧
    ∀ u, SetprioContract u s.k.table ↔ SetprioArgs u s.k.table := by
  obtain ⟨tr, s, hrun, hc, hlock, hfork, htable⟩ := firstTurn_run
  have hargs : SetprioArgs (initCall 1 1) s.k.table := by
    rw [htable]
    exact initCall_args
  have hreach := (userSteps_of_acts firstTurn_noSetprio hrun).tail
    (.setprio 0 Kernel.boot.initproc (initCall 1 1) hc hlock hfork hargs)
  refine ⟨s.withTable (sysSetprio (initCall 1 1) s.k.table).1, hc, ?_,
    (runnable_schedulable hreach).2⟩
  simp only [withTable, htable]
  decide +kernel

theorem yield_table {c : Nat} (hrun : s.k.running c = some p)
    (hlock : s.k.lock = none) : ∃ s', s.step (.yield c) = some s' ∧
      s'.k.table = s.k.table.set p fun q => { q with state := .RUNNABLE } := by
  simp [step, Kernel.step, hrun, hlock, Kernel.resume, Kernel.setCpu, Kernel.setThread]

/-- Init gives itself priority 2: the call returns 0, and once init has yielded
neither loop of the scheduler looks at it. A call for pid 0, which is no
process, returns 0 too. -/
theorem setprio_strands_init : ∃ s s' : System,
    Relation.ReflTransGen (UserStep fun _ _ => True) (boot 0) s ∧
    (sysSetprio (initCall 1 2) s.k.table).2 = 0 ∧ ¬ SetprioContract (initCall 0 1) s.k.table ∧
    Relation.ReflTransGen (UserStep fun _ _ => True) s s' ∧
    (s'.k.table Kernel.boot.initproc).state = .RUNNABLE ∧
    ¬ (s'.k.table Kernel.boot.initproc).HiRunnable ∧
    ¬ (s'.k.table Kernel.boot.initproc).NormRunnable := by
  obtain ⟨tr, s, hrun, hc, hlock, hfork, htable⟩ := firstTurn_run
  obtain ⟨s', hstep, htable'⟩ :=
    yield_table (s := s.withTable (sysSetprio (initCall 1 2) s.k.table).1) hc hlock
  have hinit : s'.k.table Kernel.boot.initproc =
      { Proc.zero with state := .RUNNABLE, pid := 1, prio := 2 } := by
    simp only [htable', withTable, htable]
    decide +kernel
  refine ⟨s, s', userSteps_of_acts firstTurn_noSetprio hrun, ?_, ?_, ?_, ?_⟩
  · rw [htable]
    decide +kernel
  · rintro ⟨_, hother⟩
    have hfails := hother fun pid v p hpid _ _ hp heq => ?_
    · rw [htable] at hfails
      exact absurd (congrArg Prod.snd hfails) (by decide +kernel)
    · have hpid' : (initCall 0 1).argint 0 = some 0 := by decide +kernel
      rw [hpid'] at hpid
      cases hpid
      rw [htable] at hp heq
      have honly : ∀ q, (initRuns q).state ≠ .UNUSED → (initRuns q).pid ≠ 0 := by decide +kernel
      exact honly p hp heq
  · exact .tail (.single (.setprio 0 _ (initCall 1 2) hc hlock hfork trivial))
      (.act (.yield 0) (by simp) hstep)
  · rw [hinit]
    decide

end System

end Xv6.Sched

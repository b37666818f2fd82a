import Xv6.Lib.Transition
import Xv6.Sched.Machine

/-!
Strict priority. A scheduler looks for a process of normal priority only when
its pass over the processes of high priority switched to none, and then it
has held `ptable.lock` since before that pass. So the slots behind its cursor
are as it saw them, and at a dispatch of normal priority no slot of the table
is both `RUNNABLE` and `HI_PRIO`.

The writes that `fork` makes without the lock go to a slot in state `EMBRYO`,
which is why the invariant follows these slots too.
-/

namespace Xv6.Sched

open Relation Function Option Table

/-- A change of the table that keeps the slots in state `EMBRYO` or `RUNNING`
in that state, other than `except`. -/
def KeepsBusy (t t' : Table) (except : Option Slot) : Prop :=
  ∀ q, some q ≠ except → ((t q).state = .EMBRYO ∨ (t q).state = .RUNNING) →
    (t' q).state = (t q).state

variable {t : Table} {k k' : Kernel} {c : Nat} {p : Slot}

theorem KeepsBusy.trans {t' t'' : Table} {e : Option Slot} (h : KeepsBusy t t' e)
    (h' : KeepsBusy t' t'' e) : KeepsBusy t t'' e := by
  intro q hq hbusy
  have hfirst := h q hq hbusy
  rw [h' q hq (by rw [hfirst]; exact hbusy), hfirst]

theorem KeepsBusy.weaken {t' : Table} (h : KeepsBusy t t' none) (e : Option Slot) :
    KeepsBusy t t' e := fun q _ hbusy => h q (by simp) hbusy

namespace Table

theorem set_keepsBusy_of_state (t : Table) (p : Slot) (f : Proc → Proc)
    (hf : (t p).state = .EMBRYO ∨ (t p).state = .RUNNING → (f (t p)).state = (t p).state) :
    KeepsBusy t (t.set p f) none := by
  intro q _ hbusy
  by_cases hq : q = p
  · subst hq
    rw [set_self]
    exact hf hbusy
  · rw [set_of_ne t f hq]

theorem set_keepsBusy_except (t : Table) (p : Slot) (f : Proc → Proc) :
    KeepsBusy t (t.set p f) (some p) := by
  intro q hq _
  have hne : q ≠ p := fun h => hq (by rw [h])
  rw [set_of_ne t f hne]

theorem wakeup1_keepsBusy (t : Table) (chan : Chan) (e : Option Slot) :
    KeepsBusy t (t.wakeup1 chan) e := by
  intro q _ hbusy
  unfold wakeup1
  split
  · next hsleep =>
    rw [hsleep.1] at hbusy
    rcases hbusy with h | h <;> cases h
  · rfl

theorem kill_keepsBusy (t : Table) (pid : Int) : KeepsBusy t (t.kill pid).1 none := by
  unfold kill
  split
  · apply set_keepsBusy_of_state
    rintro (h | h) <;> simp [h]
  · intro q _ _
    rfl

theorem setprio_keepsBusy (t : Table) (pid : Int) (prio : Nat) :
    KeepsBusy t (t.setprio pid prio).1 none := by
  unfold setprio
  split
  · apply set_keepsBusy_of_state
    intro _
    rfl
  · intro q _ _
    rfl

theorem wait_keepsBusy (t : Table) (cur : Slot) : KeepsBusy t (t.wait cur).1 none := by
  unfold wait
  split
  · next p hfirst =>
    apply set_keepsBusy_of_state
    have hzombie := first_some hfirst
    simp only [Bool.and_eq_true, beq_iff_eq] at hzombie
    rw [hzombie.2]
    rintro (h | h) <;> cases h
  · simp only
    split <;> exact fun _ _ _ => rfl

theorem reparent_keepsBusy (t : Table) (cur init : Slot) :
    KeepsBusy t (t.reparent cur init) none := by
  unfold reparent
  generalize List.finRange NPROC = slots
  induction slots generalizing t with
  | nil => exact fun _ _ _ => rfl
  | cons p rest ih =>
    rw [List.foldl_cons]
    refine KeepsBusy.trans ?_ (ih _)
    split
    · have hset : KeepsBusy t (t.set p fun q => { q with parent := some init }) none :=
        set_keepsBusy_of_state t p _ fun _ => rfl
      simp only
      split
      · exact hset.trans (wakeup1_keepsBusy _ _ _)
      · exact hset
    · exact fun _ _ _ => rfl

theorem exit_keepsBusy (t : Table) (cur init : Slot) :
    KeepsBusy t (t.exit cur init) (some cur) := by
  unfold exit
  refine KeepsBusy.trans ?_ (set_keepsBusy_except _ cur _)
  refine KeepsBusy.trans ?_ ((reparent_keepsBusy _ cur init).weaken _)
  split
  · exact wakeup1_keepsBusy _ _ _
  · exact fun _ _ _ => rfl

end Table

namespace Kernel

/-- What the cursor of processor `c` guarantees. This is the law that the
scheduler rests on: as long as `flagHI` is clear, the slots behind the cursor
of the first loop are not runnable with high priority. -/
def CursorOk (k : Kernel) (c : Nat) : Prop :=
  match (k.cpu c).pc with
  | .hi p => k.lock = some c ∧
      ((k.cpu c).flagHI = false → ∀ j : Slot, j.val < p → ¬ (k.table j).HiRunnable)
  | .norm _ => k.lock = some c ∧ ∀ j, ¬ (k.table j).HiRunnable
  | .normEnd _ => k.lock = some c
  | _ => True

structure Inv (k : Kernel) : Prop where
  cursor : ∀ c, k.CursorOk c
  run : ∀ c p, k.running c = some p → (k.table p).state = .RUNNING
  runUnique : ∀ c c' p, k.running c = some p → k.running c' = some p → c = c'
  embryo : ∀ p np, (k.thread p).embryo = some np → (k.table np).state = .EMBRYO
  embryoUnique : ∀ p q np, (k.thread p).embryo = some np → (k.thread q).embryo = some np → p = q

theorem boot_inv : Inv boot where
  cursor := by simp [boot, CursorOk]
  run := by simp [boot, running]
  runUnique := by simp [boot, running]
  embryo := by simp [boot]
  embryoUnique := by simp [boot]

/-- The scheduler of processor `c` is inside its loops, with the lock held. -/
def Scanning (k : Kernel) (c : Nat) : Prop :=
  match (k.cpu c).pc with
  | .hi _ | .norm _ | .normEnd _ => True
  | _ => False

theorem CursorOk.lock (h : k.CursorOk c) (hc : k.Scanning c) : k.lock = some c := by
  unfold CursorOk at h
  unfold Scanning at hc
  split at h
  · exact h.1
  · exact h.1
  · exact h
  · next hhi hnorm hend =>
    split at hc
    · next p hp => exact absurd hp (hhi p)
    · next p hp => exact absurd hp (hnorm p)
    · next p hp => exact absurd hp (hend p)
    · exact hc.elim

theorem cursorOk_of_not_scanning (h : ¬ k.Scanning c) : k.CursorOk c := by
  unfold Scanning at h
  unfold CursorOk
  cases hpc : (k.cpu c).pc with
  | hi p => simp [hpc] at h
  | norm p => simp [hpc] at h
  | normEnd p => simp [hpc] at h
  | top => trivial
  | hiRun p => trivial
  | normRun p => trivial

theorem not_scanning_of_running (h : k.running c = some p) : ¬ k.Scanning c := by
  unfold running at h
  unfold Scanning
  cases hpc : (k.cpu c).pc <;> simp [hpc] at h ⊢

theorem Inv.not_scanning (h : Inv k) (hc : k.lock ≠ some c) :
    ¬ k.Scanning c := fun hscan => hc ((h.cursor c).lock hscan)

/-- A step of processor `c` that changes the state of no slot in `EMBRYO` or
`RUNNING`, except that of its own process `e`, keeps the invariant when no
other processor is scanning. -/
theorem inv_of_step (c : Nat) (e : Option Slot) (h : Inv k)
    (hothers : ∀ d, d ≠ c → ¬ k.Scanning d) (hcpu : ∀ d, d ≠ c → k'.cpu d = k.cpu d)
    (hself : k'.CursorOk c) (hkeep : KeepsBusy k.table k'.table e)
    (hown : ∀ d, d ≠ c → ∀ p, k.running d = some p → some p ≠ e)
    (hrun : ∀ p, k'.running c = some p →
      (k'.table p).state = .RUNNING ∧ ∀ d, d ≠ c → k.running d ≠ some p)
    (hembryo : ∀ p, (k'.thread p).embryo = (k.thread p).embryo)
    (hfree : ∀ p np, (k.thread p).embryo = some np → some np ≠ e) : Inv k' := by
  have hscan (d : Nat) (hd : d ≠ c) : ¬ k'.Scanning d := by
    unfold Scanning
    rw [hcpu d hd]
    exact hothers d hd
  have hrunning (d : Nat) (hd : d ≠ c) : k'.running d = k.running d := by
    unfold running
    rw [hcpu d hd]
  refine ⟨?_, ?_, ?_, ?_, ?_⟩
  · intro d
    by_cases hd : d = c
    · rw [hd]
      exact hself
    · exact cursorOk_of_not_scanning (hscan d hd)
  · intro d p hp
    by_cases hd : d = c
    · rw [hd] at hp
      exact (hrun p hp).1
    · rw [hrunning d hd] at hp
      have hstate := h.run d p hp
      exact (hkeep p (hown d hd p hp) (Or.inr hstate)).trans hstate
  · intro d d' p hp hp'
    by_cases hd : d = c <;> by_cases hd' : d' = c
    · rw [hd, hd']
    · rw [hd] at hp
      rw [hrunning d' hd'] at hp'
      exact absurd hp' ((hrun p hp).2 d' hd')
    · rw [hd'] at hp'
      rw [hrunning d hd] at hp
      exact absurd hp ((hrun p hp').2 d hd)
    · rw [hrunning d hd] at hp
      rw [hrunning d' hd'] at hp'
      exact h.runUnique d d' p hp hp'
  · intro p np hnp
    rw [hembryo p] at hnp
    have hstate := h.embryo p np hnp
    exact (hkeep np (hfree p np hnp) (Or.inl hstate)).trans hstate
  · intro p q np hp hq
    rw [hembryo] at hp hq
    exact h.embryoUnique p q np hp hq

theorem Inv.embryo_ne_running (h : Inv k) {q np : Slot}
    (hrun : k.running c = some p) (hnp : (k.thread q).embryo = some np) : np ≠ p := by
  rintro rfl
  have hstate := h.embryo q np hnp
  rw [h.run c np hrun] at hstate
  cases hstate

theorem inv_of_table {l : Option Nat} (h : Inv k)
    (hquiet : ∀ c, ¬ k.Scanning c) (hkeep : KeepsBusy k.table t none) :
    Inv { k with table := t, lock := l } := by
  refine inv_of_step 0 none h (fun d _ => hquiet d) (fun _ _ => rfl) ?_ hkeep
    (fun _ _ _ _ => by simp) ?_ (fun _ => rfl) (fun _ _ _ => by simp)
  · exact cursorOk_of_not_scanning (hquiet 0)
  · intro p hp
    have hstate := h.run 0 p hp
    refine ⟨(hkeep p (by simp) (Or.inr hstate)).trans hstate, ?_⟩
    intro d hd hdp
    exact hd (h.runUnique d 0 p hdp hp)

/-- A thread gives up processor `c`: the scheduler goes on with `flagHI` set
or behind its second loop. `k1` is the state in which it calls `sched`. -/
theorem inv_resume {k1 : Kernel} (h : Inv k)
    (hrun : k.running c = some p) (hothers : ∀ d, d ≠ c → ¬ k.Scanning d)
    (hcpu : k1.cpu = k.cpu) (hkeep : KeepsBusy k.table k1.table (some p))
    (hth : ∀ q, (k1.thread q).embryo = (k.thread q).embryo) : Inv (k1.resume c) := by
  have hpc : (∃ q, (k.cpu c).pc = .hiRun q) ∨ ∃ q, (k.cpu c).pc = .normRun q := by
    unfold running at hrun
    split at hrun
    · next q hq => exact .inl ⟨q, hq⟩
    · next q hq => exact .inr ⟨q, hq⟩
    · cases hrun
  refine inv_of_step c (some p) h hothers ?_ ?_ hkeep ?_ ?_ hth ?_
  · intro d hd
    simp [resume, setCpu, hd, hcpu]
  · obtain ⟨q, hq⟩ | ⟨q, hq⟩ := hpc <;> simp [CursorOk, resume, setCpu, hq, hcpu]
  · intro d hd q hq heq
    cases heq
    exact hd (h.runUnique d c p hq hrun)
  · intro q hq
    obtain ⟨r, hr⟩ | ⟨r, hr⟩ := hpc <;> simp [running, resume, setCpu, hr, hcpu] at hq
  · intro q np hnp heq
    cases heq
    exact h.embryo_ne_running hrun hnp rfl

@[simp] theorem setThread_kont_embryo (k : Kernel) (p q : Slot) (kont : Kont) :
    ((k.setThread p fun th => { th with kont := kont }).thread q).embryo = (k.thread q).embryo := by
  by_cases hq : q = p
  · subst hq
    simp [setThread]
  · simp [setThread, hq]

theorem dispatch_inv {pc : SchedPc} (h : Inv k)
    (hothers : ∀ d, d ≠ c → ¬ k.Scanning d) (hrunnable : (k.table p).state = .RUNNABLE)
    (hpc : pc = .hiRun p ∨ pc = .normRun p) : Inv (k.dispatch c p pc) := by
  refine inv_of_step c none h hothers ?_ ?_ ?_ (fun _ _ _ _ => by simp) ?_ (fun _ => rfl)
    (fun _ _ _ => by simp)
  · intro d hd
    simp [dispatch, hd]
  · rcases hpc with rfl | rfl <;> simp [CursorOk, dispatch]
  · apply set_keepsBusy_of_state
    rw [hrunnable]
    rintro (hbusy | hbusy) <;> cases hbusy
  · intro q hq
    have hqp : q = p := by
      rcases hpc with rfl | rfl <;> simpa [running, dispatch, eq_comm] using hq
    subst hqp
    refine ⟨by simp [dispatch], ?_⟩
    intro d _ hd
    have hstate := h.run d q hd
    rw [hrunnable] at hstate
    cases hstate

theorem cursor_inv {cpu : Cpu} {l : Option Nat} (h : Inv k) (hothers : ∀ d, d ≠ c → ¬ k.Scanning d)
    (hself : ({ k with cpu := update k.cpu c cpu, lock := l } : Kernel).CursorOk c)
    (hrun : ({ k with cpu := update k.cpu c cpu, lock := l } : Kernel).running c = none) :
    Inv { k with cpu := update k.cpu c cpu, lock := l } := by
  refine inv_of_step c none h hothers ?_ hself (fun _ _ _ => rfl) (fun _ _ _ _ => by simp) ?_
    (fun _ => rfl) (fun _ _ _ => by simp)
  · intro d hd
    simp [hd]
  · intro p hp
    rw [hrun] at hp
    cases hp

theorem scan_inv (h : Inv k) (hlock : k.lock = some c) (hstep : k.scan c = some k') : Inv k' := by
  have hothers (d : Nat) (hd : d ≠ c) : ¬ k.Scanning d := by
    apply h.not_scanning
    rw [hlock]
    exact fun heq => hd (Option.some.inj heq).symm
  have hcursor := h.cursor c
  unfold CursorOk at hcursor
  unfold scan at hstep
  split at hstep
  · next p hpc =>
    rw [hpc] at hcursor
    split at hstep
    · next hp =>
      split at hstep
      · next hrunnable =>
        cases hstep
        exact dispatch_inv h hothers hrunnable.2 (Or.inl rfl)
      · next hnot =>
        cases hstep
        refine cursor_inv h hothers ?_ (by simp [running])
        simp only [CursorOk, update_self]
        refine ⟨hlock, ?_⟩
        intro hflag j hj
        rcases Nat.lt_succ_iff_lt_or_eq.mp hj with hlt | heq
        · exact hcursor.2 hflag j hlt
        · have hjp : j = ⟨p, hp⟩ := Fin.ext heq
          rw [hjp]
          exact hnot
    · next hend =>
      split at hstep
      · cases hstep
        exact cursor_inv h hothers (by simp [CursorOk]) (by simp [running])
      · next hflag =>
        -- the whole first loop ran without a dispatch
        cases hstep
        refine cursor_inv h hothers ?_ (by simp [running])
        simp only [CursorOk, update_self]
        refine ⟨hlock, ?_⟩
        intro j
        exact hcursor.2 (by simpa using hflag) j (lt_of_lt_of_le j.isLt (Nat.le_of_not_lt hend))
  · next p hpc =>
    rw [hpc] at hcursor
    split at hstep
    · next hp =>
      split at hstep
      · next hrunnable =>
        cases hstep
        exact dispatch_inv h hothers hrunnable.2 (Or.inr rfl)
      · cases hstep
        refine cursor_inv h hothers ?_ (by simp [running])
        simp only [CursorOk, update_self]
        exact hcursor
    · cases hstep
      refine cursor_inv h hothers ?_ (by simp [running])
      simp only [CursorOk, update_self]
      exact hlock
  · cases hstep
    exact cursor_inv h hothers (by simp [CursorOk]) (by simp [running])
  · cases hstep

theorem waitTurn_inv (h : Inv k) (hrun : k.running c = some p)
    (hothers : ∀ d, d ≠ c → ¬ k.Scanning d) : Inv (k.waitTurn c p) := by
  have hquiet (d : Nat) : ¬ k.Scanning d := by
    by_cases hd : d = c
    · rw [hd]
      exact not_scanning_of_running hrun
    · exact hothers d hd
  have hkeep := wait_keepsBusy k.table p
  unfold waitTurn
  split
  · next t hwait =>
    rw [hwait] at hkeep
    refine inv_resume h hrun hothers rfl ?_ (fun q => setThread_kont_embryo _ p q _)
    exact (hkeep.weaken _).trans (set_keepsBusy_except _ p _)
  · next t _ _ hwait =>
    rw [hwait] at hkeep
    exact inv_of_table h hquiet hkeep

theorem unlock_inv (h : Inv k) (hstep : k.step (.unlock c) = some k') : Inv k' := by
  obtain ⟨p, hrun, hstep⟩ := bind_eq_some_iff.mp hstep
  split at hstep
  · next hlock =>
    have hothers (d : Nat) (hd : d ≠ c) : ¬ k.Scanning d := by
      apply h.not_scanning
      rw [hlock]
      exact fun heq => hd (Option.some.inj heq).symm
    have hquiet (d : Nat) : ¬ k.Scanning d := by
      by_cases hd : d = c
      · rw [hd]
        exact not_scanning_of_running hrun
      · exact hothers d hd
    have hkeep : KeepsBusy k.table (k.table.set p fun q => { q with chan := none }) none :=
      set_keepsBusy_of_state _ p _ fun _ => rfl
    split at hstep
    · cases hstep
      exact inv_of_table h hquiet fun _ _ _ => rfl
    · cases hstep
      exact inv_of_table h hquiet hkeep
    · cases hstep
      exact waitTurn_inv (inv_of_table h hquiet hkeep) hrun hothers
  · cases hstep

theorem forkAlloc_inv (h : Inv k) (hstep : k.step (.forkAlloc c) = some k') : Inv k' := by
  obtain ⟨p, hrun, hstep⟩ := bind_eq_some_iff.mp hstep
  split at hstep
  · next hfree =>
    obtain ⟨⟨np, t⟩, halloc, hstep⟩ := bind_eq_some_iff.mp hstep
    cases hstep
    unfold Table.allocproc at halloc
    split at halloc
    · next np' hfirst =>
      cases halloc
      have hunused : (k.table np).state = .UNUSED := by
        simpa using first_some hfirst
      have hquiet (d : Nat) : ¬ k.Scanning d := h.not_scanning (by simp [hfree.1])
      have hkeep : KeepsBusy k.table (k.table.set np fun q =>
          { q with state := .EMBRYO, pid := k.nextpid, prio := NORM_PRIO }) none := by
        apply set_keepsBusy_of_state
        rw [hunused]
        rintro (hbusy | hbusy) <;> cases hbusy
      have hmid := inv_of_table (l := k.lock) h hquiet hkeep
      refine ⟨hmid.cursor, hmid.run, hmid.runUnique, ?_, ?_⟩
      · intro q nq hnq
        by_cases hq : q = p
        · subst hq
          simp only [setThread, update_self, Option.some.injEq] at hnq
          subst hnq
          simp [setThread]
        · simp only [setThread, update_of_ne hq] at hnq
          exact hmid.embryo q nq hnq
      · -- no other fork fills a slot that was UNUSED until now
        have hnew (q : Slot) (hq : (k.thread q).embryo = some np) : False := by
          have hstate := h.embryo q np hq
          rw [hunused] at hstate
          cases hstate
        intro q q' nq hq hq'
        by_cases hqp : q = p <;> by_cases hqp' : q' = p
        · rw [hqp, hqp']
        · subst hqp
          simp only [setThread, update_self, Option.some.injEq, update_of_ne hqp'] at hq hq'
          subst hq
          exact (hnew q' hq').elim
        · subst hqp'
          simp only [setThread, update_self, Option.some.injEq, update_of_ne hqp] at hq hq'
          subst hq'
          exact (hnew q hq).elim
        · simp only [setThread, update_of_ne hqp, update_of_ne hqp'] at hq hq'
          exact h.embryoUnique q q' nq hq hq'
    · cases halloc
  · cases hstep

/-- A write to an `EMBRYO` slot that leaves it not runnable with high
priority disturbs no cursor, whoever holds the lock. -/
theorem cursorOk_of_embryo {np : Slot} {f : Proc → Proc}
    (h : k.CursorOk c) (hf : ¬ (f (k.table np)).HiRunnable) :
    ({ k with table := k.table.set np f } : Kernel).CursorOk c := by
  have hslot (j : Slot) (hj : ¬ (k.table j).HiRunnable) :
      ¬ (k.table.set np f j).HiRunnable := by
    by_cases hjn : j = np
    · subst hjn
      rw [Table.set_self]
      exact hf
    · rw [Table.set_of_ne _ _ hjn]
      exact hj
  unfold CursorOk at h ⊢
  simp only
  split at h
  · exact ⟨h.1, fun hflag j hj => hslot j (h.2 hflag j hj)⟩
  · exact ⟨h.1, fun j => hslot j (h.2 j)⟩
  · exact h
  · trivial

theorem forkFail_inv (h : Inv k) (hstep : k.step (.forkFail c) = some k') : Inv k' := by
  obtain ⟨p, hrun, np, hnp, hstep⟩ := bind_bind_eq_some hstep
  split at hstep
  · cases hstep
  cases hstep
  have hother (q nq : Slot) (hq : q ≠ p) (hnq : (k.thread q).embryo = some nq) : nq ≠ np := by
    rintro rfl
    exact hq (h.embryoUnique q p nq hnq hnp)
  refine ⟨?_, ?_, h.runUnique, ?_, ?_⟩
  · intro d
    exact cursorOk_of_embryo (h.cursor d) (by rintro ⟨_, hstate⟩; cases hstate)
  · intro d q hq
    have hne : q ≠ np := (h.embryo_ne_running hq hnp).symm
    simp only [setThread, Table.set_of_ne _ _ hne]
    exact h.run d q hq
  · intro q nq hnq
    by_cases hq : q = p
    · subst hq
      simp [setThread] at hnq
    · simp only [setThread, update_of_ne hq] at hnq ⊢
      rw [Table.set_of_ne _ _ (hother q nq hq hnq)]
      exact h.embryo q nq hnq
  · intro q q' nq hq hq'
    by_cases hqp : q = p
    · subst hqp
      simp [setThread] at hq
    · by_cases hqp' : q' = p
      · subst hqp'
        simp [setThread] at hq'
      · simp only [setThread, update_of_ne hqp, update_of_ne hqp'] at hq hq'
        exact h.embryoUnique q q' nq hq hq'

theorem forkCopy_inv (h : Inv k) (hstep : k.step (.forkCopy c) = some k') : Inv k' := by
  obtain ⟨p, hrun, np, hnp, hstep⟩ := bind_bind_eq_some hstep
  split at hstep
  · cases hstep
  cases hstep
  have hembryo := h.embryo p np hnp
  have hkeep : KeepsBusy k.table (k.table.set np fun q =>
      { q with parent := some p, prio := (k.table p).prio }) none :=
    set_keepsBusy_of_state _ np _ fun _ => rfl
  refine ⟨?_, ?_, h.runUnique, ?_, h.embryoUnique⟩
  · intro d
    refine cursorOk_of_embryo (h.cursor d) ?_
    rintro ⟨_, hstate⟩
    simp only [hembryo] at hstate
    cases hstate
  · intro d q hq
    have hstate := h.run d q hq
    exact (hkeep q (by simp) (Or.inr hstate)).trans hstate
  · intro q nq hnq
    have hstate := h.embryo q nq hnq
    exact (hkeep nq (by simp) (Or.inl hstate)).trans hstate

theorem forkDone_inv (h : Inv k) (hstep : k.step (.forkDone c) = some k') : Inv k' := by
  obtain ⟨p, hrun, np, hnp, hstep⟩ := bind_bind_eq_some hstep
  split at hstep
  · next hlock =>
    cases hstep
    have hquiet (d : Nat) : ¬ k.Scanning d := h.not_scanning (by simp [hlock])
    have hthread (q nq : Slot) (hnq : ((update
        (update k.thread p { k.thread p with embryo := none }) np
        ⟨none, .release⟩) q).embryo = some nq) :
        q ≠ p ∧ (k.thread q).embryo = some nq := by
      by_cases hqn : q = np
      · subst hqn
        simp at hnq
      · rw [update_of_ne hqn] at hnq
        by_cases hq : q = p
        · subst hq
          simp at hnq
        · rw [update_of_ne hq] at hnq
          exact ⟨hq, hnq⟩
    refine ⟨?_, ?_, h.runUnique, ?_, ?_⟩
    · intro d
      exact cursorOk_of_not_scanning (hquiet d)
    · intro d q hq
      have hne : q ≠ np := (h.embryo_ne_running hq hnp).symm
      simp only [setThread, Table.set_of_ne _ _ hne]
      exact h.run d q hq
    · intro q nq hnq
      obtain ⟨hq, hold⟩ := hthread q nq hnq
      have hne : nq ≠ np := by
        rintro rfl
        exact hq (h.embryoUnique q p nq hold hnp)
      simp only [setThread, Table.set_of_ne _ _ hne]
      exact h.embryo q nq hold
    · intro q q' nq hq hq'
      exact h.embryoUnique q q' nq (hthread q nq hq).2 (hthread q' nq hq').2
  · cases hstep

theorem step_inv (h : Inv k) (a : Act) (hstep : k.step a = some k') : Inv k' := by
  have hquiet (hlock : k.lock = none) (d : Nat) : ¬ k.Scanning d := h.not_scanning (by simp [hlock])
  cases a with
  | acquire c =>
    simp only [step] at hstep
    split at hstep
    · next hfree =>
      cases hstep
      refine cursor_inv h (fun d _ => hquiet hfree.1 d) ?_ (by simp [running])
      simp [CursorOk]
    · cases hstep
  | scan c =>
    simp only [step] at hstep
    split at hstep
    · next hlock => exact scan_inv h hlock hstep
    · cases hstep
  | unlock c => exact unlock_inv h hstep
  | yield c =>
    obtain ⟨p, hrun, hstep⟩ := bind_eq_some_iff.mp hstep
    split at hstep
    · next hlock =>
      cases hstep
      exact inv_resume h hrun (fun d _ => hquiet hlock d) rfl
        (set_keepsBusy_except _ p _) (fun q => setThread_kont_embryo _ p q _)
    · cases hstep
  | sleep c chan =>
    obtain ⟨p, hrun, hstep⟩ := bind_eq_some_iff.mp hstep
    split at hstep
    · next hlock =>
      cases hstep
      exact inv_resume h hrun (fun d _ => hquiet hlock.1 d) rfl
        (set_keepsBusy_except _ p _) (fun q => setThread_kont_embryo _ p q _)
    · cases hstep
  | wait c =>
    obtain ⟨p, hrun, hstep⟩ := bind_eq_some_iff.mp hstep
    split at hstep
    · next hlock =>
      cases hstep
      exact waitTurn_inv h hrun (fun d _ => hquiet hlock.1 d)
    · cases hstep
  | exit c status =>
    obtain ⟨p, hrun, hstep⟩ := bind_eq_some_iff.mp hstep
    split at hstep
    · next hlock =>
      cases hstep
      refine inv_resume h hrun (fun d _ => hquiet hlock.1 d) rfl ?_ (fun _ => rfl)
      exact (set_keepsBusy_except _ p _).trans (exit_keepsBusy _ p _)
    · cases hstep
  | wakeup chan =>
    simp only [step] at hstep
    split at hstep
    · next hlock =>
      cases hstep
      exact inv_of_table h (hquiet hlock) (wakeup1_keepsBusy _ _ _)
    · cases hstep
  | kill c pid =>
    obtain ⟨p, hrun, hstep⟩ := bind_eq_some_iff.mp hstep
    split at hstep
    · next hlock =>
      cases hstep
      exact inv_of_table h (hquiet hlock.1) (kill_keepsBusy _ _)
    · cases hstep
  | setprio c pid prio =>
    obtain ⟨p, hrun, hstep⟩ := bind_eq_some_iff.mp hstep
    split at hstep
    · next hlock =>
      cases hstep
      exact inv_of_table h (hquiet hlock.1) (setprio_keepsBusy _ _ _)
    · cases hstep
  | forkAlloc c => exact forkAlloc_inv h hstep
  | forkFail c => exact forkFail_inv h hstep
  | forkCopy c => exact forkCopy_inv h hstep
  | forkDone c => exact forkDone_inv h hstep

theorem reachable_inv (h : ReflTransGen Step boot k) : Inv k := by
  refine Lib.invariant_of_run _ h boot_inv ?_
  intro a b ha hstep
  cases hstep with
  | act act hstep => exact step_inv ha act hstep

/-- Processor `c` switches to process `p` in the step from `k` to `k'`. -/
def Dispatches (k : Kernel) (c : Nat) (p : Slot) (k' : Kernel) : Prop :=
  k.step (.scan c) = some k' ∧ k.running c = none ∧ k'.running c = some p

/-- Strict priority: whenever the scheduler of any processor dispatches a
process of normal priority, no process of the table is at that moment both
runnable and of high priority. -/
theorem strict_priority {k k' : Kernel} {c : Nat} {p : Slot} (hreach : ReflTransGen Step boot k)
    (hdispatch : k.Dispatches c p k') (hprio : (k.table p).prio = NORM_PRIO) (j : Slot) :
    ¬ ((k.table j).state = .RUNNABLE ∧ (k.table j).prio = HI_PRIO) := by
  obtain ⟨hstep, _, hrun⟩ := hdispatch
  have hcursor := (reachable_inv hreach).cursor c
  unfold CursorOk at hcursor
  simp only [step] at hstep
  split at hstep
  · unfold scan at hstep
    split at hstep
    · next q hpc =>
      -- the first loop only switches to processes of high priority
      split at hstep
      · split at hstep
        · next hhi =>
          cases hstep
          simp only [running, dispatch, update_self, Option.some.injEq] at hrun
          subst hrun
          rw [hhi.1] at hprio
          cases hprio
        · cases hstep
          simp [running, setCpu] at hrun
      · split at hstep <;> cases hstep <;> simp [running, setCpu] at hrun
    · next q hpc =>
      rw [hpc] at hcursor
      intro hj
      exact hcursor.2 j ⟨hj.2, hj.1⟩
    · cases hstep
      simp [running, setCpu] at hrun
    · cases hstep
  · cases hstep

/-- Processor 0 up to its first dispatch: `acquire`, one pass over the table
and the start of the second loop. -/
def firstPass : List Act := .acquire 0 :: List.replicate (NPROC + 1) (.scan 0)

/-- The first process runs on processor 0, forks and takes the high priority;
processor 1 passes the table and comes to the child. -/
def secondPass : List Act :=
  firstPass ++ [.scan 0, .unlock 0, .forkAlloc 0, .forkCopy 0, .forkDone 0,
    .setprio 0 1 HI_PRIO, .acquire 1] ++ List.replicate (NPROC + 2) (.scan 1)

/-- The child is dispatched while its parent, of high priority, runs. -/
theorem strict_priority_second_dispatch :
    ∃ k k' : Kernel, boot.run secondPass = some k ∧ (k.table boot.initproc).prio = HI_PRIO ∧
      ∃ p, k.Dispatches 1 p k' ∧ (k.table p).prio = NORM_PRIO ∧
        ∀ j, ¬ ((k.table j).state = .RUNNABLE ∧ (k.table j).prio = HI_PRIO) := by
  have hrun : (boot.run secondPass).isSome := by decide +kernel
  obtain ⟨k, hk⟩ := isSome_iff_exists.mp hrun
  have hscan : ((boot.run secondPass).bind fun k => k.step (.scan 1)).isSome := by
    decide +kernel
  have hprio : ((boot.run secondPass).map fun k =>
      (k.running 1, (k.table boot.initproc).prio, (k.table ⟨1, by decide⟩).prio)) =
      some (none, HI_PRIO, NORM_PRIO) := by decide +kernel
  have hbusy : (((boot.run secondPass).bind fun k => k.step (.scan 1)).map fun k => k.running 1) =
      some (some ⟨1, by decide⟩) := by decide +kernel
  rw [hk] at hscan hprio hbusy
  obtain ⟨k', hk'⟩ := isSome_iff_exists.mp hscan
  simp only [bind_some] at hk' hbusy
  rw [hk'] at hbusy
  simp only [Option.map_some, Option.some.injEq, Prod.mk.injEq] at hprio hbusy
  obtain ⟨hidle, hhigh, hnorm⟩ := hprio
  have hdispatch : k.Dispatches 1 ⟨1, by decide⟩ k' := ⟨hk', hidle, hbusy⟩
  exact ⟨k, k', hk, hhigh, _, hdispatch, hnorm,
    strict_priority (reflTransGen_of_run hk) hdispatch hnorm⟩

end Kernel

end Xv6.Sched

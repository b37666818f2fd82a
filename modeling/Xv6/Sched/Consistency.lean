import Xv6.Sched.RoundRobin
import Xv6.Sched.System

/-!
Consistency of the process table and the processors. A process is `RUNNING`
exactly while one processor has it as `c->proc`; the parent of every slot is
alive; every process has a kernel stack and a page directory of its own, and
these are never on the free list while a processor runs on them; pids differ.

The slots follow from the life cycle that the machine refines. The processors
need their own argument, since `ptable.lock` is handed over by `swtch`: a
processor that still runs on the stack of a process that gave up the processor
holds the lock, and so no `wait` can free that stack.
-/

namespace Xv6.Sched

open Function Option Table

/-- The states in which a process has a kernel stack and an address space. -/
def ProcState.Live (st : ProcState) : Prop :=
  st = .SLEEPING ∨ st = .RUNNABLE ∨ st = .RUNNING ∨ st = .ZOMBIE

def NoNewRunning (t t' : Table) : Prop :=
  ∀ q, (t' q).state = .RUNNING → (t q).state = .RUNNING

namespace Table

theorem set_noNewRunning (t : Table) (p : Slot) (f : Proc → Proc)
    (hf : (f (t p)).state = .RUNNING → (t p).state = .RUNNING) : NoNewRunning t (t.set p f) := by
  intro q hq
  rcases eq_or_ne q p with rfl | hne
  · rw [set_self] at hq
    exact hf hq
  · rw [set_of_ne t f hne] at hq
    exact hq

theorem wakeup1_noNewRunning (t : Table) (chan : Chan) : NoNewRunning t (t.wakeup1 chan) := by
  intro q hq
  unfold wakeup1 at hq
  split at hq
  · cases hq
  · exact hq

theorem kill_noNewRunning (t : Table) (pid : Int) : NoNewRunning t (t.kill pid).1 := by
  unfold kill
  split
  · apply set_noNewRunning
    simp only
    split
    · exact nofun
    · exact id
  · exact fun _ => id

theorem setprio_noNewRunning (t : Table) (pid : Int) (prio : Nat) :
    NoNewRunning t (t.setprio pid prio).1 := by
  unfold setprio
  split
  · exact set_noNewRunning t _ _ id
  · exact fun _ => id

theorem wait_noNewRunning (t : Table) (cur : Slot) : NoNewRunning t (t.wait cur).1 := by
  rcases t.wait_cases cur with ⟨q, _, _, _, heq⟩ | ⟨_, heq, _⟩ | ⟨_, heq⟩
  · rw [heq]
    exact set_noNewRunning t q _ nofun
  · rw [heq]
    exact fun _ => id
  · rw [heq]
    exact fun _ => id

theorem reparent_noNewRunning (t : Table) (cur init : Slot) :
    NoNewRunning t (t.reparent cur init) := by
  rw [reparent_eq]
  generalize List.finRange NPROC = slots
  induction slots generalizing t with
  | nil => exact fun _ => id
  | cons p rest ih =>
    rw [List.foldl_cons]
    have hadopt : NoNewRunning t (adopt cur init t p) := by
      unfold adopt
      split
      · simp only
        split
        · exact fun q hq => set_noNewRunning t p _ id q (wakeup1_noNewRunning _ _ q hq)
        · exact set_noNewRunning t p _ id
      · exact fun _ => id
    exact fun q hq => hadopt q (ih _ q hq)

theorem exit_noNewRunning (t : Table) (cur init : Slot) : NoNewRunning t (t.exit cur init) := by
  have hrest (t' : Table) (ht : NoNewRunning t t') :
      NoNewRunning t ((t'.reparent cur init).set cur fun q => { q with state := .ZOMBIE }) := by
    intro q hq
    apply ht
    apply reparent_noNewRunning
    exact set_noNewRunning _ cur _ (by simp) q hq
  unfold exit
  simp only
  split
  · exact hrest _ (wakeup1_noNewRunning t _)
  · exact hrest _ fun _ => id

end Table

variable {k k' k1 : Kernel} {c d : Nat} {p : Slot} {s s' : System}

namespace Kernel

/-- The processors and the table agree on who runs. -/
structure CpuInv (k : Kernel) : Prop where
  proc : ∀ c, (k.cpu c).proc = k.running c
  busy : ∀ p, (k.table p).state = .RUNNING → ∃ c, k.running c = some p

theorem boot_cpuInv : CpuInv boot where
  proc _ := rfl
  busy p h := by
    simp only [boot] at h
    split at h <;> cases h

theorem running_of_step {a : Act} (h : k.step a = some k') (c : Nat) (p : Slot) :
    (k.running c = some p → k'.running c = some p ∨ k'.lock = some c) ∧
      (k'.running c = some p → k.running c = some p ∨ a = .scan c) := by
  have hsame (hcpu : k'.cpu c = k.cpu c) : k'.running c = k.running c := by
    unfold running
    rw [hcpu]
  cases step_cpuMove h c
  case same hcpu =>
    rw [hsame hcpu]
    exact ⟨.inl, .inl⟩
  case acquire hpc hcpu => simp [running, hpc, hcpu]
  case hiBack q hlock hpc hcpu => simp [running, hpc, hcpu, hlock]
  case normBack q hlock hpc hcpu => simp [running, hpc, hcpu, hlock]
  case scan ha =>
    subst ha
    cases scan_move h
    all_goals
      next hpc hcpu => simp [running, hpc, hcpu]

theorem proc_of_step {a : Act} (h : k.step a = some k') (hproc : ∀ c,
    (k.cpu c).proc = k.running c) (c : Nat) : (k'.cpu c).proc = k'.running c := by
  have hc := hproc c
  unfold running at hc ⊢
  cases step_cpuMove h c
  case same hcpu =>
    rw [hcpu]
    exact hc
  case acquire hpc hcpu =>
    rw [hcpu]
    rw [hpc] at hc
    exact hc
  case hiBack q hlock hpc hcpu => rw [hcpu]
  case normBack q hlock hpc hcpu => rw [hcpu]
  case scan ha =>
    subst ha
    cases scan_move h
    case hiDispatch hcpu => rw [hcpu]
    case normDispatch hcpu => rw [hcpu]
    all_goals
      next hpc hcpu =>
        rw [hcpu]
        rw [hpc] at hc
        exact hc

/-- A thread that leaves its processor is not `RUNNING`. -/
def Leaves (k k' : Kernel) : Prop :=
  ∀ c p, k.running c = some p → k'.running c = some p ∨ (k'.table p).state ≠ .RUNNING

theorem leaves_of_cpu (h : k'.cpu = k.cpu) : Leaves k k' := by
  intro c p hrun
  refine .inl ?_
  unfold running at hrun ⊢
  rw [h]
  exact hrun

theorem resume_leaves (hrun : k.running d = some p)
    (hcpu : k1.cpu = k.cpu) (hstate : (k1.table p).state ≠ .RUNNING) :
    Leaves k (k1.resume d) := by
  intro c q hq
  rcases eq_or_ne c d with rfl | hc
  · rw [hrun] at hq
    cases hq
    exact .inr hstate
  · refine .inl ?_
    unfold running at hq ⊢
    simpa [resume, setCpu, hc, hcpu] using hq

theorem waitTurn_leaves (hrun : k.running d = some p)
    (hcpu : k1.cpu = k.cpu) : Leaves k (k1.waitTurn d p) := by
  unfold waitTurn
  split
  · refine resume_leaves hrun (by exact hcpu) ?_
    simp [setThread, Table.sleep]
  · exact leaves_of_cpu (by exact hcpu)

theorem waitTurn_noNewRunning (d : Nat) (p : Slot) :
    NoNewRunning k1.table (k1.waitTurn d p).table := by
  have hwait := k1.table.wait_noNewRunning p
  unfold waitTurn
  split
  · next t heq =>
    rw [heq] at hwait
    exact fun q hq => hwait q (set_noNewRunning t p _ (by simp) q hq)
  · next t _ _ heq =>
    rw [heq] at hwait
    exact hwait

theorem leaves_of_step {a : Act} (h : k.step a = some k')
    (ha : ∀ c, a ≠ .scan c) : NoNewRunning k.table k'.table ∧ Leaves k k' := by
  cases a with
  | acquire d =>
    simp only [step] at h
    split at h
    · next hfree =>
      cases h
      refine ⟨fun _ => id, ?_⟩
      intro c p hrun
      refine .inl ?_
      rcases eq_or_ne c d with rfl | hc
      · simp [running, hfree.2] at hrun
      · unfold running at hrun ⊢
        simpa [setCpu, hc] using hrun
    · cases h
  | scan d => exact absurd rfl (ha d)
  | unlock d =>
    obtain ⟨p, hrun, h⟩ := bind_eq_some_iff.mp h
    have hchan : NoNewRunning k.table (k.table.set p fun q => { q with chan := none }) :=
      set_noNewRunning _ p _ id
    split at h
    · split at h
      · cases h
        exact ⟨fun _ => id, leaves_of_cpu (by rfl)⟩
      · cases h
        exact ⟨hchan, leaves_of_cpu (by rfl)⟩
      · cases h
        exact ⟨fun q hq => hchan q (waitTurn_noNewRunning d p q hq), waitTurn_leaves hrun (by rfl)⟩
    · cases h
  | yield d =>
    obtain ⟨p, hrun, h⟩ := bind_eq_some_iff.mp h
    split at h <;> cases h
    exact ⟨set_noNewRunning _ p _ (by simp),
      resume_leaves hrun (by rfl) (by simp [setThread])⟩
  | sleep d chan =>
    obtain ⟨p, hrun, h⟩ := bind_eq_some_iff.mp h
    split at h <;> cases h
    exact ⟨set_noNewRunning _ p _ (by simp),
      resume_leaves hrun (by rfl) (by simp [setThread, Table.sleep])⟩
  | wait d =>
    obtain ⟨p, hrun, h⟩ := bind_eq_some_iff.mp h
    split at h <;> cases h
    exact ⟨waitTurn_noNewRunning d p, waitTurn_leaves hrun (by rfl)⟩
  | exit d status =>
    obtain ⟨p, hrun, h⟩ := bind_eq_some_iff.mp h
    split at h <;> cases h
    refine ⟨?_, resume_leaves hrun (by rfl) (by simp [Table.exit])⟩
    intro q hq
    exact set_noNewRunning _ p _ id q (exit_noNewRunning _ p _ q hq)
  | wakeup chan =>
    simp only [step] at h
    split at h <;> cases h
    exact ⟨wakeup1_noNewRunning _ _, leaves_of_cpu (by rfl)⟩
  | kill d pid =>
    obtain ⟨p, hrun, h⟩ := bind_eq_some_iff.mp h
    split at h <;> cases h
    exact ⟨kill_noNewRunning _ _, leaves_of_cpu (by rfl)⟩
  | setprio d pid prio =>
    obtain ⟨p, hrun, h⟩ := bind_eq_some_iff.mp h
    split at h <;> cases h
    exact ⟨setprio_noNewRunning _ _ _, leaves_of_cpu (by rfl)⟩
  | forkAlloc d =>
    obtain ⟨p, hrun, h⟩ := bind_eq_some_iff.mp h
    split at h
    · obtain ⟨⟨np, t⟩, halloc, h⟩ := bind_eq_some_iff.mp h
      cases h
      unfold Table.allocproc at halloc
      split at halloc <;> cases halloc
      exact ⟨set_noNewRunning _ np _ (by simp), leaves_of_cpu (by rfl)⟩
    · cases h
  | forkFail d =>
    obtain ⟨p, hrun, np, hnp, h⟩ := bind_bind_eq_some h
    split at h <;> cases h
    exact ⟨set_noNewRunning _ np _ (by simp), leaves_of_cpu (by rfl)⟩
  | forkCopy d =>
    obtain ⟨p, hrun, np, hnp, h⟩ := bind_bind_eq_some h
    split at h <;> cases h
    exact ⟨set_noNewRunning _ np _ id, leaves_of_cpu (by rfl)⟩
  | forkDone d =>
    obtain ⟨p, hrun, np, hnp, h⟩ := bind_bind_eq_some h
    split at h <;> cases h
    exact ⟨set_noNewRunning _ np _ (by simp), leaves_of_cpu (by rfl)⟩

theorem busy_of_scan (h : k.step (.scan c) = some k') (p : Slot)
    (hp : (k'.table p).state = .RUNNING) : (k.table p).state = .RUNNING ∨ k'.running c = some p := by
  have hdispatch (q : Slot) (pc : SchedPc) (hpc : pc = .hiRun q ∨ pc = .normRun q)
      (hp : ((k.dispatch c q pc).table p).state = .RUNNING) :
      (k.table p).state = .RUNNING ∨ (k.dispatch c q pc).running c = some p := by
    rcases eq_or_ne p q with rfl | hne
    · refine .inr ?_
      rcases hpc with rfl | rfl <;> simp [running, dispatch]
    · refine .inl ?_
      simp only [dispatch] at hp
      rwa [Table.set_of_ne _ _ hne] at hp
  simp only [step] at h
  split at h
  · unfold scan at h
    split at h
    · split at h
      · split at h <;> cases h
        · exact hdispatch _ _ (Or.inl rfl) hp
        · exact .inl hp
      · split at h <;> cases h <;> exact .inl hp
    · split at h
      · split at h <;> cases h
        · exact hdispatch _ _ (Or.inr rfl) hp
        · exact .inl hp
      · cases h
        exact .inl hp
    · cases h
      exact .inl hp
    · cases h
  · cases h

theorem running_of_scan (h : k.step (.scan c) = some k')
    (hd : k.running d = some p) : k'.running d = some p := by
  rcases eq_or_ne d c with rfl | hne
  · cases scan_move h
    all_goals
      next hpc _ => simp [running, hpc] at hd
  · unfold running at hd ⊢
    rw [scan_cpu_of_ne h hne]
    exact hd

theorem cpuInv_of_step {a : Act} (hC : CpuInv k) (h : k.step a = some k') : CpuInv k' where
  proc := proc_of_step h hC.proc
  busy p hp := by
    by_cases ha : ∃ c, a = .scan c
    · obtain ⟨c, rfl⟩ := ha
      rcases busy_of_scan h p hp with hold | hnew
      · obtain ⟨d, hd⟩ := hC.busy p hold
        exact ⟨d, running_of_scan h hd⟩
      · exact ⟨c, hnew⟩
    · obtain ⟨hold, hleave⟩ := leaves_of_step h fun c hc => ha ⟨c, hc⟩
      obtain ⟨c, hc⟩ := hC.busy p (hold p hp)
      rcases hleave c p hc with hstill | hgone
      · exact ⟨c, hstill⟩
      · exact absurd hp hgone

theorem holds_of_guard {α β : Type} {running : Option α} {guard : α → Prop}
    {hdec : DecidablePred guard} {next : α → Option β} {b : β}
    (h : (running.bind fun p => if guard p then next p else none) = some b) :
    ∃ p, guard p := by
  obtain ⟨p, _, h⟩ := bind_eq_some_iff.mp h
  split at h
  · next hguard => exact ⟨p, hguard⟩
  · cases h

theorem lock_of_step {a : Act} (h : k.step a = some k')
    (hlock : k.lock = some c) (hrun : k.running c = none) (ha : a ≠ .scan c) :
    k'.lock = some c := by
  have hnot : k.lock ≠ none := by simp [hlock]
  cases a with
  | acquire d =>
    simp only [step] at h
    split at h
    · next hfree => exact absurd hfree.1 hnot
    · cases h
  | scan d =>
    simp only [step] at h
    split at h
    · next hd =>
      rw [hlock] at hd
      cases hd
      exact absurd rfl ha
    · cases h
  | unlock d =>
    obtain ⟨p, hp, h⟩ := bind_eq_some_iff.mp h
    split at h
    · next hd =>
      rw [hlock] at hd
      cases hd
      rw [hrun] at hp
      cases hp
    · cases h
  | wakeup chan =>
    simp only [step] at h
    split at h
    · next hfree => exact absurd hfree hnot
    · cases h
  | yield d =>
    obtain ⟨p, hfree⟩ := holds_of_guard h
    exact absurd hfree hnot
  | sleep d chan =>
    obtain ⟨p, hfree⟩ := holds_of_guard h
    exact absurd hfree.1 hnot
  | wait d =>
    obtain ⟨p, hfree⟩ := holds_of_guard h
    exact absurd hfree.1 hnot
  | exit d status =>
    obtain ⟨p, hfree⟩ := holds_of_guard h
    exact absurd hfree.1 hnot
  | kill d pid =>
    obtain ⟨p, hfree⟩ := holds_of_guard h
    exact absurd hfree.1 hnot
  | setprio d pid prio =>
    obtain ⟨p, hfree⟩ := holds_of_guard h
    exact absurd hfree.1 hnot
  | forkAlloc d =>
    obtain ⟨p, hfree⟩ := holds_of_guard h
    exact absurd hfree.1 hnot
  | forkFail d =>
    obtain ⟨p, hp, np, hnp, h⟩ := bind_bind_eq_some h
    split at h <;> cases h
    exact hlock
  | forkCopy d =>
    obtain ⟨p, hp, np, hnp, h⟩ := bind_bind_eq_some h
    split at h <;> cases h
    exact hlock
  | forkDone d =>
    obtain ⟨p, hp, np, hnp, h⟩ := bind_bind_eq_some h
    split at h
    · next hfree => exact absurd hfree hnot
    · cases h

end Kernel

namespace System

open Kernel

theorem KernelMove.cpuInv {a : Act} (hm : KernelMove s a s') (h : s.k.CpuInv) : s'.k.CpuInv := by
  cases hm with
  | same hk _ =>
    rw [hk]
    exact h
  | scan c _ hstep _ => exact cpuInv_of_step h hstep
  | switchkvm c _ hk _ =>
    rw [hk]
    exact h
  | step b _ _ _ hstep _ => exact cpuInv_of_step h hstep
  | mark p killed status hk _ =>
    rw [hk]
    exact ⟨h.proc, fun q hq => h.busy q (set_noNewRunning _ p _ id q hq)⟩

/-- A processor that runs no process any more but still uses its stack holds
the lock. -/
structure StackInv (s : System) : Prop where
  run : ∀ c p, s.k.running c = some p → s.onStack c = some p
  stay : ∀ c p, s.onStack c = some p → s.k.running c = some p ∨ s.k.lock = some c

theorem KernelMove.stackInv {a : Act} (hm : KernelMove s a s') (h : StackInv s) : StackInv s' := by
  cases hm with
  | same hk hstack =>
    refine ⟨fun c p hc => ?_, fun c p hc => ?_⟩
    · rw [hk] at hc
      rw [hstack]
      exact h.run c p hc
    · rw [hstack] at hc
      rw [hk]
      exact h.stay c p hc
  | scan c hnone hstep hstack =>
    have hlock : s.k.lock = some c := by
      simp only [Kernel.step] at hstep
      split at hstep
      · assumption
      · cases hstep
    refine ⟨fun d p hd => ?_, fun d p hd => ?_⟩
    · rw [hstack]
      rcases eq_or_ne d c with rfl | hne
      · rw [update_self]
        exact hd
      · rw [update_of_ne hne]
        rcases (running_of_step hstep d p).2 hd with hold | hscan
        · exact h.run d p hold
        · cases hscan
          exact absurd rfl hne
    · rw [hstack] at hd
      rcases eq_or_ne d c with rfl | hne
      · rw [update_self] at hd
        exact .inl hd
      · rw [update_of_ne hne] at hd
        rcases h.stay d p hd with hrun | hheld
        · exact .inl (running_of_scan hstep hrun)
        · rw [hlock] at hheld
          cases hheld
          exact absurd rfl hne
  | switchkvm c hnone hk hstack =>
    refine ⟨fun d p hd => ?_, fun d p hd => ?_⟩
    · rw [hk] at hd
      rw [hstack]
      rcases eq_or_ne d c with rfl | hne
      · rw [hnone] at hd
        cases hd
      · rw [update_of_ne hne]
        exact h.run d p hd
    · rw [hstack] at hd
      rw [hk]
      rcases eq_or_ne d c with rfl | hne
      · simp at hd
      · rw [update_of_ne hne] at hd
        exact h.stay d p hd
  | step b hscan _ _ hstep hstack =>
    refine ⟨fun c p hc => ?_, fun c p hc => ?_⟩
    · rw [hstack]
      rcases (running_of_step hstep c p).2 hc with hold | hb
      · exact h.run c p hold
      · exact absurd hb (hscan c)
    · rw [hstack] at hc
      rcases h.stay c p hc with hrun | hlock
      · exact (running_of_step hstep c p).1 hrun
      · cases hnow : s.k.running c with
        | none => exact .inr (lock_of_step hstep hlock hnow (hscan c))
        | some q =>
          have hq := h.run c q hnow
          rw [hc] at hq
          cases hq
          exact (running_of_step hstep c p).1 hnow
  | mark p killed status hk hstack =>
    refine ⟨fun c q hc => ?_, fun c q hc => ?_⟩
    · rw [hk] at hc
      rw [hstack]
      exact h.run c q hc
    · rw [hstack] at hc
      rw [hk]
      exact h.stay c q hc

theorem lock_of_reaped {a : Act} (h : s.step a = some s') {w pid status : Int}
    (hev : Event.reaped w pid status ∈ s.emits a) :
    ∃ c p, s.k.running c = some p ∧ (s.k.lock = none ∨ s.k.lock = some c) := by
  cases a
  case unlock c =>
    obtain ⟨p, hrun, h⟩ := bind_eq_some_iff.mp h
    obtain ⟨k, hk, _⟩ := bind_eq_some_iff.mp h
    obtain ⟨p', _, hk⟩ := bind_eq_some_iff.mp hk
    split at hk
    · next hlock => exact ⟨c, p, hrun, .inr hlock⟩
    · cases hk
  case wait c =>
    obtain ⟨p, hrun, h⟩ := bind_eq_some_iff.mp h
    split at h
    · cases h
    · obtain ⟨k, hk, _⟩ := bind_eq_some_iff.mp h
      obtain ⟨p', _, hk⟩ := bind_eq_some_iff.mp hk
      split at hk
      · next hlock => exact ⟨c, p, hrun, .inl hlock.1⟩
      · cases hk
  case exitBegin c d =>
    obtain ⟨p, hrun, _⟩ := bind_eq_some_iff.mp h
    simp [emits, hrun] at hev
  case exitEnd c =>
    obtain ⟨p, hrun, _⟩ := bind_eq_some_iff.mp h
    simp [emits, hrun] at hev
  case forkParent c =>
    obtain ⟨p, hrun, h⟩ := bind_eq_some_iff.mp h
    obtain ⟨np, hnp, _⟩ := bind_eq_some_iff.mp h
    simp [emits, hrun, hnp] at hev
  all_goals cases hev

/-- The process whose stack a processor uses has not been freed. -/
def StackBusy (s : System) : Prop := ∀ c p, s.onStack c = some p → View.Busy (s.view.life p)

/-- `wait` frees no process on whose stack a processor runs: that processor
would hold the lock. -/
theorem not_onStack_of_reaped {a : Act} (hI : s.k.Inv) (hS : StackInv s)
    (h : s.step a = some s') {w pid status : Int} (hev : Event.reaped w pid status ∈ s.emits a)
    (hzombie : (s.view.life p).phase = .zombie) (c : Nat) : s.onStack c ≠ some p := by
  intro hc
  obtain ⟨d, q, hq, hlock⟩ := lock_of_reaped h hev
  have halive : (s.view.life p).phase = .alive := by
    rcases hS.stay c p hc with hrun | hheld
    · exact alive_of_running hI hrun
    · rw [hheld] at hlock
      rcases hlock with hlock | hlock
      · cases hlock
      · cases hlock
        have hqp := hS.run c q hq
        rw [hc] at hqp
        cases hqp
        exact alive_of_running hI hq
  rw [hzombie] at halive
  cases halive

theorem stackBusy_of_step {a : Act} (hI : s.k.Inv) (hS : StackInv s)
    (hB : StackBusy s) (h : s.step a = some s') : StackBusy s' := by
  have hmove := step_kernel h
  have hI' := hmove.inv hI
  intro c p hc
  by_cases hrun : s'.k.running c = some p
  · exact .inl (alive_of_running hI' hrun)
  have hold : s.onStack c = some p := by
    cases hmove with
    | same _ hstack => rwa [hstack] at hc
    | scan d _ _ hstack =>
      rw [hstack] at hc
      rcases eq_or_ne c d with rfl | hne
      · rw [update_self] at hc
        exact absurd hc hrun
      · rwa [update_of_ne hne] at hc
    | switchkvm d _ _ hstack =>
      rw [hstack] at hc
      rcases eq_or_ne c d with rfl | hne
      · simp at hc
      · rwa [update_of_ne hne] at hc
    | step _ _ _ _ _ hstack => rwa [hstack] at hc
    | mark _ _ _ _ hstack => rwa [hstack] at hc
  rcases (step_effect hI h).busy (hB c p hold) with hbusy | ⟨hzombie, w, pid, status, hev⟩
  · exact hbusy
  · exact absurd hold (not_onStack_of_reaped hI hS h hev hzombie c)

theorem busy_of_live (h : (s.k.table p).state.Live) : View.Busy (s.view.life p) := by
  have hphase : (s.view.life p).phase = (s.k.table p).state.phase := rfl
  unfold View.Busy
  rw [hphase]
  rcases h with h | h | h | h <;> simp [h, ProcState.phase]

/-- The invariant of the table and the processors. -/
def Consistent (s : System) : Prop :=
  -- a process is `RUNNING` exactly when it is `c->proc` of exactly one processor
  (∀ p, (s.k.table p).state = .RUNNING ↔ ∃! c, (s.k.cpu c).proc = some p) ∧
  -- no slot has an `UNUSED` parent
  (∀ p q, (s.k.table p).state = .UNUSED → (s.k.table q).parent ≠ some p) ∧
  -- a process has a stack and a page directory, not free and no other slot's; and
  -- so has a process on whose stack a processor still runs
  (∀ p, (s.k.table p).state.Live ∨ (∃ c, s.onStack c = some p) →
    ∃ stack dir, s.mem.kstack p = some stack ∧ s.mem.pgdir p = some dir ∧
      ∀ f, f = stack ∨ f = dir → f ∉ s.mem.free ∧ ∀ q, q ≠ p → f ∉ s.view.owned q) ∧
  -- pids differ
  ∀ p q, (s.k.table p).state ≠ .UNUSED → (s.k.table q).state ≠ .UNUSED →
    (s.k.table p).pid = (s.k.table q).pid → p = q

theorem consistent_of_inv (hI : Inv s) (hC : s.k.CpuInv) (hB : StackBusy s) : Consistent s := by
  refine ⟨fun p => ⟨fun hp => ?_, ?_⟩, fun p q hp hq => ?_, fun p hp => ?_, fun p q hp hq => ?_⟩
  · obtain ⟨c, hc⟩ := hC.busy p hp
    refine ⟨c, (hC.proc c).trans hc, fun d hd => ?_⟩
    exact hI.kernel.runUnique d c p ((hC.proc d).symm.trans hd) hc
  · rintro ⟨c, hc, _⟩
    exact hI.kernel.run c p ((hC.proc c).symm.trans hc)
  · have halive := (hI.view.parentAlive q p hq).1
    rw [phase_eq, hp] at halive
    cases halive
  · have hbusy : View.Busy (s.view.life p) := by
      rcases hp with hlive | ⟨c, hc⟩
      · exact busy_of_live hlive
      · exact hB c p hc
    obtain ⟨stack, dir, hstack, hdir, _, hpages⟩ := hI.mem.pages hbusy
    exact ⟨stack, dir, hstack, hdir, hpages⟩
  · exact hI.view.pidInj p q (phase_of_used hp)

/-- Every run keeps the process table and the processors consistent, and a
step that frees a zombie does so while no processor runs on its stack or page
directory. -/
theorem table_consistent {n : Nat} {tr : List Event} {s : System} (h : Run (boot n) tr s) :
    Consistent s ∧ ∀ a s' p, s.step a = some s' → (s.k.table p).state = .ZOMBIE →
      (s'.k.table p).state = .UNUSED → ∀ c, s.onStack c ≠ some p := by
  obtain ⟨hI, hC, hS, hB⟩ := h.induct (fun _ s => s.k.CpuInv ∧ StackInv s ∧ StackBusy s)
    ⟨boot_cpuInv, ⟨nofun, nofun⟩, nofun⟩ fun tr s a s' hI ⟨hC, hS, hB⟩ hstep =>
      ⟨(step_kernel hstep).cpuInv hC, (step_kernel hstep).stackInv hS,
        stackBusy_of_step hI.kernel hS hB hstep⟩
  refine ⟨consistent_of_inv hI hC hB, fun a s' p hstep hzombie hunused => ?_⟩
  have hphase : (s.view.life p).phase = .zombie := by
    rw [phase_eq, hzombie]
    rfl
  rcases (step_effect hI.kernel hstep).busy (Or.inr hphase) with hbusy | ⟨_, w, pid, status, hev⟩
  · have hfree : (s'.view.life p).phase = .free := by
      rw [phase_eq, hunused]
      rfl
    unfold View.Busy at hbusy
    rw [hfree] at hbusy
    rcases hbusy with hbusy | hbusy <;> cases hbusy
  · exact not_onStack_of_reaped hI.kernel hS hstep hev hphase

theorem table_consistent_fork : ∃ tr s, (boot 2).runActs forkActs = some (tr, s) ∧
    tr = [.fork 1 2] ∧ Consistent s := by
  obtain ⟨⟨tr, s⟩, hrun⟩ := isSome_iff_exists.mp
    (show ((boot 2).runActs forkActs).isSome = true by decide +kernel)
  refine ⟨tr, s, hrun, ?_, (table_consistent (run_of_acts hrun)).1⟩
  have htrace : ((boot 2).runActs forkActs).map Prod.fst = some [.fork 1 2] := by decide +kernel
  rw [hrun] at htrace
  exact Option.some.inj htrace

end System

end Xv6.Sched

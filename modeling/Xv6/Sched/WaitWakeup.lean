import Xv6.Sched.System

/-!
No lost wakeup between `exit` and `wait`. A process that sleeps in `wait` has
seen no zombie child with the lock held, and gave the lock up only inside the
scheduler. From then on a child becomes a zombie, or a zombie becomes its
child, only in `exit`, which wakes the parent before it sets `ZOMBIE` and
wakes init when it hands over a zombie.
-/

namespace Xv6.Sched

open Option Table

variable {t : Table} {p q cur init : Slot} {k : Kernel}

namespace Table

def AsleepOn (t : Table) (p : Slot) (chan : Chan) : Prop :=
  (t p).state = .SLEEPING ∧ (t p).chan = some chan

/-- Nobody sleeps in `wait` who has a zombie child. -/
def NoneLost (t : Table) : Prop :=
  ∀ p q, t.AsleepOn p (.proc p) → (t q).parent = some p → (t q).state ≠ .ZOMBIE

/-- A step that puts nobody to sleep in `wait` and makes no zombie child. -/
structure Calm (t t' : Table) : Prop where
  asleep : ∀ p, t'.AsleepOn p (.proc p) → t.AsleepOn p (.proc p)
  zombie : ∀ q, (t' q).state = .ZOMBIE → (t q).state = .ZOMBIE ∧ (t' q).parent = (t q).parent

theorem Calm.refl (t : Table) : Calm t t := ⟨fun _ => id, fun _ hq => ⟨hq, rfl⟩⟩

theorem Calm.noneLost {t' : Table} (h : Calm t t') (hn : t.NoneLost) : t'.NoneLost := by
  intro p q hp hq hzombie
  obtain ⟨hold, hparent⟩ := h.zombie q hzombie
  exact hn p q (h.asleep p hp) (hparent.symm.trans hq) hold

theorem set_calm (t : Table) (p : Slot) (f : Proc → Proc)
    (hasleep : (f (t p)).state = .SLEEPING → (f (t p)).chan = some (.proc p) →
      (t p).state = .SLEEPING ∧ (t p).chan = some (.proc p))
    (hzombie : (f (t p)).state = .ZOMBIE →
      (t p).state = .ZOMBIE ∧ (f (t p)).parent = (t p).parent) : Calm t (t.set p f) where
  asleep q hq := by
    unfold AsleepOn at hq ⊢
    rcases eq_or_ne q p with rfl | hne
    · rw [set_self] at hq
      exact hasleep hq.1 hq.2
    · rw [set_of_ne t f hne] at hq
      exact hq
  zombie q hq := by
    rcases eq_or_ne q p with rfl | hne
    · rw [set_self] at hq ⊢
      exact hzombie hq
    · rw [set_of_ne t f hne] at hq ⊢
      exact ⟨hq, rfl⟩

theorem asleepOn_wakeup1 {chan chan' : Chan}
    (h : (t.wakeup1 chan).AsleepOn p chan') : t.AsleepOn p chan' ∧ chan' ≠ chan := by
  unfold AsleepOn wakeup1 at h
  split at h
  · cases h.1
  · next hnot =>
    refine ⟨h, ?_⟩
    rintro rfl
    exact hnot h

theorem wakeup1_calm (t : Table) (chan : Chan) : Calm t (t.wakeup1 chan) where
  asleep p hp := (asleepOn_wakeup1 hp).1
  zombie q hq := by
    unfold wakeup1 at hq ⊢
    split at hq
    · cases hq
    · next hnot =>
      rw [if_neg hnot]
      exact ⟨hq, rfl⟩

theorem kill_calm (t : Table) (pid : Int) : Calm t (t.kill pid).1 := by
  unfold kill
  split
  · dsimp only
    refine set_calm t _ _ ?_ ?_
    · simp only
      split
      · exact nofun
      · exact fun hs hc => ⟨hs, hc⟩
    · simp only
      split
      · exact nofun
      · exact fun hz => ⟨hz, trivial⟩
  · exact .refl t

theorem setprio_calm (t : Table) (pid : Int) (prio : Nat) : Calm t (t.setprio pid prio).1 := by
  unfold setprio
  split
  · dsimp only
    refine set_calm t _ _ ?_ ?_
    · exact fun hs hc => ⟨hs, hc⟩
    · exact fun hz => ⟨hz, rfl⟩
  · exact .refl t

theorem asleepOn_adopt {chan : Chan}
    (h : (adopt cur init t p).AsleepOn q chan) : t.AsleepOn q chan := by
  have hset (h : (t.set p fun q => { q with parent := some init }).AsleepOn q chan) :
      t.AsleepOn q chan := by
    unfold AsleepOn at h ⊢
    rcases eq_or_ne q p with rfl | hne
    · rw [set_self] at h
      exact h
    · rw [set_of_ne t _ hne] at h
      exact h
  unfold adopt at h
  split at h
  · simp only at h
    split at h
    · exact hset (asleepOn_wakeup1 h).1
    · exact hset h
  · exact h

theorem asleepOn_foldl {chan : Chan} (slots : List Slot)
    (h : (slots.foldl (adopt cur init) t).AsleepOn q chan) : t.AsleepOn q chan := by
  induction slots generalizing t with
  | nil => exact h
  | cons p rest ih => exact asleepOn_adopt (ih h)

theorem phase_zombie_iff (st : ProcState) : st.phase = .zombie ↔ st = .ZOMBIE := by
  cases st <;> simp [ProcState.phase]

/-- The loop in `exit` wakes init when it hands over a zombie. -/
theorem not_asleep_foldl (slots : List Slot) (hq : q ∈ slots)
    (hparent : (t q).parent = some cur) (hzombie : (t q).state = .ZOMBIE) (p : Slot) :
    ¬ (slots.foldl (adopt cur init) t).AsleepOn p (.proc init) := by
  induction slots generalizing t with
  | nil => cases hq
  | cons r rest ih =>
    rcases eq_or_ne q r with rfl | hne
    · intro h
      have hwoken := asleepOn_foldl rest h
      unfold adopt at hwoken
      rw [if_pos hparent] at hwoken
      simp only [set_self] at hwoken
      rw [if_pos hzombie] at hwoken
      exact (asleepOn_wakeup1 hwoken).2 rfl
    · -- `q` is still a zombie child of `cur` after the iteration for `r`
      have hcore := core_adopt cur init t r q
      rw [if_neg hne] at hcore
      refine ih (List.mem_of_ne_of_mem hne hq) ?_ ?_
      · exact (congrArg Core.parent hcore).trans hparent
      · rw [← phase_zombie_iff]
        refine (congrArg Core.phase hcore).trans ?_
        rw [Proc.core, hzombie]
        rfl

theorem exit_noneLost (hn : t.NoneLost) (hne : cur ≠ init)
    (hself : (t cur).parent ≠ some cur) : (t.exit cur init).NoneLost := by
  -- `t'` is the table after the parent has been woken
  have hrest (t' : Table) (hcalm : Calm t t') (hcore : ∀ q, (t' q).core = (t q).core)
      (hwoken : ∀ r, (t cur).parent = some r → ∀ p, ¬ t'.AsleepOn p (.proc r)) :
      ((t'.reparent cur init).set cur fun q => { q with state := .ZOMBIE }).NoneLost := by
    intro p q hp hq hzombie
    have hasleep : (t'.reparent cur init).AsleepOn p (.proc p) := by
      unfold AsleepOn at hp ⊢
      rcases eq_or_ne p cur with rfl | hpc
      · rw [set_self] at hp
        cases hp.1
      · rw [set_of_ne _ _ hpc] at hp
        exact hp
    have hbefore : t'.AsleepOn p (.proc p) := by
      rw [reparent_eq] at hasleep
      exact asleepOn_foldl _ hasleep
    have hadopt := core_reparent t' hne q
    have hparent : (t'.reparent cur init q).parent =
        if (t' q).parent = some cur then some init else (t' q).parent := by
      rw [← Proc.core_parent, hadopt]
      rfl
    rcases eq_or_ne q cur with rfl | hqc
    · rw [set_self] at hq
      dsimp only at hq
      have hsame : (t' q).parent = (t q).parent := congrArg Core.parent (hcore q)
      rw [hsame, if_neg hself] at hparent
      exact hwoken p (hparent.symm.trans hq) p hbefore
    · rw [set_of_ne _ _ hqc] at hq hzombie
      have hzombie' : (t' q).state = .ZOMBIE := by
        rw [← phase_zombie_iff, ← Proc.core_phase] at hzombie ⊢
        rw [hadopt] at hzombie
        exact hzombie
      rw [hparent] at hq
      split at hq
      · next hchild =>
        obtain rfl := Option.some.inj hq
        rw [reparent_eq] at hasleep
        exact not_asleep_foldl _ (List.mem_finRange q) hchild hzombie' init hasleep
      · exact hcalm.noneLost hn p q hbefore hq hzombie'
  unfold exit
  simp only
  split
  · next parent hparent =>
    refine hrest _ (wakeup1_calm t _) (core_wakeup1 t _) ?_
    intro r hr p hp
    rw [hparent] at hr
    cases hr
    exact (asleepOn_wakeup1 hp).2 rfl
  · next hnone =>
    refine hrest t (.refl t) (fun _ => rfl) ?_
    intro r hr
    rw [hnone] at hr
    cases hr

theorem zombieChild_none (h : t.zombieChild p = none)
    (hq : (t q).parent = some p) : (t q).state ≠ .ZOMBIE := by
  intro hzombie
  have htest := List.find?_eq_none.mp h q (List.mem_finRange q)
  simp [hq, hzombie] at htest

theorem wait_noneLost (hn : t.NoneLost) : (t.wait p).1.NoneLost ∧ ((t.wait p).2 = .blocked →
      ((t.wait p).1.sleep p (.proc p)).NoneLost) := by
  rcases t.wait_cases p with ⟨q, _, _, _, heq⟩ | ⟨_, heq, _⟩ | ⟨hnone, heq⟩
  · rw [heq]
    dsimp only
    exact ⟨(set_calm t q _ (by simp) (by simp)).noneLost hn, by simp⟩
  · rw [heq]
    exact ⟨hn, nofun⟩
  · rw [heq]
    refine ⟨hn, fun _ => ?_⟩
    intro r q hr hq hzombie
    have hold : (t q).state = .ZOMBIE ∧ (t q).parent = some r := by
      unfold sleep at hq hzombie
      rcases eq_or_ne q p with rfl | hqp
      · rw [set_self] at hzombie
        cases hzombie
      · rw [set_of_ne _ _ hqp] at hq hzombie
        exact ⟨hzombie, hq⟩
    rcases eq_or_ne r p with rfl | hrp
    · exact zombieChild_none hnone hold.2 hold.1
    · refine hn r q ?_ hold.2 hold.1
      unfold AsleepOn sleep at hr
      rw [set_of_ne _ _ hrp] at hr
      exact hr

end Table

namespace Kernel

theorem waitTurn_noneLost (c : Nat) (hn : k.table.NoneLost) : (k.waitTurn c p).table.NoneLost := by
  obtain ⟨hscan, hblocked⟩ := wait_noneLost (p := p) hn
  unfold waitTurn
  split
  · next t heq =>
    rw [heq] at hblocked
    exact hblocked rfl
  · next t _ _ heq =>
    rw [heq] at hscan
    exact hscan

theorem scan_calm {k' : Kernel} {c : Nat} (h : k.scan c = some k') : k.table.Calm k'.table := by
  rcases (scan_table h).2 with heq | ⟨p, _, heq⟩
  · rw [heq]
    exact .refl _
  · rw [heq]
    exact set_calm k.table p (fun q => { q with state := .RUNNING }) (by simp) (by simp)

/-- Every step of the machine keeps it so that nobody sleeps in `wait` who has
a zombie child. -/
theorem noneLost_of_step {k' : Kernel} {a : Act} (hI : k.Inv)
    (hself : ∀ q, (k.table q).parent ≠ some q) (hsleep : ∀ c p, a ≠ .sleep c (.proc p))
    (h : k.step a = some k') (hn : k.table.NoneLost) : k'.table.NoneLost := by
  cases a with
  | acquire d =>
    simp only [step] at h
    split at h <;> cases h
    exact hn
  | scan d =>
    simp only [step] at h
    split at h
    · exact (scan_calm h).noneLost hn
    · cases h
  | unlock d =>
    obtain ⟨p, hrun, h⟩ := bind_eq_some_iff.mp h
    have hcalm : k.table.Calm (k.table.set p fun q => { q with chan := none }) :=
      set_calm _ p _ (by simp) (fun hz => ⟨hz, rfl⟩)
    split at h
    · split at h <;> cases h
      · exact hn
      · exact hcalm.noneLost hn
      · exact waitTurn_noneLost d (hcalm.noneLost hn)
    · cases h
  | yield d =>
    obtain ⟨p, hrun, h⟩ := bind_eq_some_iff.mp h
    split at h <;> cases h
    exact (set_calm _ p _ (by simp) (by simp)).noneLost hn
  | sleep d chan =>
    obtain ⟨p, hrun, h⟩ := bind_eq_some_iff.mp h
    split at h <;> cases h
    refine (set_calm _ p _ ?_ (by simp)).noneLost hn
    intro _ hchan
    cases hchan
    exact absurd rfl (hsleep d p)
  | wait d =>
    obtain ⟨p, hrun, h⟩ := bind_eq_some_iff.mp h
    split at h <;> cases h
    exact waitTurn_noneLost d hn
  | exit d status =>
    obtain ⟨p, hrun, h⟩ := bind_eq_some_iff.mp h
    split at h
    · next hguard =>
      cases h
      have hcalm : k.table.Calm (k.table.set p fun q => { q with exitStatus := status }) :=
        set_calm _ p _ (fun hs hc => ⟨hs, hc⟩) (fun hz => ⟨hz, rfl⟩)
      refine exit_noneLost (hcalm.noneLost hn) hguard.2.2 ?_
      rw [Table.set_self]
      exact hself p
    · cases h
  | wakeup chan =>
    simp only [step] at h
    split at h <;> cases h
    exact (wakeup1_calm _ _).noneLost hn
  | kill d pid =>
    obtain ⟨p, hrun, h⟩ := bind_eq_some_iff.mp h
    split at h <;> cases h
    exact (kill_calm _ _).noneLost hn
  | setprio d pid prio =>
    obtain ⟨p, hrun, h⟩ := bind_eq_some_iff.mp h
    split at h <;> cases h
    exact (setprio_calm _ _ _).noneLost hn
  | forkAlloc d =>
    obtain ⟨p, hrun, h⟩ := bind_eq_some_iff.mp h
    split at h
    · obtain ⟨⟨np, t⟩, halloc, h⟩ := bind_eq_some_iff.mp h
      cases h
      unfold Table.allocproc at halloc
      split at halloc <;> cases halloc
      exact (set_calm _ np _ (by simp) (by simp)).noneLost hn
    · cases h
  | forkFail d =>
    obtain ⟨p, hrun, np, hnp, h⟩ := bind_bind_eq_some h
    split at h <;> cases h
    exact (set_calm _ np _ (by simp) (by simp)).noneLost hn
  | forkCopy d =>
    obtain ⟨p, hrun, np, hnp, h⟩ := bind_bind_eq_some h
    split at h <;> cases h
    refine (set_calm _ np _ (fun hs hc => ⟨hs, hc⟩) ?_).noneLost hn
    simp [hI.embryo p np hnp]
  | forkDone d =>
    obtain ⟨p, hrun, np, hnp, h⟩ := bind_bind_eq_some h
    split at h <;> cases h
    exact (set_calm _ np _ (by simp) (by simp)).noneLost hn

end Kernel

namespace System

theorem noneLost_of_move {s s' : System} {a : Act} (hI : Inv s) (hm : KernelMove s a s')
    (hn : s.k.table.NoneLost) : s'.k.table.NoneLost := by
  have hself (q : Slot) : (s.k.table q).parent ≠ some q := fun hq =>
    (hI.view.parentAlive q q hq).2 rfl
  cases hm with
  | same hk _ =>
    rw [hk]
    exact hn
  | scan c _ hstep _ =>
    exact Kernel.noneLost_of_step hI.kernel hself (by simp) hstep hn
  | switchkvm c _ hk _ =>
    rw [hk]
    exact hn
  | step b _ hsleep _ hstep _ => exact Kernel.noneLost_of_step hI.kernel hself hsleep hstep hn
  | mark p killed status hk _ =>
    rw [hk]
    exact (set_calm _ p _ (fun hs hc => ⟨hs, hc⟩) (fun hz => ⟨hz, rfl⟩)).noneLost hn

/-- No lost wakeup between `exit` and `wait`: in every run no process sleeps
inside `wait` while one of its children is a zombie. -/
theorem no_lost_child {n : Nat} {tr : List Event} {s : System} (h : Run (boot n) tr s)
    {p q : Slot} (hstate : (s.k.table p).state = .SLEEPING)
    (hchan : (s.k.table p).chan = some (.proc p)) (hparent : (s.k.table q).parent = some p) :
    (s.k.table q).state ≠ .ZOMBIE := by
  have hboot : (boot n).k.table.NoneLost := by
    intro p q hp
    have hstate := hp.1
    simp only [boot, Kernel.boot] at hstate
    split at hstate <;> cases hstate
  have hrun := (h.induct (fun _ s => s.k.table.NoneLost) hboot fun tr s a s' hI hn hstep =>
    noneLost_of_move hI (step_kernel hstep) hn).2
  exact hrun p q ⟨hstate, hchan⟩ hparent

/-- Init sleeps in `wait` while its child runs. -/
theorem no_lost_child_fork : ∃ tr s, (boot 2).runActs forkActs = some (tr, s) ∧
    (s.k.table ⟨1, by decide⟩).state ≠ .ZOMBIE := by
  obtain ⟨⟨tr, s⟩, hrun⟩ := isSome_iff_exists.mp
    (show ((boot 2).runActs forkActs).isSome = true by decide +kernel)
  have hstate : ((boot 2).runActs forkActs).map (fun r => ((r.2.k.table ⟨0, by decide⟩).state,
      (r.2.k.table ⟨0, by decide⟩).chan, (r.2.k.table ⟨1, by decide⟩).parent)) =
      some (.SLEEPING, some (.proc ⟨0, by decide⟩), some ⟨0, by decide⟩) := by decide +kernel
  rw [hrun] at hstate
  simp only [map_some, Option.some.injEq, Prod.mk.injEq] at hstate
  exact ⟨tr, s, hrun, no_lost_child (run_of_acts hrun) hstate.1 hstate.2.1 hstate.2.2⟩

end System

end Xv6.Sched

import Xv6.Lib.Cyclic
import Xv6.Sched.Priority

/-!
Round robin in each class. The position at which a processor goes on looking
for a process of one class moves forward one slot at a time and jumps back to
the start only from the end of the table. It moves past a slot only by
switching to it or by finding it not runnable in that class; so between two
dispatches of one slot every other slot that stays runnable gets its turn.
-/

namespace Xv6.Sched

open Lib Option

/-- Where the second loop starts after the process `ultimo`. -/
def normStart (ultimo : Option Slot) : Nat := ultimo.elim 0 fun q => q.val + 1

/-- The slot at which the processor goes on looking for a process of normal
priority. -/
def Cpu.nextNorm (cpu : Cpu) : Nat :=
  match cpu.pc with
  | .norm p => p
  | .normRun p => if p.val + 1 ≥ NPROC then 0 else p.val + 1
  | .normEnd p => if p + 1 ≥ NPROC then 0 else normStart cpu.ultimo
  | _ => normStart cpu.ultimo

/-- The slot at which the processor goes on looking for a process of high
priority. -/
def Cpu.nextHi (cpu : Cpu) : Nat :=
  match cpu.pc with
  | .hi p => p
  | .hiRun p => p.val + 1
  | _ => 0

variable {k k' : Kernel} {c d : Nat} {p : Slot}

namespace Kernel

/-- What the step `a` does to processor `c`. -/
inductive CpuMove (k : Kernel) (a : Act) (k' : Kernel) (c : Nat) : Prop where
  | same (h : k'.cpu c = k.cpu c)
  | acquire (hpc : (k.cpu c).pc = .top)
      (h : k'.cpu c = { k.cpu c with flagHI := false, pc := .hi 0 })
  | scan (ha : a = .scan c)
  | hiBack (p : Slot) (hlock : k'.lock = some c) (hpc : (k.cpu c).pc = .hiRun p)
      (h : k'.cpu c = { k.cpu c with proc := none, flagHI := true, pc := .hi (p.val + 1) })
  | normBack (p : Slot) (hlock : k'.lock = some c) (hpc : (k.cpu c).pc = .normRun p)
      (h : k'.cpu c = { k.cpu c with proc := none, ultimo := some p, pc := .normEnd p.val })

theorem resume_move {k1 : Kernel} {a : Act} (hrun : k.running d = some p)
    (hcpu : k1.cpu = k.cpu) (c : Nat) : CpuMove k a (k1.resume d) c := by
  by_cases hc : c = d
  · subst hc
    unfold running at hrun
    split at hrun
    · next q hpc => exact .hiBack q rfl hpc (by simp [resume, setCpu, hcpu, hpc])
    · next q hpc => exact .normBack q rfl hpc (by simp [resume, setCpu, hcpu, hpc])
    · cases hrun
  · exact .same (by simp [resume, setCpu, hcpu, hc])

theorem waitTurn_move {k1 : Kernel} {a : Act}
    (hrun : k.running d = some p) (hcpu : k1.cpu = k.cpu) (c : Nat) :
    CpuMove k a (k1.waitTurn d p) c := by
  unfold waitTurn
  split
  · exact resume_move hrun (by exact hcpu) c
  · exact .same (congrFun hcpu c)

theorem scan_cpu_of_ne (h : k.step (.scan d) = some k') (hc : c ≠ d) : k'.cpu c = k.cpu c := by
  simp only [step] at h
  split at h
  · unfold scan at h
    split at h
    · split at h
      · split at h <;> cases h <;> simp [dispatch, setCpu, hc]
      · split at h <;> cases h <;> simp [setCpu, hc]
    · split at h
      · split at h <;> cases h <;> simp [dispatch, setCpu, hc]
      · cases h
        simp [setCpu, hc]
    · cases h
      simp [setCpu, hc]
    · cases h
  · cases h

theorem step_cpuMove {a : Act} (h : k.step a = some k') (c : Nat) : CpuMove k a k' c := by
  cases a with
  | acquire d =>
    simp only [step] at h
    split at h
    · next hfree =>
      cases h
      by_cases hc : c = d
      · subst hc
        exact .acquire hfree.2 (by simp [setCpu])
      · exact .same (by simp [setCpu, hc])
    · cases h
  | scan d =>
    by_cases hc : c = d
    · subst hc
      exact .scan rfl
    · exact .same (scan_cpu_of_ne h hc)
  | unlock d =>
    obtain ⟨p, hrun, h⟩ := bind_eq_some_iff.mp h
    split at h
    · split at h
      · cases h
        exact .same rfl
      · cases h
        exact .same rfl
      · cases h
        exact waitTurn_move hrun (by rfl) c
    · cases h
  | yield d =>
    obtain ⟨p, hrun, h⟩ := bind_eq_some_iff.mp h
    split at h <;> cases h
    exact resume_move hrun (by rfl) c
  | sleep d chan =>
    obtain ⟨p, hrun, h⟩ := bind_eq_some_iff.mp h
    split at h <;> cases h
    exact resume_move hrun (by rfl) c
  | wait d =>
    obtain ⟨p, hrun, h⟩ := bind_eq_some_iff.mp h
    split at h <;> cases h
    exact waitTurn_move hrun (by rfl) c
  | exit d status =>
    obtain ⟨p, hrun, h⟩ := bind_eq_some_iff.mp h
    split at h <;> cases h
    exact resume_move hrun (by rfl) c
  | wakeup chan =>
    simp only [step] at h
    split at h <;> cases h
    exact .same rfl
  | kill d pid =>
    obtain ⟨p, hrun, h⟩ := bind_eq_some_iff.mp h
    split at h <;> cases h
    exact .same rfl
  | setprio d pid prio =>
    obtain ⟨p, hrun, h⟩ := bind_eq_some_iff.mp h
    split at h <;> cases h
    exact .same rfl
  | forkAlloc d =>
    obtain ⟨p, hrun, h⟩ := bind_eq_some_iff.mp h
    split at h
    · obtain ⟨⟨np, t⟩, _, h⟩ := bind_eq_some_iff.mp h
      cases h
      exact .same rfl
    · cases h
  | forkFail d =>
    obtain ⟨p, hrun, np, hnp, h⟩ := bind_bind_eq_some h
    split at h <;> cases h
    exact .same rfl
  | forkCopy d =>
    obtain ⟨p, hrun, np, hnp, h⟩ := bind_bind_eq_some h
    split at h <;> cases h
    exact .same rfl
  | forkDone d =>
    obtain ⟨p, hrun, np, hnp, h⟩ := bind_bind_eq_some h
    split at h <;> cases h
    exact .same rfl

/-- What a step of the scheduler's own loops does to its processor. -/
inductive ScanMove (k k' : Kernel) (c : Nat) : Prop where
  | hiDispatch (p : Nat) (hp : p < NPROC) (hready : (k.table ⟨p, hp⟩).HiRunnable)
      (hpc : (k.cpu c).pc = .hi p)
      (h : k'.cpu c = { k.cpu c with proc := some ⟨p, hp⟩, pc := .hiRun ⟨p, hp⟩ })
  | hiNext (p : Nat) (hp : p < NPROC) (hnot : ¬ (k.table ⟨p, hp⟩).HiRunnable)
      (hpc : (k.cpu c).pc = .hi p) (h : k'.cpu c = { k.cpu c with pc := .hi (p + 1) })
  | hiTop (p : Nat) (hp : NPROC ≤ p) (hpc : (k.cpu c).pc = .hi p)
      (h : k'.cpu c = { k.cpu c with pc := .top })
  | hiEnd (p : Nat) (hp : NPROC ≤ p) (hpc : (k.cpu c).pc = .hi p)
      (h : k'.cpu c = { k.cpu c with pc := .norm (normStart (k.cpu c).ultimo) })
  | normDispatch (p : Nat) (hp : p < NPROC) (hready : (k.table ⟨p, hp⟩).NormRunnable)
      (hpc : (k.cpu c).pc = .norm p)
      (h : k'.cpu c = { k.cpu c with proc := some ⟨p, hp⟩, pc := .normRun ⟨p, hp⟩ })
  | normNext (p : Nat) (hp : p < NPROC) (hnot : ¬ (k.table ⟨p, hp⟩).NormRunnable)
      (hpc : (k.cpu c).pc = .norm p) (h : k'.cpu c = { k.cpu c with pc := .norm (p + 1) })
  | normLast (p : Nat) (hp : NPROC ≤ p) (hpc : (k.cpu c).pc = .norm p)
      (h : k'.cpu c = { k.cpu c with pc := .normEnd p })
  | normTop (p : Nat) (hpc : (k.cpu c).pc = .normEnd p)
      (h : k'.cpu c = { k.cpu c with
        pc := .top, ultimo := if p + 1 ≥ NPROC then none else (k.cpu c).ultimo })

theorem scan_move (h : k.step (.scan c) = some k') : ScanMove k k' c := by
  simp only [step] at h
  split at h
  · unfold scan at h
    split at h
    · next p hpc =>
      split at h
      · next hp =>
        split at h
        · next hready =>
          cases h
          exact .hiDispatch p hp hready hpc (by simp [dispatch])
        · next hnot =>
          cases h
          exact .hiNext p hp hnot hpc (by simp [setCpu])
      · next hend =>
        split at h
        · cases h
          exact .hiTop p (Nat.le_of_not_lt hend) hpc (by simp [setCpu])
        · cases h
          refine .hiEnd p (Nat.le_of_not_lt hend) hpc ?_
          cases hlast : (k.cpu c).ultimo <;> simp [setCpu, normStart, hlast]
    · next p hpc =>
      split at h
      · next hp =>
        split at h
        · next hready =>
          cases h
          exact .normDispatch p hp hready hpc (by simp [dispatch])
        · next hnot =>
          cases h
          exact .normNext p hp hnot hpc (by simp [setCpu])
      · next hend =>
        cases h
        exact .normLast p (Nat.le_of_not_lt hend) hpc (by simp [setCpu])
    · next p hpc =>
      cases h
      exact .normTop p hpc (by simp [setCpu])
    · cases h
  · cases h

/-- The processor switches to `p` in class `prio`. -/
def DispatchesAt (k : Kernel) (c : Nat) (p : Slot) (prio : Nat) (k' : Kernel) : Prop :=
  k.Dispatches c p k' ∧ (k.table p).prio = prio

def Ready (k : Kernel) (p : Slot) (prio : Nat) : Prop :=
  (k.table p).state = .RUNNABLE ∧ (k.table p).prio = prio

/-- A dispatch is made by the loop of its class, at the cursor. -/
theorem dispatchesAt_cases {prio : Nat} (h : k.DispatchesAt c p prio k') :
    (prio = HI_PRIO ∧ (k.cpu c).pc = .hi p.val ∧ (k'.cpu c).pc = .hiRun p) ∨
      (prio = NORM_PRIO ∧ (k.cpu c).pc = .norm p.val ∧ (k'.cpu c).pc = .normRun p) := by
  obtain ⟨⟨hstep, _, hrun⟩, hprio⟩ := h
  unfold running at hrun
  cases scan_move hstep
  case hiDispatch q hq hready hpc hcpu =>
    rw [hcpu] at hrun ⊢
    cases hrun
    exact .inl ⟨hprio.symm.trans hready.1, hpc, rfl⟩
  case normDispatch q hq hready hpc hcpu =>
    rw [hcpu] at hrun ⊢
    cases hrun
    exact .inr ⟨hprio.symm.trans hready.1, hpc, rfl⟩
  all_goals
    next hcpu =>
      rw [hcpu] at hrun
      cases hrun

theorem nextNorm_between {a : Act} {i : Nat} {j : Slot}
    (h : k.step a = some k') (hready : k.Ready j NORM_PRIO) (hnot : ¬ k.Dispatches c j k')
    (hpos : Between i j (k.cpu c).nextNorm) : Between i j (k'.cpu c).nextNorm := by
  unfold Cpu.nextNorm at *
  cases step_cpuMove h c
  case same hcpu =>
    rw [hcpu]
    exact hpos
  case scan ha =>
    subst ha
    cases scan_move h
    case normDispatch p hp hr hpc hcpu =>
      have hne : p ≠ j.val := by
        rintro rfl
        exact hnot ⟨h, by simp [running, hpc], by simp [running, hcpu]⟩
      rw [hcpu]
      rw [hpc] at hpos
      have hnext := hpos.succ hne
      simp only
      split
      · next hlast => exact hnext.wrap hlast j.isLt
      · exact hnext
    case normNext p hp hn hpc hcpu =>
      have hne : p ≠ j.val := by
        rintro rfl
        exact hn ⟨hready.2, hready.1⟩
      rw [hcpu]
      rw [hpc] at hpos
      exact hpos.succ hne
    case normLast p hp hpc hcpu =>
      rw [hcpu]
      rw [hpc] at hpos
      simp only
      rw [if_pos (by omega)]
      exact hpos.wrap hp j.isLt
    case normTop p hpc hcpu =>
      rw [hcpu]
      rw [hpc] at hpos
      simp only at hpos ⊢
      by_cases hlast : p + 1 ≥ NPROC
      · rw [if_pos hlast] at hpos ⊢
        exact hpos
      · rw [if_neg hlast] at hpos ⊢
        exact hpos
    -- the first loop leaves `ultimo` alone
    all_goals
      next hpc hcpu =>
        rw [hcpu]
        rw [hpc] at hpos
        exact hpos
  all_goals
    next hpc hcpu =>
      rw [hcpu]
      rw [hpc] at hpos
      exact hpos

theorem nextHi_between {a : Act} {i : Nat} {j : Slot}
    (h : k.step a = some k') (hready : k.Ready j HI_PRIO) (hnot : ¬ k.Dispatches c j k')
    (hpos : Between i j (k.cpu c).nextHi) : Between i j (k'.cpu c).nextHi := by
  unfold Cpu.nextHi at *
  cases step_cpuMove h c
  case same hcpu =>
    rw [hcpu]
    exact hpos
  case scan ha =>
    subst ha
    cases scan_move h
    case hiDispatch p hp hr hpc hcpu =>
      have hne : p ≠ j.val := by
        rintro rfl
        exact hnot ⟨h, by simp [running, hpc], by simp [running, hcpu]⟩
      rw [hcpu]
      rw [hpc] at hpos
      exact hpos.succ hne
    case hiNext p hp hn hpc hcpu =>
      have hne : p ≠ j.val := by
        rintro rfl
        exact hn ⟨hready.2, hready.1⟩
      rw [hcpu]
      rw [hpc] at hpos
      exact hpos.succ hne
    case hiTop p hp hpc hcpu =>
      rw [hcpu]
      rw [hpc] at hpos
      exact hpos.wrap hp j.isLt
    case hiEnd p hp hpc hcpu =>
      rw [hcpu]
      rw [hpc] at hpos
      exact hpos.wrap hp j.isLt
    -- outside the first loop the next pass starts at slot 0
    all_goals
      next hpc hcpu =>
        rw [hcpu]
        rw [hpc] at hpos
        exact hpos
  all_goals
    next hpc hcpu =>
      rw [hcpu]
      rw [hpc] at hpos
      exact hpos

/-- Round robin without bypass: between two dispatches of slot `i` in one class
by the same processor, every other slot that stays runnable in that class until
its turn is dispatched by that processor. -/
theorem round_robin {ks : Nat → Kernel} {a b c : Nat} {i j : Slot} {prio : Nat} (hab : a < b)
    (hrun : ∀ m, a ≤ m → m ≤ b → Step (ks m) (ks (m + 1)))
    (hfirst : (ks a).DispatchesAt c i prio (ks (a + 1)))
    (hsecond : (ks b).DispatchesAt c i prio (ks (b + 1))) (hij : j ≠ i)
    (hstay : ∀ m, a < m → m ≤ b → (∀ l, a < l → l < m → ¬ (ks l).Dispatches c j (ks (l + 1))) →
      (ks m).Ready j prio) : ∃ m, a < m ∧ m < b ∧ (ks m).Dispatches c j (ks (m + 1)) := by
  by_contra hnone
  push Not at hnone
  have hready (m : Nat) (hlo : a < m) (hhi : m ≤ b) : (ks m).Ready j prio :=
    hstay m hlo hhi fun l hl hlm => hnone l hl (by omega)
  have hne : i.val ≠ j.val := fun heq => hij (Fin.ext heq.symm)
  have hstep (m : Nat) (hlo : a < m) (hhi : m < b) :
      ∃ act, (ks m).step act = some (ks (m + 1)) := by
    obtain ⟨act, hact⟩ := hrun m (by omega) (by omega)
    exact ⟨act, hact⟩
  rcases dispatchesAt_cases hfirst with ⟨rfl, _, hpc⟩ | ⟨rfl, _, hpc⟩
  · have hpos (m : Nat) (hm : a + 1 ≤ m) (hmb : m ≤ b) : Between i j ((ks m).cpu c).nextHi := by
      induction m, hm using Nat.le_induction with
      | base =>
        unfold Cpu.nextHi
        rw [hpc]
        exact between_next _ _
      | succ m hm ih =>
        obtain ⟨act, hact⟩ := hstep m (by omega) (by omega)
        exact nextHi_between hact (hready m (by omega) (by omega))
          (hnone m (by omega) (by omega)) (ih (by omega))
    rcases dispatchesAt_cases hsecond with ⟨_, hpc', _⟩ | ⟨hprio, _⟩
    · have hlast := hpos b hab le_rfl
      unfold Cpu.nextHi at hlast
      rw [hpc'] at hlast
      exact not_between_self hne hlast
    · cases hprio
  · have hpos (m : Nat) (hm : a + 1 ≤ m) (hmb : m ≤ b) : Between i j ((ks m).cpu c).nextNorm := by
      induction m, hm using Nat.le_induction with
      | base =>
        unfold Cpu.nextNorm
        rw [hpc]
        simp only
        split
        · next hend => exact (between_next _ _).wrap hend j.isLt
        · exact between_next _ _
      | succ m hm ih =>
        obtain ⟨act, hact⟩ := hstep m (by omega) (by omega)
        exact nextNorm_between hact (hready m (by omega) (by omega))
          (hnone m (by omega) (by omega)) (ih (by omega))
    rcases dispatchesAt_cases hsecond with ⟨hprio, _⟩ | ⟨_, hpc', _⟩
    · cases hprio
    · have hlast := hpos b hab le_rfl
      unfold Cpu.nextNorm at hlast
      rw [hpc'] at hlast
      exact not_between_self hne hlast

def stateAt (k : Kernel) (acts : List Act) (m : Nat) : Kernel := (k.run (acts.take m)).getD k

theorem step_stateAt {acts : List Act} (h : (k.run acts).isSome) {m : Nat}
    (hm : m < acts.length) : Step (k.stateAt acts m) (k.stateAt acts (m + 1)) := by
  have hsplit : acts.take (m + 1) = acts.take m ++ [acts[m]] := (List.take_concat_get' acts m hm).symm
  have hrest : k.run acts = (k.run (acts.take (m + 1))).bind fun k' => k'.run (acts.drop (m + 1)) := by
    conv_lhs => rw [← List.take_append_drop (m + 1) acts]
    exact List.foldlM_append
  rw [hrest] at h
  obtain ⟨k2, hk2⟩ : ∃ k2, k.run (acts.take (m + 1)) = some k2 := by
    cases htake : k.run (acts.take (m + 1)) with
    | none => simp [htake] at h
    | some k2 => exact ⟨k2, rfl⟩
  have hlast : k.run (acts.take (m + 1)) = (k.run (acts.take m)).bind fun k' => k'.run [acts[m]] := by
    rw [hsplit]
    exact List.foldlM_append
  rw [hk2] at hlast
  obtain ⟨k1, hk1, hstep⟩ := bind_eq_some_iff.mp hlast.symm
  obtain ⟨k3, hstep, hnil⟩ := bind_eq_some_iff.mp hstep
  cases hnil
  unfold stateAt
  rw [hk1, hk2]
  exact .act _ hstep

/-- Two processes of high priority, one processor at the start of a pass. -/
def twoHigh : Kernel :=
  { boot with
    table := fun p =>
      if p.val ≤ 1 then { Proc.zero with state := .RUNNABLE, pid := p.val + 1, prio := HI_PRIO }
      else Proc.zero
    nextpid := 3
    cpu := fun _ => ⟨.hi 0, none, false, none⟩
    lock := some 0 }

/-- Both are dispatched and yield, and the next pass starts over. -/
def twoTurns : List Act :=
  [.scan 0, .unlock 0, .yield 0, .scan 0, .unlock 0, .yield 0] ++
    List.replicate (NPROC - 1) (.scan 0) ++ [.acquire 0, .scan 0]

theorem round_robin_two : ∃ m, 0 < m ∧ m < 70 ∧
    (twoHigh.stateAt twoTurns m).Dispatches 0 ⟨1, by decide⟩
      (twoHigh.stateAt twoTurns (m + 1)) := by
  have hother : (twoHigh.stateAt twoTurns 3).Dispatches 0 ⟨1, by decide⟩
      (twoHigh.stateAt twoTurns (3 + 1)) := ⟨rfl, by decide +kernel, by decide +kernel⟩
  have hfirst : (twoHigh.stateAt twoTurns 0).DispatchesAt 0 ⟨0, by decide⟩ HI_PRIO
      (twoHigh.stateAt twoTurns (0 + 1)) :=
    ⟨⟨rfl, by decide +kernel, by decide +kernel⟩, by decide +kernel⟩
  have hsecond : (twoHigh.stateAt twoTurns 70).DispatchesAt 0 ⟨0, by decide⟩ HI_PRIO
      (twoHigh.stateAt twoTurns (70 + 1)) :=
    ⟨⟨rfl, by decide +kernel, by decide +kernel⟩, by decide +kernel⟩
  have hrun (m : Nat) (_ : 0 ≤ m) (hm : m ≤ 70) :
      Step (twoHigh.stateAt twoTurns m) (twoHigh.stateAt twoTurns (m + 1)) :=
    step_stateAt (by decide +kernel) (Nat.lt_of_le_of_lt hm (by decide +kernel))
  apply round_robin (by decide) hrun hfirst hsecond (by decide)
  intro m hlo _ hnot
  have hm : m ≤ 3 := by
    by_contra hgt
    exact hnot 3 (by decide) (by omega) hother
  interval_cases m <;> exact ⟨by decide +kernel, by decide +kernel⟩

end Kernel

end Xv6.Sched

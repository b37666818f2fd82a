import Xv6.Lib.Transition
import Xv6.Sync.Cli.Invariant

/-!
Interrupt state belongs to the kernel thread. Every act keeps the invariant and
none of them ends in a panic of `popcli`; from this come the three properties of
`interrupt_state_kept`, for every run.
-/

namespace Xv6.Sync.Cli

open Relation Function List Option

/-- An outcome that keeps the invariant and is no panic of `popcli`. -/
def Sound (r : Except Panic State) : Prop :=
  (∀ s, r = .ok s → Inv s) ∧ r ≠ .error .popcli ∧ r ≠ .error .popcliInterruptible

theorem Sound.ok {s : State} (h : Inv s) : Sound (.ok s) := by
  refine ⟨?_, by simp, by simp⟩
  intro s' hs'
  cases hs'
  exact h

theorem Sound.error {e : Panic} (hpop : e ≠ .popcli) (hint : e ≠ .popcliInterruptible) :
    Sound (.error e) := by
  refine ⟨by simp, ?_, ?_⟩
  · intro he
    exact hpop (Except.error.inj he)
  · intro he
    exact hint (Except.error.inj he)

namespace Inv

variable {s : State} {c : Nat} {r : Except Panic State}

theorem moved (h : Inv s) {pc : Pc} (hpending : pc.pending = (s.run c).pc.pending)
    (hhand : pc.inHand = (s.run c).pc.inHand)
    (hawake : pc ≠ .switched ∧ pc ≠ .forkret ∧ pc ≠ .resumed)
    (heflags : ∀ l f, pc = .eflags l f → (s.cpu c).flag = f)
    (hold : (s.run c).pc ≠ .resumed)
    (hscheduler : s.current c = .scheduler c → Scheduler (s.loop c) { s.run c with pc := pc }) :
    Inv (s.put c (s.cpu c) { s.run c with pc := pc }) :=
  h.put hhand ((h.running c).move hpending hawake heflags)
    (fun p hp => (h.kept c p hp).move hold hawake.2.2 _) hscheduler

theorem step_acquire (h : Inv s) {l : Nat} (hstep : s.step (.acquire c l) = some r) : Sound r := by
  simp only [State.step, ite_none_right_eq_some, Option.some.injEq] at hstep
  obtain ⟨⟨hpc, hbase⟩, rfl⟩ := hstep
  apply Sound.ok
  apply h.moved
  · rw [hpc]; rfl
  · rw [hpc]; rfl
  · simp
  · intro l' f hf
    cases hf
    rfl
  · simp [hpc]
  · intro hc
    have hs := h.scheduler_run hc
    by_cases hf : (s.run c).frames = []
    · have hready := hbase ((base_iff s c).mpr ⟨hc, hf⟩)
      apply hs.move (by simp [hready.1])
      intro _ l' hl'
      cases hl'
      exact .inr hready.2
    · exact hs.handler hf rfl

theorem balanced (h : Inv s) (c : Nat) : Inv (s.put c (s.cpu c).balanced (s.run c)) :=
  h.put rfl ((h.running c).setIntena _) (fun p hp => (h.kept c p hp).balanced) h.scheduler_run

theorem pushed (h : Inv s) {l : Nat} {f : Bool} (hpc : (s.run c).pc = .eflags l f) :
    Inv (s.put c (pushcli f (s.cpu c))
      { s.run c with
        pc := .spin l, outer := if (s.run c).held = [] then some f else (s.run c).outer }) := by
  have hr := h.running c
  have hncli : (s.cpu c).ncli = (s.run c).held.length := by
    rw [hr.ncli, hpc]
    rfl
  have hzero : (s.cpu c).ncli = 0 ↔ (s.run c).held = [] := by
    rw [hncli, ← length_eq_zero_iff]
    omega
  apply h.put
  · rw [hpc]; rfl
  · refine ⟨hr.held, hr.nodup, ?_, ?_, by simp, by simp, hr.frames, by simp⟩
    · simp [pushcli, hncli, Pc.pending]
    · simp [pushcli]
  · intro p hp g hg hpos
    simp only [reduceCtorEq, if_false, pushcli]
    by_cases hheld : (s.run c).held = []
    · rw [if_pos (hzero.mpr hheld)]
      rw [if_pos hheld] at hg
      exact Option.some.inj hg
    · rw [if_neg hheld] at hg
      have hne : (s.cpu c).ncli ≠ 0 := fun hn => hheld (hzero.mp hn)
      have hnonneg := hr.ncli_nonneg
      have hkept := h.kept c p hp g hg (by omega)
      rw [if_neg hne]
      simpa [hpc] using hkept
  · intro hc
    have hs := h.scheduler_run hc
    apply hs.move (hs.not_locked (by simp [hpc]))
    intro _ l' hl'
    rw [hpc]
    exact .inl hl'

theorem step_cli (h : Inv s) (hstep : s.step (.cli c) = some r) : Sound r := by
  dsimp only [State.step] at hstep
  split at hstep
  case h_2 => cases hstep
  case h_1 l f hpc =>
    have hs := h.pushed hpc
    cases hstep
    generalize s.put c (pushcli f (s.cpu c)) _ = s at hs
    rw [hs.holding_eq]
    dsimp only [bind, Except.bind]
    split
    · exact Sound.error (by simp) (by simp)
    · exact Sound.ok (hs.balanced c)

theorem update_cpu (lock : Nat → Spinlock) (l m : Nat) (b : Bool) :
    (update lock l ⟨b, (lock l).cpu⟩ m).cpu = (lock m).cpu := by
  rcases eq_or_ne m l with rfl | hne
  · rw [update_self]
  · rw [update_of_ne hne]

theorem step_xchg (h : Inv s) (hstep : s.step (.xchg c) = some r) : Sound r := by
  dsimp only [State.step] at hstep
  split at hstep
  case h_2 => cases hstep
  case h_1 l hpc =>
    split at hstep
    case isTrue =>
      cases hstep
      exact Sound.ok h
    case isFalse hfree =>
      cases hstep
      have hr := h.running c
      have hmove : Running c s.lock (s.cpu c) { s.run c with pc := .taken l } :=
        hr.move (by rw [hpc]; rfl) (by simp) (by simp)
      apply Sound.ok
      apply h.act (update s.lock l ⟨true, (s.lock l).cpu⟩) s.loop
      · intro c' _ m
        rw [update_cpu]
      · exact fun _ _ => rfl
      · exact { hmove with held := fun m => by rw [update_cpu]; exact hr.held m }
      · exact fun p hp => (h.kept c p hp).move (by simp [hpc]) (by simp) _
      · intro hc
        have hs := h.scheduler_run hc
        apply hs.move (hs.not_locked (by simp [hpc]))
        intro _ l' hl'
        rw [hpc]
        exact .inl hl'
      · exact h.locks.take (Bool.eq_false_iff.mpr hfree)

theorem step_record (h : Inv s) (hstep : s.step (.record c) = some r) : Sound r := by
  dsimp only [State.step] at hstep
  split at hstep
  case h_2 => cases hstep
  case h_1 l hpc =>
    cases hstep
    have hr := h.running c
    have hhand : s.hand c = some l := by
      unfold State.hand
      rw [hpc]
      rfl
    have hnone := (h.locks.closed c l hhand).2
    have hnot : l ∉ (s.run c).held := by
      rw [hr.held, hnone]
      simp
    apply Sound.ok
    apply h.act (update s.lock l ⟨(s.lock l).locked, some c⟩)
      (update s.loop c (if s.base c then .locked else s.loop c))
    · intro c' hne m
      rcases eq_or_ne m l with rfl | hm
      · simp [hnone, hne.symm]
      · simp [hm]
    · intro c' hc'
      rcases eq_or_ne c' c with rfl | hne
      · simp [State.base, hc' rfl]
      · exact update_of_ne hne _ _
    · refine ⟨?_, nodup_cons.mpr ⟨hnot, hr.nodup⟩, ?_, hr.off, by simp, by simp, hr.frames, by simp⟩
      · intro m
        rcases eq_or_ne m l with rfl | hm
        · simp
        · simp [hm, hr.held]
      · rw [hr.ncli, hpc]
        simp [Pc.pending]
    · exact fun p hp => (h.kept c p hp).move (by simp [hpc]) (by simp) _
    · intro hc
      have hs := h.scheduler_run hc
      rw [update_self]
      by_cases hf : (s.run c).frames = []
      · have hheld := hs.unlocked (hs.not_locked (by simp [hpc])) hf
        have hl : l = ptableLock := by
          apply hs.wants
          rw [hf, hpc]
          rfl
        rw [if_pos ((base_iff s c).mpr ⟨hc, hf⟩)]
        refine ⟨fun _ => ⟨hf, rfl, ?_⟩, by simp, ?_, hs.frames⟩
        · rw [hheld, hl]
        · simp [hf, bottom, Pc.wants]
      · rw [if_neg fun hb => hf ((base_iff s c).mp hb).2]
        exact hs.handler hf rfl
    · exact h.locks.record hhand

theorem step_release (h : Inv s) {l : Nat} (hstep : s.step (.release c l) = some r) : Sound r := by
  simp only [State.step, ite_none_right_eq_some, Option.some.injEq] at hstep
  obtain ⟨⟨hpc, hbase⟩, rfl⟩ := hstep
  rw [h.holding_eq]
  dsimp only [bind, Except.bind]
  split
  case isFalse => exact Sound.error (by simp) (by simp)
  case isTrue hholding =>
    obtain ⟨hlocked, hcpu⟩ : (s.lock l).locked = true ∧ (s.lock l).cpu = some c := by
      simpa using hholding
    have hr := h.running c
    have hmem : l ∈ (s.run c).held := (hr.held l).mpr hcpu
    apply Sound.ok
    apply h.act (update s.lock l ⟨(s.lock l).locked, none⟩)
      (update s.loop c (if s.base c then .top else s.loop c))
    · intro c' hne m
      rcases eq_or_ne m l with rfl | hm
      · simp [hcpu, hne.symm]
      · simp [hm]
    · intro c' hc'
      rcases eq_or_ne c' c with rfl | hne
      · simp [State.base, hc' rfl]
      · exact update_of_ne hne _ _
    · refine ⟨?_, hr.nodup.erase l, ?_, hr.off, by simp, by simp, hr.frames, by simp⟩
      · intro m
        rcases eq_or_ne m l with rfl | hm
        · simp [hr.nodup.mem_erase_iff]
        · simp [hr.nodup.mem_erase_iff, hm, hr.held]
      · have hpos := length_pos_of_mem hmem
        have hncli := hr.ncli_code hpc
        have hlength := length_erase_of_mem hmem
        simp only [Cpu.balanced, Pc.pending]
        omega
    · exact fun p hp => ((h.kept c p hp).balanced).move (by simp [hpc]) (by simp) _
    · intro hc
      have hs := h.scheduler_run hc
      rw [update_self]
      by_cases hf : (s.run c).frames = []
      · have hb := (base_iff s c).mpr ⟨hc, hf⟩
        obtain ⟨hloop, rfl⟩ := hbase hb
        have hheld := (hs.locked hloop).2.2
        rw [if_pos hb]
        refine ⟨by simp, fun _ _ => ?_, ?_, hs.frames⟩
        · simp [hheld]
        · simp [hf, bottom, Pc.wants]
      · rw [if_neg fun hb => hf ((base_iff s c).mp hb).2]
        exact hs.handler hf rfl
    · exact h.locks.clear hcpu hlocked

theorem step_unlock (h : Inv s) (hstep : s.step (.unlock c) = some r) : Sound r := by
  dsimp only [State.step] at hstep
  split at hstep
  case h_2 => cases hstep
  case h_1 l hpc =>
    cases hstep
    have hr := h.running c
    have hhand : s.hand c = some l := by
      unfold State.hand
      rw [hpc]
      rfl
    have hmove : Running c s.lock (s.cpu c) { s.run c with pc := .unlocked } :=
      hr.move (by rw [hpc]; rfl) (by simp) (by simp)
    apply Sound.ok
    apply h.act (update s.lock l ⟨false, (s.lock l).cpu⟩) s.loop
    · intro c' _ m
      rw [update_cpu]
    · exact fun _ _ => rfl
    · exact { hmove with held := fun m => by rw [update_cpu]; exact hr.held m }
    · exact fun p hp => (h.kept c p hp).move (by simp [hpc]) (by simp) _
    · intro hc
      have hs := h.scheduler_run hc
      exact hs.move (hs.not_locked (by simp [hpc])) (by simp [Pc.wants]) _
    · exact h.locks.unlock hhand

theorem step_pop (h : Inv s) (hstep : s.step (.pop c) = some r) : Sound r := by
  simp only [State.step, ite_none_right_eq_some, Option.some.injEq] at hstep
  obtain ⟨hpc, rfl⟩ := hstep
  have hr := h.running c
  rw [hr.popcli_eq hpc]
  apply Sound.ok
  apply h.put
  · rw [hpc]; rfl
  · refine ⟨hr.held, hr.nodup, ?_, ?_, by simp, by simp, hr.frames, by simp⟩
    · simp [Pc.pending]
    · intro hflag
      simp at hflag
      simp [hflag.1]
  · intro p hp f hf hpos
    have hncli := hr.ncli
    have hkept := h.kept c p hp f hf (by simp [hncli, hpc, Pc.pending])
    simpa [hpc] using hkept
  · intro hc
    have hs := h.scheduler_run hc
    exact hs.move (hs.not_locked (by simp [hpc])) (by simp [Pc.wants]) _

theorem step_myproc (h : Inv s) (hstep : s.step (.myproc c) = some r) : Sound r := by
  simp only [State.step, ite_none_right_eq_some, Option.some.injEq] at hstep
  obtain ⟨hpc, rfl⟩ := hstep
  have hr := h.running c
  rw [popcli_pushcli hr.ncli_nonneg hr.off]
  exact Sound.ok (h.balanced c)

theorem switched (h : Inv s) (hc : s.current c ≠ .scheduler c) (hpc : (s.run c).pc = .code)
    (hcpu : (s.lock ptableLock).cpu = some c) (hone : (s.cpu c).ncli = 1) :
    Inv { s.put c (s.cpu c).balanced
      { s.run c with pc := .switched, intena := (s.cpu c).balanced.intena } with
      current := update s.current c (.scheduler c) } := by
  have hr := h.running c
  have hbalanced : (s.cpu c).balanced = s.cpu c := by
    unfold Cpu.balanced
    rw [if_neg (by omega)]
  have hheld : (s.run c).held = [ptableLock] := by
    have hlength := hr.ncli_code hpc
    obtain ⟨l, hl⟩ := length_eq_one_iff.mp (by omega : (s.run c).held.length = 1)
    have hmem := (hr.held ptableLock).mpr hcpu
    rw [hl, mem_singleton] at hmem
    rw [hl, hmem]
  obtain ⟨p, hp⟩ : ∃ p, s.current c = .proc p := by
    cases hcur : s.current c with
    | scheduler d => exact absurd (h.own c d hcur ▸ hcur) hc
    | proc p => exact ⟨p, rfl⟩
  have hloop := h.away c hc
  have hs := (h.scheduler c).locked hloop
  have hinv := h.switch (i := .scheduler c)
    (t := { s.run c with pc := .switched, intena := (s.cpu c).intena })
    (Or.inr hp) (Or.inl rfl) (fun c' hne hc' => hne (h.unique c' c p hc' hp)) hloop
    ?_ ?_ (by simp) ?_
  · unfold State.put
    rw [hbalanced, update_eq_self, hp]
    exact hinv
  · rw [update_of_ne (by simp)]
    refine ⟨?_, ?_, ?_, hr.off, ?_, ?_, ?_, ?_⟩
    · rw [hs.2.2, ← hheld]
      exact hr.held
    · simp [hs.2.2]
    · simp [hs.2.2, hs.2.1, hone, Pc.pending]
    · simp [hs.2.1]
    · simp [hs.2.1]
    · simp [hs.1]
    · simp [hs.2.1]
  · rw [update_of_ne (by simp), hs.2.1, State.hand, hpc]
  · intro _
    refine ⟨.inl rfl, hheld, hr.frames, ?_, by simp⟩
    intro f hf
    have hkept := h.kept c p hp f hf (by omega)
    simpa [hpc] using hkept

theorem step_sched (h : Inv s) (hstep : s.step (.sched c) = some r) : Sound r := by
  simp only [State.step, ite_none_right_eq_some, Option.some.injEq] at hstep
  obtain ⟨⟨hc, hpc⟩, rfl⟩ := hstep
  rw [h.holding_eq]
  dsimp only [bind, Except.bind]
  split
  case isTrue => exact Sound.error (by simp) (by simp)
  case isFalse hholding =>
  split
  case isTrue => exact Sound.error (by simp) (by simp)
  case isFalse hflag =>
  split
  case isTrue => exact Sound.error (by simp) (by simp)
  case isFalse hncli =>
    have hcpu : (s.lock ptableLock).cpu = some c := by
      simp at hholding
      exact hholding.2
    have hone : (s.cpu c).ncli = 1 := by simpa [Cpu.balanced] using hncli
    exact Sound.ok (h.switched hc hpc hcpu hone)

theorem step_restore (h : Inv s) (hstep : s.step (.restore c) = some r) : Sound r := by
  simp only [State.step, ite_none_right_eq_some, Option.some.injEq] at hstep
  obtain ⟨hpc, rfl⟩ := hstep
  have hne : (s.run c).pc ≠ .code := by simp [hpc]
  apply Sound.ok
  apply h.put
  · rw [hpc]; rfl
  · apply Running.setIntena
    apply (h.running c).move (by rw [hpc]; rfl) (by simp)
    intro l f hf
    cases hf
  · intro p hp f hf hpos
    have hkept := h.kept c p hp f hf hpos
    rw [if_pos hpc] at hkept
    exact hkept
  · intro hc
    have hs := h.scheduler_run hc
    exact hs.move (hs.not_locked hne) (by simp [Pc.wants]) _

theorem step_swtch (h : Inv s) {p : Nat} (hstep : s.step (.swtch c p) = some r) : Sound r := by
  simp only [State.step, ite_none_right_eq_some, Option.some.injEq] at hstep
  obtain ⟨⟨hbase, hloop, hpc, hp⟩, rfl⟩ := hstep
  obtain ⟨hc, _⟩ := (base_iff s c).mp hbase
  have hr := h.running c
  have hheld := ((h.scheduler_run hc).locked hloop).2.2
  have hparked := h.parked p fun c' => h.not_current hp c'
  have hncli : (s.cpu c).ncli = 1 := by simp [hr.ncli_code hpc, hheld]
  apply Sound.ok
  apply h.switch (Or.inl hc) (Or.inr rfl) (fun c' _ => h.not_current hp c') hloop
  · rw [update_self]
    refine ⟨?_, ?_, ?_, hr.off, ?_, ?_, hparked.frames, ?_⟩
    · rw [hparked.held, ← hheld]
      exact hr.held
    · simp [hparked.held]
    · rcases hp with hp | hp <;> simp [hp, hparked.held, hncli, Pc.pending]
    · rcases hp with hp | hp <;> simp [hp]
    · rcases hp with hp | hp <;> simp [hp]
    · simp [hparked.held]
  · rw [update_self, State.hand, hpc]
    rcases hp with hp | hp <;> simp [hp, Pc.inHand]
  · intro _ f hf _
    rcases hp with hp | hp
    · simpa [hp] using hparked.kept f hf
    · have hnone := hparked.new hp
      rw [hnone] at hf
      cases hf
  · intro hi
    cases hi

theorem step_sti (h : Inv s) (hstep : s.step (.sti c) = some r) : Sound r := by
  simp only [State.step, ite_none_right_eq_some, Option.some.injEq] at hstep
  obtain ⟨⟨hbase, hloop, hpc⟩, rfl⟩ := hstep
  obtain ⟨hc, hf⟩ := (base_iff s c).mp hbase
  have hr := h.running c
  have hs := h.scheduler_run hc
  have hheld : (s.run c).held = [] := hs.unlocked (by simp [hloop]) hf
  have hncli : (s.cpu c).ncli = 0 := by simp [hr.ncli_code hpc, hheld]
  apply Sound.ok
  apply h.act s.lock (update s.loop c .ready)
  · exact fun _ _ _ => Iff.rfl
  · intro c' hc'
    rcases eq_or_ne c' c with rfl | hne
    · exact absurd hc (hc' rfl)
    · exact update_of_ne hne _ _
  · exact ⟨hr.held, hr.nodup, hr.ncli, fun _ => hncli, hr.awake, by simp [hpc], hr.frames,
      hr.resumed⟩
  · intro p hp
    rw [hc] at hp
    cases hp
  · intro _
    rw [update_self]
    exact ⟨by simp, fun _ _ => hheld, hs.wants, hs.frames⟩
  · have hsame : update s.hand c (s.run c).pc.inHand = s.hand := update_eq_self c s.hand
    rw [hsame]
    exact h.locks

theorem step_trap (h : Inv s) (hstep : s.step (.trap c) = some r) : Sound r := by
  simp only [State.step, ite_none_right_eq_some, Option.some.injEq] at hstep
  obtain ⟨htrap, rfl⟩ := hstep
  have hr := h.running c
  have hframe : FrameOk ((s.run c).pc, (s.cpu c).flag) := by
    rcases htrap with hflag | ⟨_, hpc⟩
    · exact hr.frameOk hflag
    · exact .inl hpc
  apply Sound.ok
  apply h.put
  · rw [hframe.inHand]; rfl
  · refine ⟨hr.held, hr.nodup, ?_, by simp, by simp, by simp, ?_, by simp⟩
    · rw [hr.ncli, hframe.pending]
      rfl
    · intro frame hmem
      rcases mem_cons.mp hmem with rfl | hmem
      · exact hframe
      · exact hr.frames frame hmem
  · intro p hp f hf hpos
    have hkept := h.kept c p hp f hf hpos
    rw [if_neg hframe.not_resumed] at hkept
    simpa using hkept
  · intro hc
    have hs := h.scheduler_run hc
    have hflag : (s.cpu c).flag = true := htrap.resolve_right fun hproc => hproc.1 hc
    refine ⟨?_, by simp, hs.wants, ?_⟩
    · intro hloop
      have hheld := (hs.locked hloop).2.2
      rw [hr.held_nil (hr.off hflag)] at hheld
      cases hheld
    · intro frame hmem
      rcases mem_cons.mp hmem with rfl | hmem
      · exact hflag
      · exact hs.frames frame hmem

theorem step_iret (h : Inv s) (hstep : s.step (.iret c) = some r) : Sound r := by
  dsimp only [State.step] at hstep
  split at hstep
  case h_2 => cases hstep
  case h_1 pc f frames hframes =>
    simp only [ite_none_right_eq_some, Option.some.injEq] at hstep
    obtain ⟨⟨hpc, hnone⟩, rfl⟩ := hstep
    have hr := h.running c
    have hframe : FrameOk (pc, f) := hr.frames _ (by rw [hframes]; exact mem_cons_self)
    have hrest : ∀ frame ∈ frames, frame ∈ (s.run c).frames := by
      intro frame hmem
      rw [hframes]
      exact mem_cons_of_mem _ hmem
    have hncli := hr.ncli_code hpc
    apply Sound.ok
    apply h.put
    · rw [hframe.inHand, hpc]; rfl
    · refine ⟨hr.held, hr.nodup, ?_, ?_, hframe.awake, fun l g hg => hframe.eflags hg,
        fun frame hmem => hr.frames frame (hrest frame hmem),
        fun hres => absurd hres hframe.not_resumed⟩
      · rw [hncli, hframe.pending]
        rfl
      · intro hf
        rw [hncli, hnone hf]
        rfl
    · intro p hp g hg hpos
      have hkept := h.kept c p hp g hg hpos
      rw [if_neg (by simp [hpc])] at hkept
      rw [if_neg hframe.not_resumed]
      exact hkept
    · intro hc
      have hs := h.scheduler_run hc
      have hwants := hs.wants
      have hf : f = true := hs.frames (pc, f) (by rw [hframes]; exact mem_cons_self)
      rw [hframes] at hwants
      refine ⟨?_, fun _ _ => hnone hf, hwants, fun frame hmem => hs.frames frame (hrest frame hmem)⟩
      intro hloop
      have hnil := (hs.locked hloop).1
      rw [hframes] at hnil
      cases hnil

theorem step_allocproc (h : Inv s) {p : Nat} (hstep : s.step (.allocproc p) = some r) :
    Sound r := by
  simp only [State.step, ite_none_right_eq_some, Option.some.injEq] at hstep
  obtain ⟨hp, rfl⟩ := hstep
  have hrun : ∀ c, update s.thread (.proc p) newThread (s.current c) = s.run c :=
    fun c => update_of_ne (h.not_current hp c) _ _
  apply Sound.ok
  refine ⟨?_, ?_, ?_, ?_, h.away, h.own, h.unique, ?_⟩
  · intro c
    simp only [State.run, hrun]
    exact h.running c
  · intro c q hq
    simp only [State.run, hrun]
    exact h.kept c q hq
  · intro q hq
    rcases eq_or_ne q p with rfl | hne
    · simpa using newThread_parked
    · simpa [hne] using h.parked q hq
  · intro c
    simpa using h.scheduler c
  · have hhand : (State.hand { s with thread := update s.thread (.proc p) newThread }) =
        s.hand := by
      funext c
      simp only [State.hand, State.run, hrun]
    rw [hhand]
    exact h.locks

theorem step (h : Inv s) {a : Act} (hstep : s.step a = some r) : Sound r := by
  cases a with
  | acquire c l => exact h.step_acquire hstep
  | cli c => exact h.step_cli hstep
  | xchg c => exact h.step_xchg hstep
  | record c => exact h.step_record hstep
  | release c l => exact h.step_release hstep
  | unlock c => exact h.step_unlock hstep
  | pop c => exact h.step_pop hstep
  | myproc c => exact h.step_myproc hstep
  | sched c => exact h.step_sched hstep
  | restore c => exact h.step_restore hstep
  | swtch c p => exact h.step_swtch hstep
  | sti c => exact h.step_sti hstep
  | trap c => exact h.step_trap hstep
  | iret c => exact h.step_iret hstep
  | allocproc p => exact h.step_allocproc hstep

theorem of_run (hrun : ReflTransGen State.Next State.boot s) : Inv s :=
  Lib.invariant_of_run Inv hrun boot_inv fun _ _ h ⟨_, hstep⟩ => (h.step hstep).1 _ rfl

theorem holds_off (h : Inv s) {l : Nat} (hholds : s.Holds c l) : (s.cpu c).flag = false := by
  have hr := h.running c
  apply hr.flag_off
  rw [hr.ncli]
  rcases hholds with hcpu | hhand
  · have hpos := length_pos_of_mem ((hr.held l).mpr hcpu)
    omega
  · have hpending : (s.run c).pc.pending = 1 := by
      cases hpc : (s.run c).pc <;> simp [hpc, Pc.inHand, Pc.pending] at hhand ⊢
    omega

theorem pop_outermost (h : Inv s) {p : Nat} {f : Bool} (hc : s.current c = .proc p)
    (houter : (s.run c).outer = some f) (hpc : (s.run c).pc = .unlocked)
    (hheld : (s.run c).held = []) :
    ∃ s', s.step (.pop c) = some (.ok s') ∧ (s'.cpu c).flag = f := by
  have hr := h.running c
  have hpos : 0 < (s.cpu c).ncli := by
    rw [hr.ncli, hpc]
    simp only [Pc.pending]
    omega
  have hkept := h.kept c p hc f houter hpos
  rw [if_neg (by simp [hpc])] at hkept
  refine ⟨_, by simp only [State.step, if_pos hpc, hr.popcli_eq hpc]; rfl, ?_⟩
  simp [State.put, hheld, hkept]

end Inv

/-- Interrupts are off on a processor while its thread has a lock, from the `xchg`
of `acquire` to the store of `release`. When a process releases the last lock it
has, on whatever processor it is by then, `popcli` leaves the flag as it was before
the outermost `acquire`. `popcli` does not panic, wherever it is called. -/
theorem interrupt_state_kept {s : State} (hrun : ReflTransGen State.Next State.boot s) :
    (∀ c l, l ∈ (s.run c).held ↔ (s.lock l).cpu = some c) ∧
    (∀ c l, s.Holds c l → (s.cpu c).flag = false) ∧
    (∀ c p f, s.current c = .proc p → (s.run c).outer = some f → (s.run c).pc = .unlocked →
      (s.run c).held = [] → ∃ s', s.step (.pop c) = some (.ok s') ∧ (s'.cpu c).flag = f) ∧
    ∀ a, s.step a ≠ some (.error .popcli) ∧ s.step a ≠ some (.error .popcliInterruptible) := by
  have h := Inv.of_run hrun
  refine ⟨fun c => (h.running c).held, fun c l => h.holds_off, ?_, ?_⟩
  · intro c p f hc houter hpc hheld
    exact h.pop_outermost hc houter hpc hheld
  · intro a
    constructor
    · intro herror
      exact (h.step herror).2.1 rfl
    · intro herror
      exact (h.step herror).2.2 rfl

/-- A processor's scheduler takes `ptable.lock`. -/
def lockTable (c : Nat) : List Act :=
  [.sti c, .acquire c ptableLock, .cli c, .xchg c, .record c]

/-- A process starts on processor 0. It is interrupted, takes a lock in the handler,
goes to sleep with it, and comes back on processor 1, where the scheduler has run
with interrupts on; it is at the last `popcli`. -/
def migration : List Act :=
  lockTable 0 ++ [.swtch 0 7, .release 0 ptableLock, .unlock 0, .pop 0, .trap 0] ++
  [.acquire 0 5, .cli 0, .xchg 0, .record 0] ++
  [.acquire 0 ptableLock, .cli 0, .xchg 0, .record 0, .release 0 5, .unlock 0, .pop 0, .sched 0] ++
  [.release 0 ptableLock, .unlock 0, .pop 0] ++ lockTable 1 ++
  [.swtch 1 7, .restore 1, .release 1 ptableLock, .unlock 1]

theorem interrupt_state_migration :
    ∃ s, ReflTransGen State.Next State.boot s ∧ s.current 1 = .proc 7 ∧
      (s.cpu 1).flag = false ∧ ∃ s', s.step (.pop 1) = some (.ok s') ∧ (s'.cpu 1).flag = false := by
  obtain ⟨s, hs⟩ := isSome_iff_exists.mp
    (show (State.boot.runActs migration).isSome = true by decide +kernel)
  have hat : (State.boot.runActs migration).map (fun s => (s.current 1, (s.run 1).outer,
      (s.run 1).pc, (s.run 1).held, (s.cpu 1).flag)) =
      some (.proc 7, some false, .unlocked, [], false) := by decide +kernel
  rw [hs] at hat
  simp only [map_some, Option.some.injEq, Prod.mk.injEq] at hat
  obtain ⟨hc, houter, hpc, hheld, hflag⟩ := hat
  have hrun := State.run_of_acts hs
  exact ⟨s, hrun, hc, hflag, (interrupt_state_kept hrun).2.2.1 1 7 false hc houter hpc hheld⟩

end Xv6.Sync.Cli

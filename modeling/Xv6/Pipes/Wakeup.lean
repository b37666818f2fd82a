import Xv6.Pipes.Machine

/-!
Lost wakeups on a pipe. A process that waits on a channel either still has a
reason to (the pipe is empty and may be written, or full and may be read), or
the holder of the pipe's lock is on its way to a `wakeup` of that channel. The
one path that breaks this is the early return of `pipewrite` from a full pipe:
it gives up the lock without the `wakeup(&p->nread)` that the bytes it has
stored call for.
-/

namespace Xv6.Pipes

open Relation Function

/-- The pipe's lock is held here. -/
def Pc.Holds : Pc → Prop
  | .hold _ | .full _ _ _ | .sleep _ _ | .copy _ _ | .wake _ _ | .release _ => True
  | _ => False

/-- A `wakeup` of the channel lies ahead, before the lock is released. The
early return of `pipewrite` is the exception. -/
def Pc.Owes : Pc → Chan → Prop
  | .hold (.write _ _ _), .nread => True
  | .full _ _ _, .nread => True
  | .copy _ _, .nwrite => True
  | .wake chan _, chan' => chan = chan'
  | _, _ => False

namespace State

variable {ι : Type*} {s s' : State ι} {p q : ι} {chan : Chan}

/-- What a process waits for: the negation of what would let it go on. -/
def Blocked (s : State ι) : Chan → Prop
  | .nread => s.Empty ∧ s.pipe.writeopen = true
  | .nwrite => s.Full ∧ s.pipe.readopen = true

def Sleeping (s : State ι) (p : ι) (chan : Chan) : Prop := (s.thread p).chan = some chan

/-- Process `p` is `SLEEPING` on the channel, or about to be: it has given up
the pipe's lock. -/
def Waits (s : State ι) (p : ι) (chan : Chan) : Prop :=
  s.Sleeping p chan ∨ ∃ call, (s.thread p).pc = .doze chan call

/-- When the pipe's lock is free, no process sleeps without a reason. -/
def NoLostWakeup (s : State ι) : Prop :=
  s.lock = none → ∀ p chan, s.Sleeping p chan → s.Blocked chan

/-- The step of `p` is the early return of `pipewrite`: more bytes to store,
the pipe full, and the read end closed or the process killed. -/
def GivesUp (s : State ι) (p : ι) : Prop :=
  ∃ addr n i, (s.thread p).pc = .hold (.write addr n i) ∧ (i : Int) < n ∧ s.Full ∧
    (s.pipe.readopen = false ∨ (s.thread p).killed = true)

structure Inv (s : State ι) : Prop where
  lock : ∀ p, (s.thread p).pc.Holds → s.lock = some p
  doze : ∀ p chan call, (s.thread p).pc = .doze chan call → s.ptable = some p
  asleep : ∀ p chan, s.Sleeping p chan → ∃ call, (s.thread p).pc = .acquire call
  blocked : ∀ p chan call, (s.thread p).pc = .sleep chan call → s.Blocked chan
  full : ∀ p addr n i, (s.thread p).pc = .full addr n i → s.Blocked .nwrite
  waits : ∀ p chan, s.Waits p chan →
    s.Blocked chan ∨ ∃ h, s.lock = some h ∧ (s.thread h).pc.Owes chan

theorem Quiet.inv {s : State ι} (h : s.Quiet) : Inv s where
  lock p hp := by
    rw [h.idle p] at hp
    exact hp.elim
  doze p chan call hp := by
    rw [h.idle p] at hp
    cases hp
  asleep p chan hp := by
    rw [Sleeping, h.awake p] at hp
    cases hp
  blocked p chan call hp := by
    rw [h.idle p] at hp
    cases hp
  full p addr n i hp := by
    rw [h.idle p] at hp
    cases hp
  waits p chan hp := by
    rcases hp with hp | ⟨call, hp⟩
    · rw [Sleeping, h.awake p] at hp
      cases hp
    · rw [h.idle p] at hp
      cases hp

theorem Inv.noLostWakeup (h : Inv s) : s.NoLostWakeup := by
  intro hlock p chan hp
  rcases h.waits p chan (Or.inl hp) with hblocked | ⟨holder, hholder, _⟩
  · exact hblocked
  · rw [hlock] at hholder
    cases hholder

theorem Inv.holder (h : Inv s) (hp : (s.thread p).pc.Holds) (hq : (s.thread q).pc.Holds) :
    q = p := by
  have heq := (h.lock p hp).symm.trans (h.lock q hq)
  exact (Option.some.inj heq).symm

/-- Whoever waits while `p` holds the lock has a reason or a `wakeup` from `p`
to come. -/
theorem Inv.waits_holder (h : Inv s) (hp : (s.thread p).pc.Holds) (hq : s.Waits q chan) :
    s.Blocked chan ∨ (s.thread p).pc.Owes chan := by
  rcases h.waits q chan hq with hblocked | ⟨holder, hholder, howes⟩
  · exact .inl hblocked
  · rw [h.lock p hp] at hholder
    cases hholder
    exact .inr howes

theorem Inv.not_waits_holder (h : Inv s) (hp : (s.thread p).pc.Holds) : ¬ s.Waits p chan := by
  rintro (hsleep | ⟨call, hdoze⟩)
  · obtain ⟨call, hpc⟩ := h.asleep p chan hsleep
    rw [hpc] at hp
    exact hp
  · rw [hdoze] at hp
    exact hp

/-- The other processes are as before, but perhaps woken. -/
structure Others (s s' : State ι) (p : ι) : Prop where
  pc : ∀ q, q ≠ p → (s'.thread q).pc = (s.thread q).pc
  chan : ∀ q, q ≠ p → ∀ chan, s'.Sleeping q chan → s.Sleeping q chan

theorem Others.waits (h : Others s s' p) (hq : q ≠ p) (hw : s'.Waits q chan) : s.Waits q chan := by
  rcases hw with hsleep | ⟨call, hdoze⟩
  · exact .inl (h.chan q hq chan hsleep)
  · exact .inr ⟨call, (h.pc q hq).symm.trans hdoze⟩

theorem Inv.hold (h : Inv s) (hp : (s.thread p).pc.Holds) (hothers : Others s s' p)
    (hlock : s'.lock = s.lock) (hptable : s'.ptable = s.ptable)
    (hpc : (s'.thread p).pc.Holds) (hawake : (s'.thread p).chan = (s.thread p).chan)
    (hblocked : ∀ chan call, (s'.thread p).pc = .sleep chan call → s'.Blocked chan)
    (hfull : ∀ addr n i, (s'.thread p).pc = .full addr n i → s'.Blocked .nwrite)
    (hwaits : ∀ q chan, q ≠ p → s'.Waits q chan → s'.Blocked chan ∨ (s'.thread p).pc.Owes chan) :
    Inv s' := by
  have hself : s'.lock = some p := hlock.trans (h.lock p hp)
  have hnot {chan : Chan} : ¬ s'.Waits p chan := by
    rintro (hsleep | ⟨call, hdoze⟩)
    · rw [Sleeping, hawake] at hsleep
      exact h.not_waits_holder hp (Or.inl hsleep)
    · rw [hdoze] at hpc
      exact hpc
  have honly (q : ι) (hq : (s'.thread q).pc.Holds) : q = p := by
    by_contra hne
    rw [hothers.pc q hne] at hq
    exact hne (h.holder hp hq)
  refine ⟨?_, ?_, ?_, ?_, ?_, ?_⟩
  · intro q hq
    rw [honly q hq]
    exact hself
  · intro q chan call hq
    by_cases hqp : q = p
    · subst hqp
      rw [hq] at hpc
      exact hpc.elim
    · rw [hptable]
      exact h.doze q chan call ((hothers.pc q hqp).symm.trans hq)
  · intro q chan hq
    by_cases hqp : q = p
    · subst hqp
      exact (hnot (Or.inl hq)).elim
    · rw [hothers.pc q hqp]
      exact h.asleep q chan (hothers.chan q hqp chan hq)
  · intro q chan call hq
    have hqp : q = p := honly q (by rw [hq]; trivial)
    subst hqp
    exact hblocked chan call hq
  · intro q addr n i hq
    have hqp : q = p := honly q (by rw [hq]; trivial)
    subst hqp
    exact hfull addr n i hq
  · intro q chan hq
    have hqp : q ≠ p := by
      rintro rfl
      exact hnot hq
    exact (hwaits q chan hqp hq).imp_right fun howes => ⟨p, hself, howes⟩

theorem Inv.unlock (h : Inv s) (hp : (s.thread p).pc.Holds) (hothers : Others s s' p)
    (hpc : ¬ (s'.thread p).pc.Holds)
    (hptable : ∀ q chan call, (s'.thread q).pc = .doze chan call → s'.ptable = some q)
    (hawake : (s'.thread p).chan = (s.thread p).chan)
    (hwaits : ∀ q chan, s'.Waits q chan → s'.Blocked chan) : Inv s' := by
  have hnone (q : ι) : ¬ (s'.thread q).pc.Holds := by
    by_cases hqp : q = p
    · rw [hqp]
      exact hpc
    · rw [hothers.pc q hqp]
      exact fun hq => hqp (h.holder hp hq)
  refine ⟨fun q hq => (hnone q hq).elim, hptable, ?_, ?_, ?_,
    fun q chan hq => .inl (hwaits q chan hq)⟩
  · intro q chan hq
    by_cases hqp : q = p
    · subst hqp
      rw [Sleeping, hawake] at hq
      exact (h.not_waits_holder hp (Or.inl hq)).elim
    · rw [hothers.pc q hqp]
      exact h.asleep q chan (hothers.chan q hqp chan hq)
  · intro q chan call hq
    exact (hnone q (by rw [hq]; trivial)).elim
  · intro q addr n i hq
    exact (hnone q (by rw [hq]; trivial)).elim

theorem Inv.awake (h : Inv s) (hpipe : s'.pipe = s.pipe) (hlock : s'.lock = s.lock)
    (hptable : s'.ptable = s.ptable) (hpc : ∀ q, (s'.thread q).pc = (s.thread q).pc)
    (hchan : ∀ q chan, s'.Sleeping q chan → s.Sleeping q chan) : Inv s' := by
  have hblocked (chan : Chan) : s'.Blocked chan ↔ s.Blocked chan := by
    cases chan <;> simp only [Blocked, Empty, Full, hpipe]
  have hwaits (q : ι) (chan : Chan) (hq : s'.Waits q chan) : s.Waits q chan := by
    refine hq.imp (hchan q chan) ?_
    rw [hpc q]
    exact id
  refine ⟨?_, ?_, ?_, ?_, ?_, ?_⟩
  · intro q
    rw [hpc, hlock]
    exact h.lock q
  · intro q
    rw [hpc, hptable]
    exact h.doze q
  · intro q chan hq
    rw [hpc]
    exact h.asleep q chan (hchan q chan hq)
  · intro q chan call
    rw [hpc, hblocked]
    exact h.blocked q chan call
  · intro q addr n i
    rw [hpc, hblocked]
    exact h.full q addr n i
  · intro q chan hq
    simp only [hblocked, hlock, hpc]
    exact h.waits q chan (hwaits q chan hq)

theorem Full.not_empty (h : s.Full) : ¬ s.Empty := by
  unfold Full at h
  unfold Empty
  rw [h]
  intro hempty
  have hzero : BitVec.ofNat 32 PIPESIZE = 0 := by
    have hcancel := congrArg (fun c => c - s.pipe.nread) hempty
    simpa [BitVec.add_comm s.pipe.nread] using hcancel.symm
  exact absurd hzero (by decide)

section

variable [DecidableEq ι]

theorem others_of_update {th : Thread} (h : s'.thread = update s.thread p th) : Others s s' p where
  pc q hq := by rw [h, update_of_ne hq]
  chan q hq chan hsleep := by
    rw [Sleeping, h, update_of_ne hq] at hsleep
    exact hsleep

@[simp] theorem goto_pc (s : State ι) (p : ι) (pc : Pc) : ((s.goto p pc).thread p).pc = pc := by
  simp [goto, setThread]

@[simp] theorem goto_chan (s : State ι) (p : ι) (pc : Pc) :
    ((s.goto p pc).thread p).chan = (s.thread p).chan := by
  simp [goto, setThread]

theorem wakeup_others (s : State ι) (p : ι) (chan : Chan) (pc : Pc) :
    Others s ((s.wakeup chan).goto p pc) p where
  pc q hq := by
    simp only [goto, setThread, update_of_ne hq, wakeup]
    split <;> rfl
  chan q hq chan' hsleep := by
    simp only [Sleeping, goto, setThread, update_of_ne hq, wakeup] at hsleep
    split at hsleep
    · cases hsleep
    · exact hsleep

/-- After a `wakeup` no process waits on the channel, not even one that is
about to: that one would hold `ptable.lock`. -/
theorem Inv.not_waits_wakeup (h : Inv s) (hptable : s.ptable = none) {pc : Pc} (hq : q ≠ p) :
    ¬ ((s.wakeup chan).goto p pc).Waits q chan := by
  rintro (hsleep | ⟨call, hdoze⟩)
  · simp only [Sleeping, goto, setThread, update_of_ne hq, wakeup] at hsleep
    split at hsleep
    · cases hsleep
    · next hnot => exact hnot hsleep
  · rw [(wakeup_others s p chan pc).pc q hq] at hdoze
    rw [h.doze q chan call hdoze] at hptable
    cases hptable

theorem Inv.goto_hold (h : Inv s) (hp : (s.thread p).pc.Holds) (pipe : Pipe) {pc : Pc}
    (hpc : pc.Holds)
    (hblocked : ∀ chan call, pc = .sleep chan call → { s with pipe := pipe }.Blocked chan)
    (hfull : ∀ addr n i, pc = .full addr n i → { s with pipe := pipe }.Blocked .nwrite)
    (hwaits : ∀ q chan, s.Waits q chan → { s with pipe := pipe }.Blocked chan ∨ pc.Owes chan) :
    Inv ({ s with pipe := pipe }.goto p pc) := by
  have hothers : Others s ({ s with pipe := pipe }.goto p pc) p := others_of_update rfl
  refine h.hold hp hothers rfl rfl ?_ ?_ ?_ ?_ ?_
  · rw [goto_pc]
    exact hpc
  · rw [goto_chan]
  · rw [goto_pc]
    exact hblocked
  · rw [goto_pc]
    exact hfull
  · intro q chan hq hw
    rw [goto_pc]
    exact hwaits q chan (hothers.waits hq hw)

theorem Inv.goto_wakeup (h : Inv s) (hp : (s.thread p).pc.Holds) (hptable : s.ptable = none)
    {pc : Pc} (hpc : pc.Holds)
    (hblocked : ∀ chan call, pc = .sleep chan call → s.Blocked chan)
    (hfull : ∀ addr n i, pc = .full addr n i → s.Blocked .nwrite)
    (hwaits : ∀ q chan', chan' ≠ chan → s.Waits q chan' → s.Blocked chan' ∨ pc.Owes chan') :
    Inv ((s.wakeup chan).goto p pc) := by
  have hothers := wakeup_others s p chan pc
  have hchan : ((s.wakeup chan).thread p).chan = (s.thread p).chan := by
    have hnot : (s.thread p).chan ≠ some chan := fun hsleep =>
      h.not_waits_holder hp (Or.inl hsleep)
    simp only [wakeup, if_neg hnot]
  refine h.hold hp hothers rfl rfl ?_ ?_ ?_ ?_ ?_
  · rw [goto_pc]
    exact hpc
  · rw [goto_chan, hchan]
  · rw [goto_pc]
    exact hblocked
  · rw [goto_pc]
    exact hfull
  · intro q chan' hq hw
    rw [goto_pc]
    have hne : chan' ≠ chan := by
      rintro rfl
      exact h.not_waits_wakeup hptable hq hw
    exact hwaits q chan' hne (hothers.waits hq hw)

theorem Inv.goto_idle (h : Inv s) (hp : (s.thread p).pc.Holds)
    (hwaits : ∀ q chan, s.Waits q chan → s.Blocked chan) :
    Inv ({ s with lock := none }.goto p .idle) := by
  have hothers : Others s ({ s with lock := none }.goto p .idle) p := others_of_update rfl
  refine h.unlock hp hothers ?_ ?_ ?_ ?_
  · rw [goto_pc]
    exact id
  · intro q chan call hq
    by_cases hqp : q = p
    · rw [hqp, goto_pc] at hq
      cases hq
    · rw [hothers.pc q hqp] at hq
      exact h.doze q chan call hq
  · rw [goto_chan]
  · intro q chan hq
    by_cases hqp : q = p
    · subst hqp
      rcases hq with hq | ⟨call, hq⟩
      · rw [Sleeping, goto_chan] at hq
        exact (h.not_waits_holder hp (Or.inl hq)).elim
      · rw [goto_pc] at hq
        cases hq
    · exact hwaits q chan (hothers.waits hqp hq)

theorem write_inv (h : Inv s) {addr : Nat → UInt8} {n : Int} {i : Nat}
    (hpc : (s.thread p).pc = .hold (.write addr n i)) (hstep : s.turn p = some s')
    (hgood : s.GivesUp p → ∀ q, ¬ s.Waits q .nread) : Inv s' := by
  have hp : (s.thread p).pc.Holds := by
    rw [hpc]
    trivial
  have hwaits (q : ι) (chan : Chan) (hq : s.Waits q chan) : s.Blocked chan ∨ chan = .nread := by
    have hcases := h.waits_holder hp hq
    rw [hpc] at hcases
    cases chan with
    | nread => exact .inr rfl
    | nwrite => exact .inl (hcases.resolve_right id)
  simp only [turn, hpc] at hstep
  split at hstep
  · next hlt =>
    split at hstep
    · next hfull =>
      split at hstep
      · next hquit =>
        -- the early return: nobody waits for the bytes in the pipe
        cases hstep
        refine h.goto_idle hp fun q chan hq => (hwaits q chan hq).resolve_right ?_
        rintro rfl
        exact hgood ⟨addr, n, i, hpc, hlt, hfull, hquit⟩ q hq
      · next hquit =>
        cases hstep
        refine h.goto_hold hp s.pipe trivial (by simp) ?_ ?_
        · intro _ _ _ _
          simp only [not_or, Bool.not_eq_false] at hquit
          exact ⟨hfull, hquit.1⟩
        · intro q chan hq
          refine (hwaits q chan hq).imp_right ?_
          rintro rfl
          trivial
    · next hfull =>
      cases hstep
      refine h.goto_hold hp { s.pipe with toRing := s.pipe.push (addr i) } trivial (by simp)
        (by simp) ?_
      intro q chan hq
      cases chan with
      | nread => exact .inr trivial
      | nwrite =>
        rcases hwaits q .nwrite hq with hblocked | hchan
        · exact (hfull hblocked.1).elim
        · cases hchan
  · cases hstep
    refine h.goto_hold hp s.pipe trivial (by simp) (by simp) ?_
    intro q chan hq
    refine (hwaits q chan hq).imp_right ?_
    rintro rfl
    rfl

theorem read_inv (h : Inv s) {n : Int} (hpc : (s.thread p).pc = .hold (.read n))
    (hstep : s.turn p = some s') : Inv s' := by
  have hp : (s.thread p).pc.Holds := by
    rw [hpc]
    trivial
  have hwaits (q : ι) (chan : Chan) (hq : s.Waits q chan) : s.Blocked chan := by
    have hcases := h.waits_holder hp hq
    rw [hpc] at hcases
    exact hcases.resolve_right id
  simp only [turn, hpc] at hstep
  split at hstep
  · next hempty =>
    split at hstep
    · cases hstep
      exact h.goto_idle hp hwaits
    · cases hstep
      refine h.goto_hold hp s.pipe trivial ?_ (by simp) fun q chan hq => .inl (hwaits q chan hq)
      intro chan call hsleep
      cases hsleep
      exact hempty
  · cases hstep
    exact h.goto_hold hp s.pipe trivial (by simp) (by simp) fun q chan hq => .inl (hwaits q chan hq)

/-- A turn of the second loop of `piperead`. Nobody waits for a byte while there
is one to take. -/
theorem copy_inv (h : Inv s) {n : Int} {i : Nat} (hpc : (s.thread p).pc = .copy n i)
    (hstep : s.turn p = some s') : Inv s' := by
  have hp : (s.thread p).pc.Holds := by
    rw [hpc]
    trivial
  have hwaits (q : ι) (hq : s.Waits q .nread) : s.Blocked .nread := by
    have hcases := h.waits_holder hp hq
    rw [hpc] at hcases
    exact hcases.resolve_right id
  simp only [turn, hpc] at hstep
  split at hstep
  · next hin =>
    cases hstep
    refine h.goto_hold hp { s.pipe with toRing := s.pipe.pop } trivial (by simp) (by simp) ?_
    intro q chan hq
    cases chan with
    | nread => exact (hin.2 (hwaits q hq).1).elim
    | nwrite => exact .inr trivial
  · cases hstep
    refine h.goto_hold hp s.pipe trivial (by simp) (by simp) ?_
    intro q chan hq
    cases chan with
    | nread => exact .inl (hwaits q hq)
    | nwrite => exact .inr rfl

theorem close_inv (h : Inv s) {writable : Bool} (hpc : (s.thread p).pc = .hold (.close writable))
    (hstep : s.turn p = some s') : Inv s' := by
  have hp : (s.thread p).pc.Holds := by
    rw [hpc]
    trivial
  have hwaits (q : ι) (chan : Chan) (hq : s.Waits q chan) : s.Blocked chan := by
    have hcases := h.waits_holder hp hq
    rw [hpc] at hcases
    exact hcases.resolve_right id
  cases writable with
  | true =>
    simp only [turn, hpc] at hstep
    cases hstep
    refine h.goto_hold hp { s.pipe with writeopen := false } trivial (by simp) (by simp) ?_
    intro q chan hq
    cases chan with
    | nread => exact .inr rfl
    | nwrite => exact .inl (hwaits q _ hq)
  | false =>
    simp only [turn, hpc] at hstep
    cases hstep
    refine h.goto_hold hp { s.pipe with readopen := false } trivial (by simp) (by simp) ?_
    intro q chan hq
    cases chan with
    | nread => exact .inl (hwaits q _ hq)
    | nwrite => exact .inr rfl

theorem sleep_inv (h : Inv s) {call : Call} (hpc : (s.thread p).pc = .sleep chan call)
    (hptable : s.ptable = none) :
    Inv ({ s with lock := none, ptable := some p }.goto p (.doze chan call)) := by
  have hp : (s.thread p).pc.Holds := by
    rw [hpc]
    trivial
  have hothers : Others s ({ s with lock := none, ptable := some p }.goto p (.doze chan call)) p :=
    others_of_update rfl
  refine h.unlock hp hothers ?_ ?_ ?_ ?_
  · rw [goto_pc]
    exact id
  · intro q chan' call' hq
    by_cases hqp : q = p
    · rw [hqp]
      rfl
    · rw [hothers.pc q hqp] at hq
      rw [h.doze q chan' call' hq] at hptable
      cases hptable
  · rw [goto_chan]
  · intro q chan' hq
    by_cases hqp : q = p
    · subst hqp
      rcases hq with hq | ⟨call', hq⟩
      · rw [Sleeping, goto_chan] at hq
        exact (h.not_waits_holder hp (Or.inl hq)).elim
      · rw [goto_pc] at hq
        cases hq
        exact h.blocked q chan call hpc
    · have hcases := h.waits_holder hp (hothers.waits hqp hq)
      rw [hpc] at hcases
      exact hcases.resolve_right id

/-- A step that changes no pc but that of `p`, which neither had nor gets the
lock, and lets no process wait that did not wait before. -/
theorem Inv.outside (h : Inv s) (hothers : Others s s' p) (hpipe : s'.pipe = s.pipe)
    (hlock : s'.lock = s.lock) (hp : ¬ (s.thread p).pc.Holds) (hpc : ¬ (s'.thread p).pc.Holds)
    (hptable : ∀ q chan call, (s'.thread q).pc = .doze chan call → s'.ptable = some q)
    (hasleep : ∀ chan, s'.Sleeping p chan → ∃ call, (s'.thread p).pc = .acquire call)
    (hwaits : ∀ chan, s'.Waits p chan → s.Waits p chan) : Inv s' := by
  have hblocked (chan : Chan) : s'.Blocked chan ↔ s.Blocked chan := by
    cases chan <;> simp only [Blocked, Empty, Full, hpipe]
  have hne (q : ι) (hq : (s'.thread q).pc.Holds) : q ≠ p := by
    rintro rfl
    exact hpc hq
  refine ⟨?_, hptable, ?_, ?_, ?_, ?_⟩
  · intro q hq
    rw [hothers.pc q (hne q hq)] at hq
    rw [hlock]
    exact h.lock q hq
  · intro q chan hq
    by_cases hqp : q = p
    · subst hqp
      exact hasleep chan hq
    · rw [hothers.pc q hqp]
      exact h.asleep q chan (hothers.chan q hqp chan hq)
  · intro q chan call hq
    have hqp := hne q (by rw [hq]; trivial)
    rw [hblocked]
    exact h.blocked q chan call ((hothers.pc q hqp).symm.trans hq)
  · intro q addr n i hq
    have hqp := hne q (by rw [hq]; trivial)
    rw [hblocked]
    exact h.full q addr n i ((hothers.pc q hqp).symm.trans hq)
  · intro q chan hq
    have hold : s.Waits q chan := by
      by_cases hqp : q = p
      · subst hqp
        exact hwaits chan hq
      · exact hothers.waits hqp hq
    rw [hblocked, hlock]
    refine (h.waits q chan hold).imp_right ?_
    rintro ⟨holder, hholder, howes⟩
    refine ⟨holder, hholder, ?_⟩
    by_cases hh : holder = p
    · -- what owes a wakeup holds the lock
      subst hh
      refine (hp ?_).elim
      revert howes
      cases (s.thread holder).pc <;> simp [Pc.Owes, Pc.Holds]
    · rw [hothers.pc holder hh]
      exact howes

theorem acquire_inv (h : Inv s) {call : Call} (hpc : (s.thread p).pc = .acquire call)
    (hlock : s.lock = none) (hawake : (s.thread p).chan = none) :
    Inv ({ s with lock := some p }.goto p (.hold call)) := by
  have hothers : Others s ({ s with lock := some p }.goto p (.hold call)) p := others_of_update rfl
  have hfree (q : ι) : ¬ (s.thread q).pc.Holds := by
    intro hq
    rw [h.lock q hq] at hlock
    cases hlock
  have honly (q : ι) (hq : (({ s with lock := some p }.goto p (.hold call)).thread q).pc.Holds) :
      q = p := by
    by_contra hne
    rw [hothers.pc q hne] at hq
    exact hfree q hq
  have hself : (({ s with lock := some p }.goto p (.hold call)).thread p).pc = .hold call :=
    goto_pc _ _ _
  refine ⟨?_, ?_, ?_, ?_, ?_, ?_⟩
  · intro q hq
    rw [honly q hq]
    rfl
  · intro q chan call' hq
    by_cases hqp : q = p
    · rw [hqp, hself] at hq
      cases hq
    · rw [hothers.pc q hqp] at hq
      exact h.doze q chan call' hq
  · intro q chan hq
    by_cases hqp : q = p
    · rw [hqp, Sleeping, goto_chan] at hq
      rw [hawake] at hq
      cases hq
    · rw [hothers.pc q hqp]
      exact h.asleep q chan (hothers.chan q hqp chan hq)
  · intro q chan call' hq
    rw [honly q (by rw [hq]; trivial), hself] at hq
    cases hq
  · intro q addr n i hq
    rw [honly q (by rw [hq]; trivial), hself] at hq
    cases hq
  · intro q chan hq
    have hqp : q ≠ p := by
      rintro rfl
      rcases hq with hq | ⟨call', hq⟩
      · rw [Sleeping, goto_chan] at hq
        rw [hawake] at hq
        cases hq
      · rw [hself] at hq
        cases hq
    rcases h.waits q chan (hothers.waits hqp hq) with hblocked | ⟨holder, hholder, _⟩
    · exact .inl hblocked
    · rw [hlock] at hholder
      cases hholder

/-- Every step of a process keeps the invariant, but for an early return that
leaves a reader behind. -/
theorem turn_inv (h : Inv s) (hstep : s.turn p = some s')
    (hgood : s.GivesUp p → ∀ q, ¬ s.Waits q .nread) : Inv s' := by
  cases hpc : (s.thread p).pc with
  | idle =>
    simp only [turn, hpc] at hstep
    cases hstep
  | acquire call =>
    simp only [turn, hpc] at hstep
    split at hstep
    · next hfree =>
      cases hstep
      exact acquire_inv h hpc hfree.1 hfree.2
    · cases hstep
  | hold call =>
    cases call with
    | write addr n i => exact write_inv h hpc hstep hgood
    | read n => exact read_inv h hpc hstep
    | close writable => exact close_inv h hpc hstep
  | full addr n i =>
    have hp : (s.thread p).pc.Holds := by
      rw [hpc]
      trivial
    have hblocked := h.full p addr n i hpc
    simp only [turn, hpc] at hstep
    split at hstep
    · next hptable =>
      cases hstep
      refine h.goto_wakeup hp hptable trivial ?_ (by simp) ?_
      · intro chan call hsleep
        cases hsleep
        exact hblocked
      · intro q chan hne hq
        cases chan with
        | nread => exact absurd rfl hne
        | nwrite => exact .inl hblocked
    · cases hstep
  | sleep chan call =>
    simp only [turn, hpc] at hstep
    split at hstep
    · next hptable =>
      cases hstep
      exact sleep_inv h hpc hptable
    · cases hstep
  | doze chan call =>
    simp only [turn, hpc] at hstep
    cases hstep
    have hp : ¬ (s.thread p).pc.Holds := by
      rw [hpc]
      exact id
    refine h.outside (p := p) (others_of_update rfl) rfl rfl hp ?_ ?_ ?_ ?_
    · simp [setThread, Pc.Holds]
    · intro q chan' call' hq
      by_cases hqp : q = p
      · simp [hqp, setThread] at hq
      · simp only [setThread, update_of_ne hqp] at hq
        have hheld := (h.doze p chan call hpc).symm.trans (h.doze q chan' call' hq)
        exact absurd (Option.some.inj hheld).symm hqp
    · intro chan' _
      exact ⟨call, by simp [setThread]⟩
    · intro chan' hq
      rcases hq with hq | ⟨call', hq⟩
      · simp only [Sleeping, setThread, update_self, Option.some.injEq] at hq
        subst hq
        exact .inr ⟨call, hpc⟩
      · simp [setThread] at hq
  | copy n i => exact copy_inv h hpc hstep
  | wake chan r =>
    have hp : (s.thread p).pc.Holds := by
      rw [hpc]
      trivial
    simp only [turn, hpc] at hstep
    split at hstep
    · next hptable =>
      cases hstep
      refine h.goto_wakeup hp hptable trivial (by simp) (by simp) ?_
      intro q chan' hne hq
      have hcases := h.waits_holder hp hq
      rw [hpc] at hcases
      exact .inl (hcases.resolve_right fun heq => hne heq.symm)
    · cases hstep
  | release r =>
    have hp : (s.thread p).pc.Holds := by
      rw [hpc]
      trivial
    simp only [turn, hpc] at hstep
    cases hstep
    refine h.goto_idle hp fun q chan hq => ?_
    have hcases := h.waits_holder hp hq
    rw [hpc] at hcases
    exact hcases.resolve_right id

/-- A step that is not an early return of `pipewrite` past a waiting reader. -/
def GoodStep (s s' : State ι) : Prop :=
  ∃ a, s.step a = some s' ∧ ∀ p, a = .turn p → s.GivesUp p → ∀ q, ¬ s.Waits q .nread

theorem goodStep_inv (h : Inv s) (hstep : GoodStep s s') : Inv s' := by
  obtain ⟨a, hstep, hgood⟩ := hstep
  cases a with
  | call p call =>
    simp only [step] at hstep
    split at hstep
    · next hidle =>
      cases hstep
      have hpc : (s.thread p).pc = .idle := by
        have htest := hidle.1
        unfold idle at htest
        split at htest
        · next hpc => exact hpc
        · cases htest
      have hp : ¬ (s.thread p).pc.Holds := by
        rw [hpc]
        exact id
      have hothers : Others s (s.goto p (.acquire call)) p := others_of_update rfl
      refine h.outside hothers rfl rfl hp ?_ ?_ ?_ ?_
      · rw [goto_pc]
        exact id
      · intro q chan call' hq
        by_cases hqp : q = p
        · rw [hqp, goto_pc] at hq
          cases hq
        · rw [hothers.pc q hqp] at hq
          exact h.doze q chan call' hq
      · intro chan _
        exact ⟨call, goto_pc _ _ _⟩
      · intro chan hq
        rcases hq with hq | ⟨call', hq⟩
        · rw [Sleeping, goto_chan] at hq
          exact .inl hq
        · rw [goto_pc] at hq
          cases hq
    · cases hstep
  | turn p => exact turn_inv h hstep (hgood p rfl)
  | kill p =>
    simp only [step] at hstep
    split at hstep
    · cases hstep
      refine h.awake rfl rfl rfl (fun q => ?_) fun q chan hq => ?_
      · by_cases hqp : q = p
        · simp [hqp, setThread]
        · simp [setThread, hqp]
      · by_cases hqp : q = p
        · simp [hqp, Sleeping, setThread] at hq
        · simpa [Sleeping, setThread, hqp] using hq
    · cases hstep

theorem goodRun_inv {t : State ι} (hs : s.Quiet) (hrun : ReflTransGen GoodStep s t) : Inv t :=
  Lib.invariant_of_run Inv hrun hs.inv fun _ _ h hstep => goodStep_inv h hstep

/-- The early return leaves the pipe as it is, with its lock free. -/
theorem turn_of_givesUp (h : s.GivesUp p) : s.turn p = some
    ({ s with lock := none }.goto p .idle) := by
  obtain ⟨addr, n, i, hpc, hlt, hfull, hquit⟩ := h
  simp only [turn, hpc]
  rw [if_pos hlt, if_pos hfull, if_pos hquit]

/-- No wakeup is lost along runs in which `pipewrite` never returns early from a
full pipe while a process waits for bytes; and an early return loses a wakeup
exactly when a process is sleeping on `&p->nread`. -/
theorem no_lost_wakeup {t : State ι} (hs : s.Quiet) (hrun : ReflTransGen GoodStep s t) :
    t.NoLostWakeup ∧ ∀ p u, t.step (.turn p) = some u → t.GivesUp p →
      (u.NoLostWakeup ↔ ∀ q, ¬ t.Sleeping q .nread) := by
  have hinv := goodRun_inv hs hrun
  refine ⟨hinv.noLostWakeup, ?_⟩
  intro p u hstep hquit
  change t.turn p = some u at hstep
  rw [turn_of_givesUp hquit] at hstep
  cases hstep
  obtain ⟨addr, n, i, hpc, _, hfull, _⟩ := hquit
  have hp : (t.thread p).pc.Holds := by
    rw [hpc]
    trivial
  have hsleep (q : ι) (chan : Chan) :
      ({ t with lock := none }.goto p .idle).Sleeping q chan ↔ t.Sleeping q chan := by
    by_cases hqp : q = p
    · simp [hqp, Sleeping, goto, setThread]
    · simp [Sleeping, goto, setThread, hqp]
  constructor
  · intro hgood q hq
    have hblocked := hgood rfl q .nread ((hsleep q .nread).mpr hq)
    exact Full.not_empty hfull hblocked.1
  · intro hnone _ q chan hq
    rw [hsleep] at hq
    cases chan with
    | nread => exact (hnone q hq).elim
    | nwrite =>
      have hcases := hinv.waits_holder hp (Or.inl hq)
      rw [hpc] at hcases
      exact hcases.resolve_right id

/-- A reader goes to sleep on the empty pipe, with good reason. -/
theorem no_lost_wakeup_reader : ∃ t : State (Fin 2), ReflTransGen GoodStep (start (Fin 2) 0) t ∧
    t.lock = none ∧ t.Sleeping 1 .nread ∧ t.NoLostWakeup := by
  have hquiet : (start (Fin 2) 0).Quiet := ⟨rfl, rfl, fun _ => rfl, fun _ => rfl⟩
  have hrun : ∃ t : State (Fin 2), ReflTransGen GoodStep (start (Fin 2) 0) t ∧ t.lock = none ∧
      (t.thread 1).chan = some .nread := by
    refine ⟨_, (((((ReflTransGen.refl.tail ⟨.call 1 (.read 1), rfl, ?_⟩).tail
      ⟨.turn 1, rfl, ?_⟩).tail ⟨.turn 1, rfl, ?_⟩).tail ⟨.turn 1, rfl, ?_⟩).tail
      ⟨.turn 1, rfl, ?_⟩), rfl, rfl⟩
    all_goals
      rintro p hact ⟨addr, n, i, hpc, _⟩
      cases hact
      try cases hpc
  obtain ⟨t, hrun, hlock, hsleep⟩ := hrun
  exact ⟨t, hrun, hlock, hsleep, (no_lost_wakeup hquiet hrun).1⟩

/-- Process 1 sleeps in `piperead`; process 0 is killed while it waits for the
lock in `pipewrite`, fills the pipe and returns early. -/
def lostActs : List (Act (Fin 2)) :=
  let writer : Fin 2 := ⟨0, Nat.zero_lt_two⟩
  let reader : Fin 2 := ⟨1, Nat.one_lt_two⟩
  [.call reader (.read 1), .turn reader, .turn reader, .turn reader, .turn reader,
    .call writer (.write (fun _ => 7) 513 0), .kill writer, .turn writer] ++
    List.replicate (PIPESIZE + 1) (.turn writer)

/-- The bytes are in the pipe, the lock is free, both ends are open, and the
reader still sleeps. -/
theorem pipe_wakeup_lost : ∃ t st de, Run (start (Fin 2) 0) t st de ∧ t.lock = none ∧
    t.Sleeping 1 .nread ∧ t.Full ∧ t.pipe.readopen = true ∧ t.pipe.writeopen = true ∧
    ¬ t.NoLostWakeup := by
  have htrace : ((start (Fin 2) 0).trace lostActs).map (fun r => (r.1.lock, (r.1.thread 1).chan,
      decide r.1.Full, r.1.pipe.readopen, r.1.pipe.writeopen)) =
      some (none, some .nread, true, true, true) := by decide +kernel
  obtain ⟨⟨t, st, de⟩, hrun, heq⟩ := Option.map_eq_some_iff.mp htrace
  simp only [Prod.mk.injEq, decide_eq_true_eq] at heq
  obtain ⟨hlock, hsleep, hfull, hread, hwrite⟩ := heq
  exact ⟨t, st, de, run_of_trace hrun, hlock, hsleep, hfull, hread, hwrite,
    fun hgood => Full.not_empty hfull (hgood hlock 1 .nread hsleep).1⟩

end

end State

end Xv6.Pipes

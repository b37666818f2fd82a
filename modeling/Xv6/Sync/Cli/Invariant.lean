import Mathlib.Data.List.Nodup
import Xv6.Sync.Cli.Machine

/-!
The invariant of the machine of interrupts and spin locks. The count of a
processor is the number of locks of the thread on it, and one more inside
`acquire` and `release`; a thread that is on no processor has `ptable.lock` and
nothing else, so that it fits every processor whose scheduler has that lock.
-/

namespace Xv6.Sync.Cli

open Function

/-- What a thread between `pushcli` and `popcli` of `acquire` or `release` has
added to the count beside the locks it has. -/
def Pc.pending : Pc → Nat
  | .spin _ | .taken _ | .cleared _ | .unlocked => 1
  | _ => 0

/-- The lock a thread has taken without its name in it, or is about to give back. -/
def Pc.inHand : Pc → Option Nat
  | .taken l | .cleared l => some l
  | _ => none

def Pc.wants : Pc → Option Nat
  | .eflags l _ | .spin l | .taken l => some l
  | _ => none

/-- Where the code below all trap frames is. -/
def bottom (pc : Pc) : List (Pc × Bool) → Pc
  | [] => pc
  | (pc', _) :: frames => bottom pc' frames

/-- A frame made with the flag on lies over code that may be in `pushcli`, one
made with the flag off over plain code. -/
def FrameOk (frame : Pc × Bool) : Prop :=
  frame.1 = .code ∨ frame.2 = true ∧ ∃ l, frame.1 = .eflags l true

structure Running (c : Nat) (lock : Nat → Spinlock) (x : Cpu) (t : Thread) : Prop where
  held : ∀ l, l ∈ t.held ↔ (lock l).cpu = some c
  nodup : t.held.Nodup
  ncli : x.ncli = t.held.length + t.pc.pending
  off : x.flag = true → x.ncli = 0
  awake : t.pc ≠ .switched ∧ t.pc ≠ .forkret
  eflags : ∀ l f, t.pc = .eflags l f → x.flag = f
  frames : ∀ frame ∈ t.frames, FrameOk frame
  resumed : t.pc = .resumed → t.held ≠ []

/-- While the count is up, the flag to go back to is that of the outermost
`acquire`: in `intena` of the processor, or before that on the stack of `sched`. -/
def FlagKept (x : Cpu) (t : Thread) : Prop :=
  ∀ f, t.outer = some f → 0 < x.ncli → (if t.pc = .resumed then t.intena else x.intena) = f

structure Parked (t : Thread) : Prop where
  pc : t.pc = .switched ∨ t.pc = .forkret
  held : t.held = [ptableLock]
  frames : ∀ frame ∈ t.frames, FrameOk frame
  kept : ∀ f, t.outer = some f → t.intena = f
  new : t.pc = .forkret → t.outer = none

/-- A scheduler thread, on its processor or not. -/
structure Scheduler (loop : Loop) (t : Thread) : Prop where
  locked : loop = .locked → t.frames = [] ∧ t.pc = .code ∧ t.held = [ptableLock]
  unlocked : loop ≠ .locked → t.frames = [] → t.held = []
  wants : ∀ l, (bottom t.pc t.frames).wants = some l → l = ptableLock
  frames : ∀ frame ∈ t.frames, frame.2 = true

/-- `hand` tells for each processor which lock it has in hand. -/
structure Locks (lock : Nat → Spinlock) (hand : Nat → Option Nat) : Prop where
  free : ∀ l, (lock l).locked = false → (lock l).cpu = none
  closed : ∀ c l, hand c = some l → (lock l).locked = true ∧ (lock l).cpu = none
  unique : ∀ c c' l, hand c = some l → hand c' = some l → c = c'

/-- The thread on `c` has the lock: its processor is in it, or it is in hand. -/
def State.Holds (s : State) (c l : Nat) : Prop :=
  (s.lock l).cpu = some c ∨ (s.run c).pc.inHand = some l

def State.hand (s : State) (c : Nat) : Option Nat := (s.run c).pc.inHand

structure Inv (s : State) : Prop where
  running : ∀ c, Running c s.lock (s.cpu c) (s.run c)
  kept : ∀ c p, s.current c = .proc p → FlagKept (s.cpu c) (s.run c)
  parked : ∀ p, (∀ c, s.current c ≠ .proc p) → Parked (s.thread (.proc p))
  scheduler : ∀ c, Scheduler (s.loop c) (s.thread (.scheduler c))
  away : ∀ c, s.current c ≠ .scheduler c → s.loop c = .locked
  own : ∀ c c', s.current c = .scheduler c' → c' = c
  unique : ∀ c c' p, s.current c = .proc p → s.current c' = .proc p → c = c'
  locks : Locks s.lock s.hand

theorem newThread_parked : Parked newThread where
  pc := Or.inr rfl
  held := rfl
  frames := by simp [newThread]
  kept := by simp [newThread]
  new _ := rfl

theorem boot_inv : Inv State.boot where
  running c := by
    constructor <;> simp [State.boot, State.run, Pc.pending]
  kept c p hp := by simp [State.boot] at hp
  parked p _ := newThread_parked
  scheduler c := by
    constructor <;> simp [State.boot, bottom, Pc.wants]
  away c hc := absurd rfl hc
  own c c' hc := by simpa [State.boot, eq_comm] using hc
  unique c c' p hc := by simp [State.boot] at hc
  locks := by
    constructor <;> simp [State.boot, State.hand, State.run, Pc.inHand]

namespace Running

variable {c : Nat} {lock : Nat → Spinlock} {x : Cpu} {t : Thread}

theorem ncli_nonneg (h : Running c lock x t) : 0 ≤ x.ncli := by
  rw [h.ncli]
  omega

theorem flag_off (h : Running c lock x t) (hpos : 0 < x.ncli) : x.flag = false := by
  cases hflag : x.flag with
  | false => rfl
  | true =>
    have hzero := h.off hflag
    omega

theorem held_nil (h : Running c lock x t) (hzero : x.ncli = 0) : t.held = [] := by
  have hncli := h.ncli
  apply List.eq_nil_of_length_eq_zero
  omega

theorem ncli_code (h : Running c lock x t) (hpc : t.pc = .code) : x.ncli = t.held.length := by
  rw [h.ncli, hpc]
  rfl

/-- The count does not see a step inside `acquire` or `release`. -/
theorem move (h : Running c lock x t) {pc : Pc} (hpending : pc.pending = t.pc.pending)
    (hawake : pc ≠ .switched ∧ pc ≠ .forkret ∧ pc ≠ .resumed)
    (heflags : ∀ l f, pc = .eflags l f → x.flag = f) :
    Running c lock x { t with pc := pc } where
  held := h.held
  nodup := h.nodup
  ncli := by rw [hpending]; exact h.ncli
  off := h.off
  awake := ⟨hawake.1, hawake.2.1⟩
  eflags := heflags
  frames := h.frames
  resumed hpc := absurd hpc hawake.2.2

theorem setIntena (h : Running c lock x t) (b : Bool) : Running c lock { x with intena := b } t :=
  ⟨h.held, h.nodup, h.ncli, h.off, h.awake, h.eflags, h.frames, h.resumed⟩

theorem popcli_eq (h : Running c lock x t) (hpc : t.pc = .unlocked) :
    popcli x = .ok { x with ncli := t.held.length, flag := t.held.isEmpty && x.intena } := by
  have hncli : x.ncli = t.held.length + 1 := by
    rw [h.ncli, hpc]
    rfl
  have hsub : x.ncli - 1 = t.held.length := by omega
  have hlt : ¬ (t.held.length : Int) < 0 := by omega
  unfold popcli
  rw [if_neg (by simp [h.flag_off (by omega)]), hsub, if_neg hlt]
  cases t.held <;> simp
  omega

/-- While interrupts are on, a thread is in plain code or before the `cli` of `acquire`. -/
theorem frameOk (h : Running c lock x t) (hflag : x.flag = true) : FrameOk (t.pc, x.flag) := by
  have hncli := h.ncli
  rw [h.off hflag] at hncli
  have hpending : t.pc.pending = 0 := by omega
  have hheld := h.held_nil (h.off hflag)
  cases hpc : t.pc with
  | code => exact .inl rfl
  | eflags l f =>
    have hf := h.eflags l f hpc
    rw [hflag] at hf
    exact .inr ⟨hflag, l, by rw [← hf]⟩
  | spin l => simp [hpc, Pc.pending] at hpending
  | taken l => simp [hpc, Pc.pending] at hpending
  | cleared l => simp [hpc, Pc.pending] at hpending
  | unlocked => simp [hpc, Pc.pending] at hpending
  | switched => exact absurd hpc h.awake.1
  | resumed => exact absurd hheld (h.resumed hpc)
  | forkret => exact absurd hpc h.awake.2

end Running

namespace FrameOk

variable {pc : Pc} {f : Bool}

theorem pending (h : FrameOk (pc, f)) : pc.pending = 0 := by
  rcases h with rfl | ⟨_, l, rfl⟩ <;> rfl

theorem inHand (h : FrameOk (pc, f)) : pc.inHand = none := by
  rcases h with rfl | ⟨_, l, rfl⟩ <;> rfl

theorem not_resumed (h : FrameOk (pc, f)) : pc ≠ .resumed := by
  rcases h with rfl | ⟨_, l, rfl⟩ <;> simp

theorem awake (h : FrameOk (pc, f)) : pc ≠ .switched ∧ pc ≠ .forkret := by
  rcases h with rfl | ⟨_, l, rfl⟩ <;> simp

theorem eflags (h : FrameOk (pc, f)) {l : Nat} {g : Bool} (hpc : pc = .eflags l g) : f = g := by
  rcases h with rfl | ⟨hf, l', rfl⟩
  · cases hpc
  · cases hpc
    exact hf

end FrameOk

theorem FlagKept.move {x : Cpu} {t : Thread} (h : FlagKept x t) {pc : Pc}
    (hold : t.pc ≠ .resumed) (hnew : pc ≠ .resumed) (held : List Nat) :
    FlagKept x { t with pc := pc, held := held } := by
  intro f hf hpos
  have hkept := h f hf hpos
  rw [if_neg hold] at hkept
  rw [if_neg hnew]
  exact hkept

namespace Scheduler

variable {loop : Loop} {t t' : Thread}

/-- In a handler the scheduler is one kernel thread among others. -/
theorem handler (h : Scheduler loop t) (hframes : t.frames ≠ []) (hsame : t'.frames = t.frames) :
    Scheduler loop t' where
  locked hloop := absurd (h.locked hloop).1 hframes
  unlocked _ hnil := absurd (hsame.symm.trans hnil) hframes
  wants := by
    have hwants := h.wants
    rw [hsame]
    cases hf : t.frames with
    | nil => exact absurd hf hframes
    | cons frame frames =>
      rw [hf] at hwants
      exact hwants
  frames := by
    rw [hsame]
    exact h.frames

theorem not_locked (h : Scheduler loop t) (hpc : t.pc ≠ .code) : loop ≠ .locked :=
  fun hloop => hpc (h.locked hloop).2.1

theorem move (h : Scheduler loop t) (hloop : loop ≠ .locked) {pc : Pc}
    (hwants : t.frames = [] → ∀ l, pc.wants = some l → t.pc.wants = some l ∨ l = ptableLock)
    (outer : Option Bool) : Scheduler loop { t with pc := pc, outer := outer } := by
  cases hf : t.frames with
  | cons frame frames => exact h.handler (by rw [hf]; exact List.cons_ne_nil _ _) hf.symm
  | nil =>
    have hold := h.wants
    rw [hf] at hold
    refine ⟨fun hlocked => absurd hlocked hloop, fun _ _ => h.unlocked hloop hf, ?_, ?_⟩
    · intro l hl
      exact (hwants hf l hl).elim (hold l) id
    · intro frame hframe
      exact absurd hframe List.not_mem_nil

end Scheduler

/-- A processor behind `pushcli` and `popcli`. -/
def Cpu.balanced (x : Cpu) : Cpu :=
  { x with intena := if x.ncli = 0 then x.flag else x.intena }

theorem popcli_pushcli {x : Cpu} (hnonneg : 0 ≤ x.ncli) (hoff : x.flag = true → x.ncli = 0) :
    popcli (pushcli x.flag x) = .ok x.balanced := by
  have hlt : ¬ x.ncli + 1 - 1 < 0 := by omega
  unfold popcli pushcli Cpu.balanced
  rw [if_neg Bool.false_ne_true, if_neg hlt, Int.add_sub_cancel]
  by_cases hzero : x.ncli = 0
  · simp [hzero]
  · have hflag : x.flag = false := by
      cases hflag : x.flag with
      | false => rfl
      | true => exact absurd (hoff hflag) hzero
    simp [hzero, hflag]

/-- Between two calls `intena` is of no use. -/
theorem FlagKept.balanced {x : Cpu} {t : Thread} (h : FlagKept x t) : FlagKept x.balanced t := by
  intro f hf hpos
  have hne : x.ncli ≠ 0 := Int.ne_of_gt hpos
  unfold Cpu.balanced
  rw [if_neg hne]
  exact h f hf hpos

namespace Locks

variable {lock : Nat → Spinlock} {hand : Nat → Option Nat} {c l : Nat}

theorem take (h : Locks lock hand) (hfree : (lock l).locked = false) :
    Locks (update lock l { lock l with locked := true })
      (update hand c (some l)) := by
  have hnot : ∀ d, hand d ≠ some l := by
    intro d hd
    have hclosed := (h.closed d l hd).1
    rw [hfree] at hclosed
    exact Bool.noConfusion hclosed
  constructor
  · intro m
    have hm := h.free m
    grind
  · intro d m hd
    have hm := h.closed d m
    have hcpu := h.free l hfree
    grind
  · intro d d' m hd hd'
    have hm := h.unique d d' m
    grind

theorem record (h : Locks lock hand) (hl : hand c = some l) :
    Locks (update lock l { lock l with cpu := some c })
      (update hand c none) := by
  have hlocked := (h.closed c l hl).1
  constructor
  · intro m
    have hm := h.free m
    grind
  · intro d m hd
    have hm := h.closed d m
    have hone := h.unique c d l hl
    grind
  · intro d d' m hd hd'
    have hm := h.unique d d' m
    grind

theorem clear (h : Locks lock hand) (hl : (lock l).cpu = some c)
    (hlocked : (lock l).locked = true) :
    Locks (update lock l { lock l with cpu := none })
      (update hand c (some l)) := by
  have hnot : ∀ d, hand d ≠ some l := by
    intro d hd
    have hnone := (h.closed d l hd).2
    rw [hl] at hnone
    exact Option.some_ne_none c hnone
  constructor
  · intro m
    have hm := h.free m
    grind
  · intro d m hd
    have hm := h.closed d m
    grind
  · intro d d' m hd hd'
    have hm := h.unique d d' m
    grind

theorem unlock (h : Locks lock hand) (hl : hand c = some l) :
    Locks (update lock l { lock l with locked := false })
      (update hand c none) := by
  have hnone := (h.closed c l hl).2
  constructor
  · intro m
    have hm := h.free m
    grind
  · intro d m hd
    have hm := h.closed d m
    have hone := h.unique c d l hl
    grind
  · intro d d' m hd hd'
    have hm := h.unique d d' m
    grind

end Locks

namespace Inv

variable {s : State} {c : Nat}

theorem current_ne (h : Inv s) {c' : Nat} (hne : c' ≠ c) : s.current c' ≠ s.current c := by
  intro heq
  cases hc : s.current c with
  | scheduler d =>
    have hd := h.own c d hc
    have hd' := h.own c' d (heq.trans hc)
    exact hne (hd'.symm.trans hd)
  | proc p => exact hne (h.unique c' c p (heq.trans hc) hc)

theorem act (h : Inv s) {x : Cpu} {t : Thread} (lock : Nat → Spinlock) (loop : Nat → Loop)
    (hlock : ∀ c' ≠ c, ∀ l, (lock l).cpu = some c' ↔ (s.lock l).cpu = some c')
    (hloop : ∀ c', (c' = c → s.current c ≠ .scheduler c) → loop c' = s.loop c')
    (hrunning : Running c lock x t)
    (hkept : ∀ p, s.current c = .proc p → FlagKept x t)
    (hscheduler : s.current c = .scheduler c → Scheduler (loop c) t)
    (hlocks : Locks lock (update s.hand c t.pc.inHand)) :
    Inv { s.put c x t with lock := lock, loop := loop } := by
  have hrunc : (s.put c x t).run c = t := by simp [State.run, State.put]
  have hrun : ∀ c' ≠ c, (s.put c x t).run c' = s.run c' := by
    intro c' hne
    simp [State.run, State.put, update_of_ne (h.current_ne hne)]
  have hcpuc : (s.put c x t).cpu c = x := by simp [State.put]
  have hcpu : ∀ c' ≠ c, (s.put c x t).cpu c' = s.cpu c' := by
    intro c' hne
    simp [State.put, update_of_ne hne]
  have hthread : ∀ i ≠ s.current c, (s.put c x t).thread i = s.thread i := by
    intro i hi
    simp [State.put, update_of_ne hi]
  refine ⟨?_, ?_, ?_, ?_, ?_, h.own, h.unique, ?_⟩
  · intro c'
    change Running c' lock ((s.put c x t).cpu c') ((s.put c x t).run c')
    by_cases hne : c' = c
    · rw [hne, hcpuc, hrunc]
      exact hrunning
    · have hold := h.running c'
      rw [hcpu c' hne, hrun c' hne]
      exact { hold with held := fun l => (hold.held l).trans (hlock c' hne l).symm }
  · intro c' p hp
    change FlagKept ((s.put c x t).cpu c') ((s.put c x t).run c')
    by_cases hne : c' = c
    · rw [hne] at hp
      rw [hne, hcpuc, hrunc]
      exact hkept p hp
    · rw [hcpu c' hne, hrun c' hne]
      exact h.kept c' p hp
  · intro p hp
    change Parked ((s.put c x t).thread (.proc p))
    rw [hthread _ (hp c).symm]
    exact h.parked p hp
  · intro c'
    change Scheduler (loop c') ((s.put c x t).thread (.scheduler c'))
    by_cases hc : s.current c = .scheduler c'
    · have hcc := h.own c c' hc
      rw [hcc] at hc ⊢
      have hthreadc : (s.put c x t).thread (.scheduler c) = t := by
        rw [← hc]
        exact hrunc
      rw [hthreadc]
      exact hscheduler hc
    · rw [hthread _ (Ne.symm hc), hloop c' (by rintro rfl; exact hc)]
      exact h.scheduler c'
  · intro c' hc'
    change loop c' = .locked
    rw [hloop c' (by rintro rfl; exact hc')]
    exact h.away c' hc'
  · have hhand : (s.put c x t).hand = update s.hand c t.pc.inHand := by
      funext d
      by_cases hne : d = c
      · rw [hne, update_self, State.hand, hrunc]
      · rw [update_of_ne hne, State.hand, hrun d hne, State.hand]
    change Locks lock (s.put c x t).hand
    rw [hhand]
    exact hlocks

theorem put (h : Inv s) {x : Cpu} {t : Thread} (hhand : t.pc.inHand = (s.run c).pc.inHand)
    (hrunning : Running c s.lock x t)
    (hkept : ∀ p, s.current c = .proc p → FlagKept x t)
    (hscheduler : s.current c = .scheduler c → Scheduler (s.loop c) t) :
    Inv (s.put c x t) := by
  have hlocks : Locks s.lock (update s.hand c t.pc.inHand) := by
    have hsame : update s.hand c t.pc.inHand = s.hand := by
      rw [hhand]
      exact update_eq_self c s.hand
    rw [hsame]
    exact h.locks
  exact h.act s.lock s.loop (fun _ _ _ => Iff.rfl) (fun _ _ => rfl) hrunning hkept hscheduler hlocks

theorem holding_eq (h : Inv s) (l : Nat) :
    s.holding c l = .ok ((s.lock l).locked && (s.lock l).cpu == some c, (s.cpu c).balanced) := by
  have hr := h.running c
  unfold State.holding
  dsimp only
  rw [popcli_pushcli hr.ncli_nonneg hr.off]
  rfl

theorem not_current (h : Inv s) {p : Nat}
    (hp : (s.thread (.proc p)).pc = .switched ∨ (s.thread (.proc p)).pc = .forkret) (c : Nat) :
    s.current c ≠ .proc p := by
  intro hc
  have hawake := (h.running c).awake
  unfold State.run at hawake
  rw [hc] at hawake
  exact hp.elim hawake.1 hawake.2

theorem switch (h : Inv s) {p : Nat} {t : Thread} {i : Tid}
    (hold : s.current c = .scheduler c ∨ s.current c = .proc p)
    (hnew : i = .scheduler c ∨ i = .proc p)
    (hother : ∀ c' ≠ c, s.current c' ≠ .proc p) (hloop : s.loop c = .locked)
    (hrunning : Running c s.lock (s.cpu c) (update s.thread (.proc p) t i))
    (hhand : (update s.thread (.proc p) t i).pc.inHand = s.hand c)
    (hkept : i = .proc p → FlagKept (s.cpu c) t) (hparked : i = .scheduler c → Parked t) :
    Inv { s with
      current := update s.current c i
      thread := update s.thread (.proc p) t } := by
  have hrun : ∀ c' ≠ c, update s.thread (.proc p) t
      (update s.current c i c') = s.run c' := by
    intro c' hne
    rw [update_of_ne hne, update_of_ne (hother c' hne)]
    rfl
  refine ⟨?_, ?_, ?_, ?_, ?_, ?_, ?_, ?_⟩
  · intro c'
    dsimp only [State.run]
    rcases eq_or_ne c' c with rfl | hne
    · rw [update_self]
      exact hrunning
    · rw [hrun c' hne]
      exact h.running c'
  · intro c' q hq
    dsimp only [State.run] at hq ⊢
    rcases eq_or_ne c' c with rfl | hne
    · rw [update_self] at hq ⊢
      rcases hnew with rfl | rfl
      · cases hq
      · rw [update_self]
        exact hkept rfl
    · rw [update_of_ne hne] at hq
      rw [hrun c' hne]
      exact h.kept c' q hq
  · intro q hq
    dsimp only at hq ⊢
    have hqc := hq c
    rw [update_self] at hqc
    rcases eq_or_ne q p with rfl | hne
    · rw [update_self]
      exact hparked (hnew.resolve_right hqc)
    · rw [update_of_ne (by simpa using hne)]
      apply h.parked
      intro c' hc'
      rcases eq_or_ne c' c with rfl | hcc
      · rcases hold with hold | hold
        · rw [hold] at hc'
          cases hc'
        · rw [hold] at hc'
          exact hne (Tid.proc.inj hc').symm
      · apply hq c'
        rw [update_of_ne hcc]
        exact hc'
  · intro c'
    simpa using h.scheduler c'
  · intro c' hc'
    dsimp only at hc' ⊢
    rcases eq_or_ne c' c with rfl | hne
    · exact hloop
    · rw [update_of_ne hne] at hc'
      exact h.away c' hc'
  · intro c' d hd
    dsimp only at hd
    rcases eq_or_ne c' c with rfl | hne
    · rw [update_self] at hd
      rcases hnew with rfl | rfl
      · exact (Tid.scheduler.inj hd).symm
      · cases hd
    · rw [update_of_ne hne] at hd
      exact h.own c' d hd
  · intro c' d q hc' hd
    have hone : ∀ e, update s.current c i e = .proc q → e ≠ c → i = .proc q → False := by
      intro e he hne hi
      rw [update_of_ne hne] at he
      rcases hnew with rfl | rfl
      · cases hi
      · exact hother e hne (he.trans hi.symm)
    dsimp only at hc' hd
    rcases eq_or_ne c' c with rfl | hne
    · by_contra hcd
      rw [update_self] at hc'
      exact hone d hd (Ne.symm hcd) hc'
    · rcases eq_or_ne d c with rfl | hned
      · rw [update_self] at hd
        exact absurd hd (hone c' hc' hne)
      · rw [update_of_ne hne] at hc'
        rw [update_of_ne hned] at hd
        exact h.unique c' d q hc' hd
  · have hsame : State.hand { s with
        current := update s.current c i
        thread := update s.thread (.proc p) t } = s.hand := by
      funext c'
      dsimp only [State.hand, State.run]
      rcases eq_or_ne c' c with rfl | hne
      · rw [update_self]
        exact hhand
      · rw [hrun c' hne]
        rfl
    rw [hsame]
    exact h.locks

theorem base_iff (s : State) (c : Nat) :
    s.base c = true ↔ s.current c = .scheduler c ∧ (s.run c).frames = [] := by
  simp [State.base]

theorem scheduler_run (h : Inv s) (hc : s.current c = .scheduler c) :
    Scheduler (s.loop c) (s.run c) := by
  have hrun : s.run c = s.thread (.scheduler c) := by
    unfold State.run
    rw [hc]
  rw [hrun]
  exact h.scheduler c

end Inv

end Xv6.Sync.Cli

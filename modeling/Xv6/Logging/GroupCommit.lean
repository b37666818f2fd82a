import Xv6.Lib.Monitor
import Xv6.Logging.Model

/-!
Group commit. Any number of processes run operations, each a `begin_op`, any
`log_write`s and an `end_op`; the last `end_op` runs `commit`, without
`log.lock`, as a sequence of steps. Calls interleave at the acquisitions of
`log.lock` and `ptable.lock`. The checks of `log_write` and all of `commit`
run without the lock.
-/

namespace Xv6.Logging

open Lib Lib.Monitor Relation Function Finset

/-- The checks at the head of `log_write`. -/
def logWriteCheck (lg : Log) : Option Panic :=
  if lg.lh.n ≥ LOGSIZE ∨ lg.lh.n ≥ lg.size - 1 then some .tooBigATransaction
  else if lg.outstanding < 1 then some .logWriteOutsideOfTrans
  else none

variable {lg : Log}

theorem logWriteCheck_some {msg : Panic} (h : logWriteCheck lg = some msg) :
    msg = .tooBigATransaction ∨ (msg = .logWriteOutsideOfTrans ∧ lg.outstanding < 1) := by
  unfold logWriteCheck at h
  split at h
  · cases h
    exact .inl rfl
  · split at h
    · next hout =>
      cases h
      exact .inr ⟨rfl, hout⟩
    · cases h

namespace GroupCommit

inductive Pc where
  | idle
  /-- `begin_op`: before `acquire`, at the test, before `sleep`, before `release` -/
  | beginOp
  | tryBegin
  | wait
  | admitted
  /-- inside an operation -/
  | op
  /-- `log_write`: at the checks, before `acquire`, before the loop, before `release` -/
  | logWrite (b : Nat)
  | logLock (b : Nat)
  | absorb (b : Nat)
  | logged
  /-- `end_op`: before `acquire`, before `outstanding -= 1`, before `wakeup`, before `release` -/
  | endOp
  | leave
  | endWake
  | ended
  /-- before `release` on the way to `commit` -/
  | toCommit
  /-- `commit` -/
  | commit
  | writeLog (tail : Nat)
  | writeHead
  | installTrans (tail : Nat)
  | clear
  | eraseHead
  /-- after `commit`: before `acquire`, before `committing = 0`, before `wakeup`, before `release` -/
  | done
  | finish
  | doneWake
  | finished
  | panicked (msg : Panic)

/-- The test of `begin_op`. -/
def tryBegin (lg : Log) : Log × Pc := (Logging.beginOp lg).elim (lg, .wait) fun lg =>
    (lg, .admitted)

/-- The first critical section of `end_op`. -/
def leave (lg : Log) : Log × Pc :=
  match Logging.endOp lg with
  | .ok (lg, true) => (lg, .toCommit)
  | .ok (lg, false) => (lg, .endWake)
  | .error msg => (lg, .panicked msg)

/-- What a process inside an operation does next. -/
inductive Callable : Pc → Prop where
  | logWrite (b : Nat) : Callable (.logWrite b)
  | endOp : Callable .endOp

/-- The code of a process: one operation after the other. -/
def code {ι : Type*} (_ : ι) : Pc → Instr ι Unit Unit Log Pc
  | .idle => .choose fun _ k => k = .beginOp
  | .beginOp => .acquire () .tryBegin
  | .tryBegin => .act tryBegin
  | .wait => .sleep () () .tryBegin
  | .admitted => .release () .op
  | .op => .choose fun _ k => Callable k
  | .logWrite b => .act fun lg => (lg, (logWriteCheck lg).elim (.logLock b) .panicked)
  | .logLock b => .acquire () (.absorb b)
  | .absorb b => .act fun lg => ({ lg with lh := lg.lh.absorb b }, .logged)
  | .logged => .release () .op
  | .endOp => .acquire () .leave
  | .leave => .act leave
  | .endWake => .wakeup () .ended
  | .ended => .release () .idle
  | .toCommit => .release () .commit
  | .commit => .act fun lg => (lg, if lg.lh.n > 0 then .writeLog 0 else .done)
  | .writeLog tail => .act fun lg =>
    (lg, if tail < lg.lh.n then .writeLog (tail + 1) else .writeHead)
  | .writeHead => .act fun lg => (lg, .installTrans 0)
  | .installTrans tail => .act fun lg =>
    (lg, if tail < lg.lh.n then .installTrans (tail + 1) else .clear)
  | .clear => .act fun lg => (lg.clear, .eraseHead)
  | .eraseHead => .act fun lg => (lg, .done)
  | .done => .acquire () .finish
  | .finish => .act fun lg => ({ lg with committing := false }, .doneWake)
  | .doneWake => .wakeup () .finished
  | .finished => .release () .idle
  | .panicked _ => .choose fun _ _ => False

/-- `log.lock` is held, also at the panic of `end_op`. -/
def Pc.lock : Pc → Option Unit
  | .panicked .logCommitting => some ()
  | .tryBegin | .wait | .admitted | .absorb _ | .logged | .leave | .endWake | .ended | .toCommit
  | .finish | .doneWake | .finished => some ()
  | _ => none

/-- `wakeup(&log)` is next. -/
def Pc.due (pc : Pc) (_ : Unit) : Prop := pc = .endWake ∨ pc = .doneWake

theorem disciplined {ι : Type*} : Disciplined (code (ι := ι)) Pc.lock where
  acquire p pc m k h := by cases pc <;> cases h <;> exact ⟨rfl, rfl⟩
  release p pc m k h := by cases pc <;> cases h <;> exact ⟨rfl, rfl⟩
  act p pc f h lg := by
    cases pc <;> cases h
    case tryBegin =>
      unfold tryBegin
      cases Logging.beginOp lg <;> rfl
    case logWrite b =>
      dsimp only
      cases h : logWriteCheck lg with
      | none => rfl
      | some msg => rcases logWriteCheck_some h with rfl | ⟨rfl, _⟩ <;> rfl
    case leave =>
      unfold leave
      split
      · rfl
      · rfl
      · next msg h =>
        rw [endOp_error h]
        rfl
    all_goals first | rfl | (dsimp only; split <;> rfl)
  choose p pc allowed h lg k hk := by
    cases pc <;> cases h
    case idle =>
      cases hk
      rfl
    case op => cases hk <;> rfl
    case panicked => exact hk.elim
  sleep p pc c m k h := by
    cases pc <;> cases h
    exact ⟨rfl, rfl⟩
  wakeup p pc c k h := by cases pc <;> cases h <;> rfl
  kill p pc q k h := by cases pc <;> cases h

theorem signals {ι : Type*} : Signals (code (ι := ι)) Pc.lock id Pc.due where
  wakeup p pc c k h := by cases pc <;> cases h <;> rfl
  due pc c h p := by rcases h with rfl | rfl <;> exact ⟨_, rfl⟩

/-- Counted in `outstanding`: from the admission by `begin_op` to the decrement
in `end_op`, also at a panic of `log_write`. -/
def Pc.counted : Pc → Bool
  | .panicked .tooBigATransaction => true
  | .admitted | .op | .logWrite _ | .logLock _ | .absorb _ | .logged | .endOp | .leave => true
  | _ => false

/-- Between the return of `begin_op` and the call of `end_op`. -/
def Pc.active : Pc → Bool
  | .op | .logWrite _ | .logLock _ | .absorb _ | .logged => true
  | _ => false

def Pc.logging : Pc → Bool
  | .logWrite _ | .logLock _ | .absorb _ | .logged => true
  | _ => false

/-- From `committing = 1` to `committing = 0`. -/
def Pc.committing : Pc → Bool
  | .toCommit | .commit | .writeLog _ | .writeHead | .installTrans _ | .clear | .eraseHead | .done
  | .finish => true
  | _ => false

/-- What `begin_op` waits for to end. -/
def Busy (_ : Unit) (lg : Log) : Prop :=
  lg.committing = true ∨ lg.lh.n + (lg.outstanding + 1) * MAXOPBLOCKS > LOGSIZE

theorem busy_iff (lg : Log) : Busy () lg ↔ Logging.beginOp lg = none := by
  unfold Busy Logging.beginOp
  by_cases hc : lg.committing = true
  · simp [hc]
  · simp [hc]

variable {ι : Type*}

/-- The state of the log and where the processes stand agree. -/
structure Consistent (lg : Log) (pts : ι → Pc) : Prop where
  count : ∃ ops : Finset ι, ops.card = lg.outstanding ∧ ∀ p, p ∈ ops ↔ (pts p).counted = true
  commit : ∀ p, (pts p).committing = true → lg.committing = true
  one : ∀ p q, (pts p).committing = true → (pts q).committing = true → p = q
  quiet : lg.committing = true → lg.outstanding = 0
  nodup : lg.lh.Nodup
  safe : ∀ p msg, pts p = .panicked msg → msg = .tooBigATransaction
  wait : ∀ p, pts p = .wait → Busy () lg

theorem Consistent.outstanding_pos {pts : ι → Pc} (h : Consistent lg pts) {p : ι}
    (hp : (pts p).counted = true) : 0 < lg.outstanding := by
  obtain ⟨ops, hcard, hops⟩ := h.count
  rw [← hcard]
  exact Int.natCast_pos.mpr (card_pos.mpr ⟨p, (hops p).mpr hp⟩)

theorem Consistent.not_committing {pts : ι → Pc} (h : Consistent lg pts) {p : ι}
    (hp : (pts p).counted = true) : lg.committing = false := by
  have hpos := h.outstanding_pos hp
  by_contra hc
  have hzero := h.quiet (by simpa using hc)
  omega

theorem count_update [DecidableEq ι] {n n' : Int} {pts : ι → Pc} {p : ι} {k : Pc}
    (h : ∃ ops : Finset ι, ops.card = n ∧ ∀ q, q ∈ ops ↔ (pts q).counted = true)
    (hn : n' + (pts p).counted.toNat = n + k.counted.toNat) :
    ∃ ops : Finset ι, ops.card = n' ∧ ∀ q, q ∈ ops ↔ (update pts p k q).counted = true := by
  obtain ⟨ops, hcard, hops⟩ := h
  have herase : ((ops.erase p).card : Int) + (pts p).counted.toNat = n := by
    cases hp : (pts p).counted with
    | true =>
      have hcount := card_erase_add_one ((hops p).mpr hp)
      rw [Bool.toNat_true]
      omega
    | false =>
      have hnot : p ∉ ops := fun hmem => by simp [(hops p).mp hmem] at hp
      rw [erase_eq_of_notMem hnot, hcard]
      exact Int.add_zero n
  have hmem (q : ι) (hq : q ≠ p) :
      q ∈ ops.erase p ↔ (update pts p k q).counted = true := by
    rw [update_of_ne hq, ← hops q]
    simp [hq]
  cases hk : k.counted with
  | true =>
    refine ⟨insert p (ops.erase p), ?_, fun q => ?_⟩
    · rw [card_insert_of_notMem (notMem_erase p ops)]
      rw [hk, Bool.toNat_true] at hn
      omega
    · by_cases hq : q = p
      · simp [hq, hk]
      · rw [← hmem q hq]
        simp [hq]
  | false =>
    refine ⟨ops.erase p, ?_, fun q => ?_⟩
    · rw [hk, Bool.toNat_false] at hn
      omega
    · by_cases hq : q = p
      · simp [hq, hk]
      · exact hmem q hq

/-- What a step of `p` to the point `k` has to establish. -/
structure Moves (lg lg' : Log) (pts : ι → Pc) (p : ι) (k : Pc) : Prop where
  count : lg'.outstanding + (pts p).counted.toNat = lg.outstanding + k.counted.toNat
  others : ∀ q, q ≠ p → (pts q).committing = true → lg'.committing = true
  commit : k.committing = true → lg'.committing = true ∧ ∀ q, q ≠ p → (pts q).committing = false
  quiet : lg'.committing = true → lg'.outstanding = 0
  nodup : lg'.lh.Nodup
  safe : ∀ msg, k = .panicked msg → msg = .tooBigATransaction
  wait : k = .wait → Busy () lg'
  waiting : ∀ q, q ≠ p → pts q = .wait → Busy () lg'

theorem Consistent.move [DecidableEq ι] {lg' : Log} {pts : ι → Pc} {p : ι} {k : Pc}
    (h : Consistent lg pts) (hm : Moves lg lg' pts p k) :
    Consistent lg' (update pts p k) where
  count := count_update h.count hm.count
  commit q hq := by
    by_cases hqp : q = p
    · rw [hqp, update_self] at hq
      exact (hm.commit hq).1
    · rw [update_of_ne hqp] at hq
      exact hm.others q hqp hq
  one q r hq hr := by
    by_cases hqp : q = p <;> by_cases hrp : r = p
    · rw [hqp, hrp]
    · rw [hqp, update_self] at hq
      rw [update_of_ne hrp] at hr
      rw [(hm.commit hq).2 r hrp] at hr
      cases hr
    · rw [hrp, update_self] at hr
      rw [update_of_ne hqp] at hq
      rw [(hm.commit hr).2 q hqp] at hq
      cases hq
    · rw [update_of_ne hqp] at hq
      rw [update_of_ne hrp] at hr
      exact h.one q r hq hr
  quiet := hm.quiet
  nodup := hm.nodup
  safe q msg hq := by
    by_cases hqp : q = p
    · rw [hqp, update_self] at hq
      exact hm.safe msg hq
    · rw [update_of_ne hqp] at hq
      exact h.safe q msg hq
  wait q hq := by
    by_cases hqp : q = p
    · rw [hqp, update_self] at hq
      exact hm.wait hq
    · rw [update_of_ne hqp] at hq
      exact hm.waiting q hqp hq

theorem Consistent.stay {pts : ι → Pc} {p : ι} {k : Pc} (h : Consistent lg pts)
    (hcounted : k.counted = (pts p).counted)
    (hcommit : k.committing = true → (pts p).committing = true)
    (hsafe : ∀ msg, k = .panicked msg → msg = .tooBigATransaction)
    (hwait : k = .wait → Busy () lg) : Moves lg lg pts p k where
  count := by rw [hcounted]
  others q _ := h.commit q
  commit hk := by
    refine ⟨h.commit p (hcommit hk), fun q hq => ?_⟩
    by_contra hc
    exact hq (h.one q p (by simpa using hc) (hcommit hk))
  quiet := h.quiet
  nodup := h.nodup
  safe := hsafe
  wait := hwait
  waiting q _ := h.wait q

abbrev GroupState (ι : Type*) := State ι Unit Unit Log Pc

theorem not_wait_of_lock {s : GroupState ι} (h : Locked code Pc.lock s) {p q : ι}
    (hp : (s.thread p).mode.holds Pc.lock = some ()) (hq : q ≠ p) : s.points q ≠ .wait := by
  intro hpoint
  refine hq (h.eq_of_points hp (by rw [hpoint]; rfl) fun pc c m hi => ?_)
  rw [hpoint] at hi
  cases pc <;> cases hi

theorem moves_tryBegin {lg' : Log} {pts : ι → Pc} {p : ι} (h : Consistent lg pts)
    (hp : pts p = .tryBegin) (hnowait : ∀ q, q ≠ p → pts q ≠ .wait)
    (hbegin : Logging.beginOp lg = some lg') : Moves lg lg' pts p .admitted := by
  obtain ⟨hoff, hroom, rfl⟩ := beginOp_some hbegin
  refine ⟨by rw [hp]; exact Int.add_zero _, fun q _ hq => ?_, nofun, fun hc => ?_, h.nodup, nofun,
    nofun, fun q hq hw => absurd hw (hnowait q hq)⟩
  · exact h.commit q hq
  · exact absurd (hoff.symm.trans hc) nofun

theorem moves_leave {pts : ι → Pc} {p : ι} (h : Consistent lg pts)
    (hp : pts p = .leave) (hnowait : ∀ q, q ≠ p → pts q ≠ .wait) :
    Moves lg (leave lg).1 pts p (leave lg).2 := by
  have hcounted : (pts p).counted = true := by rw [hp]; rfl
  have hpos := h.outstanding_pos hcounted
  have hoff := h.not_committing hcounted
  have hnone (q : ι) : (pts q).committing = false := by
    by_contra hc
    exact absurd ((h.commit q (by simpa using hc)).symm.trans hoff) nofun
  unfold leave
  split
  · next lg' hend =>
    obtain ⟨_, ⟨_, hlast, rfl⟩ | ⟨hfalse, _⟩⟩ := endOp_ok hend
    · refine ⟨?_, fun _ _ _ => rfl, fun _ => ⟨rfl, fun q _ => hnone q⟩, fun _ => hlast, h.nodup,
        nofun, nofun, fun _ _ _ => .inl rfl⟩
      rw [hcounted]
      change lg.outstanding - 1 + 1 = lg.outstanding + 0
      omega
    · cases hfalse
  · next lg' hend =>
    obtain ⟨_, ⟨htrue, _⟩ | ⟨_, hmore, rfl⟩⟩ := endOp_ok hend
    · cases htrue
    · refine ⟨?_, fun q _ hq => ?_, nofun, fun hc => ?_, h.nodup, nofun, nofun,
        fun q hq hw => absurd hw (hnowait q hq)⟩
      · rw [hcounted]
        change lg.outstanding - 1 + 1 = lg.outstanding + 0
        omega
      · rw [hnone q] at hq
        cases hq
      · exact absurd (hoff.symm.trans hc) nofun
  · next msg hend =>
    unfold Logging.endOp at hend
    simp only [hoff, Bool.false_eq_true, if_false] at hend
    split at hend <;> cases hend

theorem Consistent.step [DecidableEq ι] {s : GroupState ι} {p : ι} {pc k : Pc}
    (hlocked : Locked code Pc.lock s) (h : Consistent s.data s.points)
    (hmode : (s.thread p).mode = .run pc) (hgoes : Goes s.data (code p pc) lg k) :
    Consistent lg (update s.points p k) := by
  have hp : s.points p = pc := congrArg Mode.point hmode
  have hnowait (hlock : pc.lock = some ()) (q : ι) (hq : q ≠ p) : s.points q ≠ .wait :=
    not_wait_of_lock hlocked (by rw [hmode]; exact hlock) hq
  refine h.move ?_
  cases pc with
  | idle =>
    cases hgoes with
    | choose hk =>
      cases hk
      exact h.stay (by rw [hp]; rfl) nofun nofun nofun
  | op =>
    cases hgoes with
    | choose hk => cases hk <;> exact h.stay (by rw [hp]; rfl) nofun nofun nofun
  | panicked msg =>
    cases hgoes with
    | choose hk => exact hk.elim
  | tryBegin =>
    cases hgoes
    unfold tryBegin
    cases hbegin : Logging.beginOp s.data with
    | none =>
      exact h.stay (by rw [hp]; rfl) nofun nofun fun _ => (busy_iff _).mpr hbegin
    | some lg => exact moves_tryBegin h hp (hnowait rfl) hbegin
  | leave =>
    cases hgoes
    exact moves_leave h hp (hnowait rfl)
  | logWrite b =>
    cases hgoes
    dsimp only
    cases hcheck : logWriteCheck s.data with
    | none => exact h.stay (by rw [hp]; rfl) nofun nofun nofun
    | some msg =>
      have hpos := h.outstanding_pos (p := p) (by rw [hp]; rfl)
      rcases logWriteCheck_some hcheck with rfl | ⟨_, hout⟩
      · exact h.stay (by rw [hp]; rfl) nofun (fun _ hk => by cases hk; rfl) nofun
      · omega
  | absorb b =>
    cases hgoes
    refine ⟨by rw [hp]; rfl, fun q _ hq => h.commit q hq, nofun, h.quiet,
      LogHeader.nodup_absorb h.nodup b, nofun, nofun, fun q hq hw => absurd hw (hnowait rfl q hq)⟩
  | clear =>
    cases hgoes
    have hself : (s.points p).committing = true := by rw [hp]; rfl
    have hc := h.commit p hself
    refine ⟨by rw [hp]; rfl, fun _ _ _ => hc, fun _ => ⟨hc, fun q hq => ?_⟩, h.quiet, nofun, nofun,
      nofun, fun _ _ _ => .inl hc⟩
    by_contra hother
    exact hq (h.one q p (by simpa using hother) hself)
  | finish =>
    cases hgoes
    have hself : (s.points p).committing = true := by rw [hp]; rfl
    refine ⟨by rw [hp]; rfl, fun q hq hother => absurd (h.one q p hother hself) hq, nofun, nofun,
      h.nodup, nofun, nofun, fun q hq hw => absurd hw (hnowait rfl q hq)⟩
  | commit | writeLog tail | installTrans tail =>
    cases hgoes
    dsimp only
    split <;> exact h.stay (by rw [hp]; rfl) (fun _ => by rw [hp]; rfl) nofun nofun
  | _ =>
    cases hgoes
    exact h.stay (by rw [hp]; rfl) (by rw [hp]; exact id) nofun nofun

theorem busy_of_act {pts : ι → Pc} (h : Consistent lg pts) {p : ι} {f : Log → Log × Pc}
    (hi : code p (pts p) = .act f) (hc : Busy () lg) : Busy () (f lg).1 ∨ (f lg).2.due () := by
  cases hp : pts p <;> rw [hp] at hi <;> cases hi
  case tryBegin =>
    unfold tryBegin
    rw [(busy_iff lg).mp hc]
    exact .inl hc
  case absorb b =>
    refine .inl (hc.imp_right fun hfull => ?_)
    have hn := lg.lh.absorb_n b
    dsimp only
    omega
  case leave =>
    unfold leave
    split
    · next lg' hend =>
      obtain ⟨_, ⟨_, _, rfl⟩ | ⟨hfalse, _⟩⟩ := endOp_ok hend
      · exact .inl (Or.inl rfl)
      · cases hfalse
    · exact .inr (Or.inl rfl)
    · exact .inl hc
  case clear => exact .inl (Or.inl (h.commit p (by rw [hp]; rfl)))
  case finish => exact .inr (Or.inr rfl)
  all_goals exact .inl hc

theorem wakes {s : GroupState ι} (h : Consistent s.data s.points) : Wakes code Busy Pc.due s where
  sleep p pc c m k hmode hi := by
    cases pc <;> cases hi
    exact h.wait p (congrArg Mode.point hmode)
  act p pc f c hmode hi hc := by
    have hp : s.points p = pc := congrArg Mode.point hmode
    exact busy_of_act h (by rw [hp]; exact hi) hc

theorem consistent_init (start size : Nat) : Consistent (initlog start size) fun _ :
    ι => .idle where
  count := ⟨∅, rfl, fun p => by simp [Pc.counted]⟩
  commit _ hp := nomatch hp
  one _ _ hp := nomatch hp
  quiet _ := rfl
  nodup i j hi := absurd hi (Nat.not_lt_zero i)
  safe _ _ hp := nomatch hp
  wait _ hp := nomatch hp

theorem active_counted {pc : Pc} (h : pc.active = true) : pc.counted = true := by
  cases pc <;> first | rfl | cases h

theorem logging_active {pc : Pc} (h : pc.logging = true) : pc.active = true := by
  cases pc <;> first | rfl | cases h

/-- The protocol, in every state of every run after `initlog`. -/
theorem group_commit [DecidableEq ι] {start size : Nat} {s : GroupState ι}
    (hrun : ReflTransGen (State.Step code) (State.start (initlog start size) .idle) s) :
    (s.data.committing = true → s.data.outstanding = 0) ∧ (∀ p q, (s.points p).committing = true →
        (s.points q).logging = false ∧ (s.points q).active = false) ∧
      (∀ p, s.points p ≠ .panicked .logCommitting ∧
        s.points p ≠ .panicked .logWriteOutsideOfTrans) ∧
      s.data.lh.Nodup ∧
      (s.lock () = none → ∀ p, s.SleepsOn p () → s.data.committing = true ∨
        s.data.lh.n + (s.data.outstanding + 1) * MAXOPBLOCKS > LOGSIZE) := by
  obtain ⟨hlocked, h, hnoloss⟩ := noLoss_of_run disciplined signals Consistent
    (fun _ _ h => wakes h) (fun _ _ _ _ _ => Consistent.step) rfl (consistent_init start size) hrun
  have hquiet (p q : ι) (hp : (s.points p).committing = true) : (s.points q).active = false := by
    by_contra hq
    have hoff := h.not_committing (active_counted (by simpa using hq))
    exact absurd ((h.commit p hp).symm.trans hoff) nofun
  refine ⟨h.quiet, fun p q hp => ⟨?_, hquiet p q hp⟩, fun p => ⟨?_, ?_⟩, h.nodup,
    fun hfree p hsleeps => hnoloss.reason signals hlocked hfree hsleeps⟩
  · by_contra hq
    exact absurd ((hquiet p q hp).symm.trans (logging_active (by simpa using hq))) nofun
  · exact fun hpanic => nomatch h.safe p _ hpanic
  · exact fun hpanic => nomatch h.safe p _ hpanic

/-- An operation that has logged a block comes to its commit. -/
theorem group_commit_block : ∃ s : GroupState (Fin 2),
    ReflTransGen (State.Step code) (State.start (initlog 2 LOGSIZE) .idle) s ∧
      s.data.committing = true ∧ s.data.lh.n = 1 ∧ s.data.outstanding = 0 := by
  have hrun : ReflTransGen (State.Step code)
      (State.start (initlog 2 LOGSIZE) .idle : GroupState (Fin 2)) _ :=
    .head ⟨0, .choose rfl rfl rfl⟩ (.head ⟨0, .acquire rfl rfl rfl⟩ (.head ⟨0, .act rfl rfl⟩
      (.head ⟨0, .release rfl rfl⟩ (.head ⟨0, .choose rfl rfl (.logWrite 100)⟩
        (.head ⟨0, .act rfl rfl⟩ (.head ⟨0, .acquire rfl rfl rfl⟩ (.head ⟨0, .act rfl rfl⟩
          (.head ⟨0, .release rfl rfl⟩ (.head ⟨0, .choose rfl rfl .endOp⟩
            (.head ⟨0, .acquire rfl rfl rfl⟩ (.single ⟨0, .act rfl rfl⟩)))))))))))
  exact ⟨_, hrun, rfl, rfl, (group_commit hrun).1 rfl⟩

end GroupCommit

end Xv6.Logging

import Xv6.Logging.Model

/-!
The log as a machine that can lose power. A program counter says where
`commit` or `recover_from_log` stands; one `tick` runs to the next block
write and performs it. Between ticks other code may read blocks into the
cache and recycle clean buffers, and the power may fail, which leaves only
the disk.
-/

namespace Xv6.Logging

open Function

/-- Where the kernel stands inside `commit` or `recover_from_log`. -/
inductive Pc where
  | idle
  | writeLog (tail : Nat)
  | writeHead
  | installTrans (tail : Nat)
  | clearHead
  | readHead
  deriving DecidableEq, Repr

structure Machine where
  store : Store
  log : Log
  pc : Pc

namespace Machine

/-- The next step of `commit` or `recover_from_log`: at most one block write.
Both share the code from `install_trans` on. -/
def tick (m : Machine) : Machine :=
  match m.pc with
  | .idle => m
  | .writeLog tail =>
    if tail < m.log.lh.n then
      { m with store := writeLogIter m.log m.store tail, pc := .writeLog (tail + 1) }
    else { m with pc := .writeHead }
  | .writeHead => { m with store := writeHead m.log m.store, pc := .installTrans 0 }
  | .installTrans tail =>
    if tail < m.log.lh.n then
      { m with store := installIter m.log m.store tail, pc := .installTrans (tail + 1) }
    else { m with pc := .clearHead }
  | .clearHead => ⟨writeHead m.log.clear m.store, m.log.clear, .idle⟩
  | .readHead => ⟨(readHead m.log m.store).2, (readHead m.log m.store).1, .installTrans 0⟩

/-- `initlog` on a disk after power on. -/
def boot (start size : Nat) (d : Disk) : Machine :=
  ⟨Store.cold d, initlog start size, .readHead⟩

/-- A power failure keeps the disk and nothing else. -/
def crash (m : Machine) : Machine := boot m.log.start m.log.size m.store.disk

/-- What the kernel does next, on behalf of any process. -/
inductive Act where
  | beginOp
  | logWrite (b : Nat) (data : Block)
  | endOp
  | commitDone
  | tick
  | bread (b : Nat)
  | evict (b : Nat)

/-- The machine after an action, or `none` where the caller sleeps or the
kernel panics. While `commit` runs, `begin_op` sleeps and no operation is
outstanding, so the three calls below run outside it. -/
def step (m : Machine) : Act → Option Machine
  | .beginOp =>
    if m.pc = .idle then (beginOp m.log).map fun lg => { m with log := lg } else none
  | .logWrite b data =>
    if m.pc = .idle then
      match logWrite m.log b with
      | .ok lg => some { m with store := (m.store.bread b).2.pin b data, log := lg }
      | .error _ => none
    else none
  | .endOp =>
    if m.pc = .idle then
      match endOp m.log with
      | .ok (lg, true) =>
        some { m with log := lg, pc := if lg.lh.n > 0 then .writeLog 0 else .idle }
      | .ok (lg, false) => some { m with log := lg }
      | .error _ => none
    else none
  | .commitDone =>
    if m.pc = .idle ∧ m.log.committing then
      some { m with log := { m.log with committing := false } }
    else none
  | .tick => some m.tick
  | .bread b => some { m with store := (m.store.bread b).2 }
  | .evict b => some { m with store := m.store.evict b }

/-- Operations log home blocks only, and only an operation that has begun
calls `end_op`. -/
def Allowed (m : Machine) : Act → Prop
  | .logWrite b _ => ¬ m.log.InLog b
  | .endOp => 0 < m.log.outstanding
  | _ => True

/-- One step of the kernel, or a power failure. -/
inductive Step : Machine → Machine → Prop where
  | act {m m' : Machine} (a : Act) (hallowed : m.Allowed a) (hstep : m.step a = some m') : Step m m'
  | crash (m : Machine) : Step m m.crash

private theorem ticks_installTrans (lg : Log) (s : Store) (j : Nat) (hj : j ≤ lg.lh.n) :
    tick^[j] ⟨s, lg, .installTrans 0⟩ =
      ⟨(List.range j).foldl (installIter lg) s, lg, .installTrans j⟩ := by
  induction j with
  | zero => rfl
  | succ j ih =>
    rw [iterate_succ_apply', ih (by omega)]
    have hlt : j < lg.lh.n := by omega
    simp [tick, hlt, List.range_succ]

private theorem ticks_writeLog (lg : Log) (s : Store) (j : Nat) (hj : j ≤ lg.lh.n) :
    tick^[j] ⟨s, lg, .writeLog 0⟩ =
      ⟨(List.range j).foldl (writeLogIter lg) s, lg, .writeLog j⟩ := by
  induction j with
  | zero => rfl
  | succ j ih =>
    rw [iterate_succ_apply', ih (by omega)]
    have hlt : j < lg.lh.n := by omega
    simp [tick, hlt, List.range_succ]

/-- From `install_trans` on, both callers reach `idle` with the effect of the
source's remaining statements. -/
theorem ticks_from_install (lg : Log) (s : Store) : tick^[lg.lh.n + 2] ⟨s, lg, .installTrans 0⟩ =
      ⟨writeHead lg.clear (installTrans lg s), lg.clear, .idle⟩ := by
  rw [Nat.add_comm, iterate_add_apply, ticks_installTrans lg s lg.lh.n le_rfl]
  simp [tick, installTrans]

/-- The ticks after the end of a commit group are the block writes of
`commit`, all of them, in program order. -/
theorem ticks_commit (lg : Log) (s : Store) (hn : 0 < lg.lh.n) :
    tick^[2 * lg.lh.n + 4] ⟨s, lg, .writeLog 0⟩ = ⟨(commit lg s).2, (commit lg s).1, .idle⟩ := by
  have hsplit : 2 * lg.lh.n + 4 = (lg.lh.n + 2) + (2 + lg.lh.n) := by omega
  rw [hsplit, iterate_add_apply tick (lg.lh.n + 2), iterate_add_apply tick 2,
    ticks_writeLog lg s lg.lh.n le_rfl]
  have hmid : tick^[2] ⟨(List.range lg.lh.n).foldl (writeLogIter lg) s, lg, .writeLog lg.lh.n⟩ =
      ⟨writeHead lg (writeLog lg s), lg, .installTrans 0⟩ := by
    simp [tick, writeLog]
  rw [hmid, ticks_from_install]
  simp [commit, hn]

end Machine

end Xv6.Logging

import Xv6.Logging.Store
import Xv6.Param

/-!
The functions of `log.c`. The in-memory `struct log` is passed explicitly;
the loops of `write_log` and `install_trans` are cut into their iterations,
each of which issues exactly one block write, so that a crash can be placed
between any two of them.

`log.start` and `log.size` come from the superblock, which no kernel path
writes, so a reboot finds the same values.
-/

namespace Xv6.Logging

structure LogHeader where
  n : Nat
  block : Nat → Nat

structure Log where
  start : Nat
  size : Nat
  outstanding : Int
  committing : Bool
  lh : LogHeader

/-- The zeroed `struct log` after `initlog` has read the superblock. -/
def initlog (start size : Nat) : Log :=
  ⟨start, size, 0, false, ⟨0, fun _ => 0⟩⟩

namespace LogHeader

/-- The header block after `hb->n = n` and `hb->block[i] = block[i]` for the
first `n` entries. The words behind them keep their old contents. -/
def put (lh : LogHeader) (old : Block) : Block
  | 0 => lh.n
  | i + 1 => if i < lh.n then lh.block i else old (i + 1)

/-- `block[0..n)` as a set. -/
def Logged (lh : LogHeader) (b : Nat) : Prop := ∃ i < lh.n, lh.block i = b

/-- The loop of `log_write` that looks for `b`: its index, or `n`. -/
def find (lh : LogHeader) (b : Nat) : Nat :=
  ((List.range lh.n).find? (fun i => lh.block i == b)).getD lh.n

/-- Log absorption: an entry already there is rewritten, a new one appended. -/
def absorb (lh : LogHeader) (b : Nat) : LogHeader :=
  let i := lh.find b
  { n := if i = lh.n then lh.n + 1 else lh.n
    block := Function.update lh.block i b }

end LogHeader

/-- The blocks of the on-disk log: the header and the log blocks. -/
def Log.InLog (lg : Log) (b : Nat) : Prop := lg.start ≤ b ∧ b < lg.start + lg.size

inductive Panic where
  | tooBigATransaction
  | logWriteOutsideOfTrans
  | logCommitting
  deriving DecidableEq, Repr

/-- The admission test of `begin_op`. `none` means that the caller sleeps. -/
def beginOp (lg : Log) : Option Log :=
  if lg.committing then none
  else if lg.lh.n + (lg.outstanding + 1) * MAXOPBLOCKS > LOGSIZE then none
  else some { lg with outstanding := lg.outstanding + 1 }

/-- The part of `end_op` under `log.lock`. The flag says whether the caller
goes on to `commit`. -/
def endOp (lg : Log) : Except Panic (Log × Bool) :=
  let lg := { lg with outstanding := lg.outstanding - 1 }
  if lg.committing then .error .logCommitting
  else if lg.outstanding = 0 then .ok ({ lg with committing := true }, true)
  else .ok (lg, false)

/-- `log_write` on the in-memory header. -/
def logWrite (lg : Log) (b : Nat) : Except Panic Log :=
  if lg.lh.n ≥ LOGSIZE ∨ lg.lh.n ≥ lg.size - 1 then .error .tooBigATransaction
  else if lg.outstanding < 1 then .error .logWriteOutsideOfTrans
  else .ok { lg with lh := lg.lh.absorb b }

/-- One iteration of `write_log`: cache block to log block. -/
def writeLogIter (lg : Log) (s : Store) (tail : Nat) : Store :=
  let (_, s) := s.bread (lg.start + tail + 1)
  let (src, s) := s.bread (lg.lh.block tail)
  s.bwrite (lg.start + tail + 1) src.data

/-- One iteration of `install_trans`: log block to home block. -/
def installIter (lg : Log) (s : Store) (tail : Nat) : Store :=
  let (lbuf, s) := s.bread (lg.start + tail + 1)
  let (_, s) := s.bread (lg.lh.block tail)
  s.bwrite (lg.lh.block tail) lbuf.data

def writeHead (lg : Log) (s : Store) : Store :=
  let (buf, s) := s.bread lg.start
  s.bwrite lg.start (lg.lh.put buf.data)

def readHead (lg : Log) (s : Store) : Log × Store :=
  let (buf, s) := s.bread lg.start
  let n := buf.data 0
  ({ lg with lh := ⟨n, fun i => if i < n then buf.data (i + 1) else lg.lh.block i⟩ }, s)

def writeLog (lg : Log) (s : Store) : Store :=
  (List.range lg.lh.n).foldl (writeLogIter lg) s

def installTrans (lg : Log) (s : Store) : Store :=
  (List.range lg.lh.n).foldl (installIter lg) s

/-- `log.lh.n = 0`. -/
def Log.clear (lg : Log) : Log := { lg with lh := { lg.lh with n := 0 } }

def commit (lg : Log) (s : Store) : Log × Store :=
  if lg.lh.n > 0 then
    let s := writeLog lg s
    let s := writeHead lg s
    let s := installTrans lg s
    (lg.clear, writeHead lg.clear s)
  else (lg, s)

theorem beginOp_some {lg lg' : Log} (h : beginOp lg = some lg') :
    lg.committing = false ∧ lg.lh.n + (lg.outstanding + 1) * MAXOPBLOCKS ≤ LOGSIZE ∧
      lg' = { lg with outstanding := lg.outstanding + 1 } := by
  unfold beginOp at h
  split at h
  · cases h
  · next hcommitting =>
    split at h
    · cases h
    · next hroom =>
      cases h
      exact ⟨by simpa using hcommitting, Int.not_lt.mp hroom, rfl⟩

theorem logWrite_ok {lg lg' : Log} {b : Nat} (h : logWrite lg b = .ok lg') :
    lg.lh.n < LOGSIZE ∧ lg.lh.n < lg.size - 1 ∧ 1 ≤ lg.outstanding ∧
      lg' = { lg with lh := lg.lh.absorb b } := by
  unfold logWrite at h
  split at h
  · cases h
  · next hroom =>
    split at h
    · cases h
    · next hout =>
      cases h
      push Not at hroom
      exact ⟨hroom.1, hroom.2, Int.not_lt.mp hout, rfl⟩

theorem endOp_ok {lg lg' : Log} {last : Bool} (h : endOp lg = .ok (lg', last)) :
    lg.committing = false ∧ ((last = true ∧ lg.outstanding - 1 = 0 ∧
        lg' = { lg with outstanding := lg.outstanding - 1, committing := true }) ∨
       (last = false ∧ lg.outstanding - 1 ≠ 0 ∧
        lg' = { lg with outstanding := lg.outstanding - 1 })) := by
  unfold endOp at h
  by_cases hcommitting : lg.committing = true
  · simp [hcommitting] at h
  · have hoff : lg.committing = false := by simpa using hcommitting
    by_cases hlast : lg.outstanding - 1 = 0
    · simp only [hoff, hlast, if_true, Bool.false_eq_true, if_false, Except.ok.injEq,
        Prod.mk.injEq] at h
      obtain ⟨rfl, rfl⟩ := h
      exact ⟨hoff, .inl ⟨rfl, hlast, by simp only [hlast]⟩⟩
    · simp only [hoff, hlast, Bool.false_eq_true, if_false, Except.ok.injEq, Prod.mk.injEq] at h
      obtain ⟨rfl, rfl⟩ := h
      exact ⟨hoff, .inr ⟨rfl, hlast, by simp only [hoff]⟩⟩

theorem endOp_error {lg : Log} {p : Panic} (h : endOp lg = .error p) : p = .logCommitting := by
  unfold endOp at h
  by_cases hcommitting : lg.committing = true
  · simp only [hcommitting, if_true, Except.error.injEq] at h
    exact h.symm
  · by_cases hlast : lg.outstanding - 1 = 0 <;> simp [hcommitting, hlast] at h

/-- The only use of `log.size` in `log_write`. -/
theorem logWrite_tooBig_iff (lg : Log) (b : Nat) :
    logWrite lg b = .error .tooBigATransaction ↔ LOGSIZE ≤ lg.lh.n ∨ lg.size - 1 ≤ lg.lh.n := by
  unfold logWrite
  split
  · next hfull => simpa using hfull
  · next hroom =>
    split <;> simpa using hroom

theorem LogHeader.find_le (lh : LogHeader) (b : Nat) : lh.find b ≤ lh.n := by
  unfold LogHeader.find
  cases hfind : (List.range lh.n).find? (fun i => lh.block i == b) with
  | none => simp
  | some i =>
    have hi := List.mem_range.mp (List.mem_of_find?_eq_some hfind)
    simpa using hi.le

theorem LogHeader.block_find {lh : LogHeader} {b : Nat} (h : lh.find b < lh.n) :
    lh.block (lh.find b) = b := by
  unfold LogHeader.find at h ⊢
  cases hfind : (List.range lh.n).find? (fun i => lh.block i == b) with
  | none => simp [hfind] at h
  | some i =>
    have hi := List.find?_some hfind
    simpa using hi

theorem LogHeader.find_lt_of_logged {lh : LogHeader} {b : Nat} (h : lh.Logged b) :
    lh.find b < lh.n := by
  obtain ⟨i, hi, hb⟩ := h
  unfold LogHeader.find
  cases hfind : (List.range lh.n).find? (fun i => lh.block i == b) with
  | none =>
    rw [List.find?_eq_none] at hfind
    have hne := hfind i (List.mem_range.mpr hi)
    simp [hb] at hne
  | some j => simpa using List.mem_range.mp (List.mem_of_find?_eq_some hfind)

theorem LogHeader.logged_absorb (lh : LogHeader) (b c : Nat) :
    (lh.absorb b).Logged c ↔ c = b ∨ lh.Logged c := by
  rcases (lh.find_le b).lt_or_eq with hlt | heq
  · -- the block is there already: the update is the identity
    have hblock : Function.update lh.block (lh.find b) b = lh.block := by
      rw [Function.update_eq_self_iff, LogHeader.block_find hlt]
    have habsorb : lh.absorb b = lh := by
      simp only [LogHeader.absorb, hblock, hlt.ne, if_false]
    rw [habsorb]
    constructor
    · exact .inr
    · rintro (rfl | h)
      · exact ⟨lh.find c, hlt, LogHeader.block_find hlt⟩
      · exact h
  · have habsorb : lh.absorb b = ⟨lh.n + 1, Function.update lh.block lh.n b⟩ := by
      simp [LogHeader.absorb, heq]
    rw [habsorb]
    constructor
    · rintro ⟨i, hi, hic⟩
      rcases Nat.lt_succ_iff_lt_or_eq.mp hi with hi | rfl
      · exact .inr ⟨i, hi, by simpa [Function.update_of_ne hi.ne] using hic⟩
      · exact .inl (by simpa using hic.symm)
    · rintro (rfl | ⟨i, hi, hic⟩)
      · exact ⟨lh.n, Nat.lt_succ_self _, by simp⟩
      · exact ⟨i, Nat.lt_succ_of_lt hi, by simpa [Function.update_of_ne hi.ne] using hic⟩

theorem LogHeader.absorb_n (lh : LogHeader) (b : Nat) : ((lh.absorb b).n = lh.n ∧ lh.Logged b) ∨
      ((lh.absorb b).n = lh.n + 1 ∧ ¬ lh.Logged b) := by
  rcases (lh.find_le b).lt_or_eq with hlt | heq
  · exact .inl ⟨by simp [LogHeader.absorb, hlt.ne], lh.find b, hlt, LogHeader.block_find hlt⟩
  · refine .inr ⟨by simp [LogHeader.absorb, heq], ?_⟩
    intro h
    exact absurd (LogHeader.find_lt_of_logged h) (by omega)

/-- The entries of a header are pairwise distinct. -/
def LogHeader.Nodup (lh : LogHeader) : Prop :=
  ∀ i j, i < lh.n → j < lh.n → lh.block i = lh.block j → i = j

theorem LogHeader.nodup_absorb {lh : LogHeader} (h : lh.Nodup) (b : Nat) : (lh.absorb b).Nodup := by
  rcases (lh.find_le b).lt_or_eq with hlt | heq
  · have hblock : Function.update lh.block (lh.find b) b = lh.block := by
      rw [Function.update_eq_self_iff, LogHeader.block_find hlt]
    have habsorb : lh.absorb b = lh := by
      simp only [LogHeader.absorb, hblock, hlt.ne, if_false]
    rwa [habsorb]
  · have hfresh (i : Nat) (hi : i < lh.n) : lh.block i ≠ b := fun hb =>
      absurd (LogHeader.find_lt_of_logged ⟨i, hi, hb⟩) (by omega)
    have habsorb : lh.absorb b = ⟨lh.n + 1, Function.update lh.block lh.n b⟩ := by
      simp [LogHeader.absorb, heq]
    rw [habsorb]
    intro i j hi hj hij
    simp only at hi hj hij
    rcases Nat.lt_succ_iff_lt_or_eq.mp hi with hi | rfl <;>
      rcases Nat.lt_succ_iff_lt_or_eq.mp hj with hj | rfl
    · rw [Function.update_of_ne hi.ne, Function.update_of_ne hj.ne] at hij
      exact h i j hi hj hij
    · rw [Function.update_of_ne hi.ne, Function.update_self] at hij
      exact absurd hij (hfresh i hi)
    · rw [Function.update_self, Function.update_of_ne hj.ne] at hij
      exact absurd hij.symm (hfresh j hj)
    · rfl

end Xv6.Logging

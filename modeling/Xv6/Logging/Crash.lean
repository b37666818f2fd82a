import Xv6.Lib.Transition
import Xv6.Logging.Machine

/-!
Crash atomicity of the log. The invariant relates the on-disk header, the log
blocks, the cache and the home blocks at every block write of `commit` and of
`recover_from_log`. It carries two disks: the home blocks before the commit
group and after it. Until the header write the disk still shows the first;
from the header write on, the header and the log blocks determine the second,
whatever part of it has been installed, so installing again is harmless.
-/

namespace Xv6.Logging

open Relation Function Store

/-- The two disks have the same home blocks. -/
def HomeEq (lg : Log) (d d' : Disk) : Prop := ∀ b, ¬ lg.InLog b → d b = d' b

/-- A header that `log_write` can build: it fits into the log, has no repeated
block and names home blocks only. -/
structure HeaderOk (lg : Log) (lh : LogHeader) : Prop where
  room : lh.n < lg.size
  nodup : lh.Nodup
  home : ∀ b, lh.Logged b → ¬ lg.InLog b

/-- The disk holds the committed group `lh`: reading the header gives `lh`,
each log block holds what the home block is to become, and every other home
block already is what it should be. With `lh.n = 0` the log is empty. -/
structure Committed (lg : Log) (lh : LogHeader) (target d : Disk) : Prop where
  ok : HeaderOk lg lh
  count : d lg.start 0 = lh.n
  entries : ∀ i < lh.n, d lg.start (i + 1) = lh.block i
  copies : ∀ i < lh.n, d (lg.start + i + 1) = target (lh.block i)
  rest : ∀ b, ¬ lg.InLog b → ¬ lh.Logged b → d b = target b

/-- A disk from which recovery produces `target`. -/
def Recoverable (lg : Log) (target d : Disk) : Prop := ∃ lh, Committed lg lh target d

/-- No commit is running: the log on disk is empty, and exactly the logged
blocks are pinned. -/
structure Quiet (lg : Log) (s : Store) : Prop where
  ok : HeaderOk lg lg.lh
  coherent : s.Coherent
  empty : s.disk lg.start 0 = 0
  dirty : ∀ b, s.Dirty b ↔ lg.lh.Logged b

/-- Inside `write_log`, with `tail` blocks copied. -/
structure Copying (pre post : Disk) (tail : Nat) (lg : Log) (s : Store) : Prop where
  quiet : Quiet lg s
  before : HomeEq lg s.disk pre
  copied : ∀ i < tail, s.disk (lg.start + i + 1) = post (lg.lh.block i)
  cached : ∀ i < lg.lh.n, s.view (lg.lh.block i) = post (lg.lh.block i)
  rest : ∀ b, ¬ lg.InLog b → ¬ lg.lh.Logged b → pre b = post b

/-- Inside `install_trans`, with `tail` blocks installed. Only blocks still to
be installed can be dirty. -/
structure Installing (target : Disk) (tail : Nat) (lg : Log) (s : Store) : Prop where
  committed : Committed lg lg.lh target s.disk
  coherent : s.Coherent
  dirty : ∀ b, s.Dirty b → ∃ i, tail ≤ i ∧ i < lg.lh.n ∧ lg.lh.block i = b
  installed : ∀ i < tail, i < lg.lh.n → s.disk (lg.lh.block i) = target (lg.lh.block i)

/-- The log is empty and the home blocks are those of `target`. -/
structure Clean (target : Disk) (lg : Log) (s : Store) : Prop where
  quiet : Quiet lg s
  none : lg.lh.n = 0
  home : HomeEq lg s.disk target

/-- One of the two disks a crash may leave. -/
def OneOf (pre post target : Disk) : Prop := target = pre ∨ target = post

/-- The invariant of the machine while a commit group that takes the home
blocks from `pre` to `post` is being committed or recovered. -/
def Inv (pre post : Disk) (m : Machine) : Prop :=
  match m.pc with
  | .idle => ∃ target, OneOf pre post target ∧ Clean target m.log m.store
  | .writeLog tail => Copying pre post tail m.log m.store
  | .writeHead => Copying pre post m.log.lh.n m.log m.store
  | .installTrans tail => ∃ target, OneOf pre post target ∧ Installing target tail m.log m.store
  | .clearHead => ∃ target, OneOf pre post target ∧ Installing target m.log.lh.n m.log m.store
  | .readHead => ∃ target, OneOf pre post target ∧ Recoverable m.log target m.store.disk ∧
      m.store.Coherent ∧ ∀ b, ¬ m.store.Dirty b

/-- The same home blocks, buffers in use and pins: what a `bread` by other
code or the recycling of a buffer leaves unchanged. -/
structure SameView (s s' : Store) : Prop where
  disk : s'.disk = s.disk
  view : s'.view = s.view
  dirty : ∀ b, s'.Dirty b ↔ s.Dirty b
  coherent : s'.Coherent

variable {s s' : Store} {lg : Log} {pre post target : Disk} {tail : Nat} {m : Machine}

theorem Quiet.of_sameView (h : Quiet lg s) (hs : SameView s s') : Quiet lg s' :=
  ⟨h.ok, hs.coherent, by rw [hs.disk]; exact h.empty, fun b => (hs.dirty b).trans (h.dirty b)⟩

theorem Copying.of_sameView (h : Copying pre post tail lg s) (hs : SameView s s') :
    Copying pre post tail lg s' where
  quiet := h.quiet.of_sameView hs
  before := by rw [hs.disk]; exact h.before
  copied := by rw [hs.disk]; exact h.copied
  cached := by rw [hs.view]; exact h.cached
  rest := h.rest

theorem Installing.of_sameView (h : Installing target tail lg s) (hs : SameView s s') :
    Installing target tail lg s' where
  committed := by rw [hs.disk]; exact h.committed
  coherent := hs.coherent
  dirty := fun b hb => h.dirty b ((hs.dirty b).mp hb)
  installed := by rw [hs.disk]; exact h.installed

theorem Clean.of_sameView (h : Clean target lg s) (hs : SameView s s') : Clean target lg s' :=
  ⟨h.quiet.of_sameView hs, h.none, by rw [hs.disk]; exact h.home⟩

theorem Inv.coherent (h : Inv pre post m) : m.store.Coherent := by
  unfold Inv at h
  split at h
  · obtain ⟨_, _, h⟩ := h
    exact h.quiet.coherent
  · exact h.quiet.coherent
  · exact h.quiet.coherent
  · obtain ⟨_, _, h⟩ := h
    exact h.coherent
  · obtain ⟨_, _, h⟩ := h
    exact h.coherent
  · obtain ⟨_, _, _, h, _⟩ := h
    exact h

theorem Inv.of_sameView (h : Inv pre post m)
    (hs : SameView m.store s') : Inv pre post { m with store := s' } := by
  obtain ⟨s, lg, pc⟩ := m
  cases pc with
  | idle =>
    obtain ⟨target, hone, h⟩ := h
    exact ⟨target, hone, h.of_sameView hs⟩
  | writeLog tail => exact Copying.of_sameView h hs
  | writeHead => exact Copying.of_sameView h hs
  | installTrans tail =>
    obtain ⟨target, hone, h⟩ := h
    exact ⟨target, hone, h.of_sameView hs⟩
  | clearHead =>
    obtain ⟨target, hone, h⟩ := h
    exact ⟨target, hone, h.of_sameView hs⟩
  | readHead =>
    obtain ⟨target, hone, hrec, _, hclean⟩ := h
    refine ⟨target, hone, ?_, hs.coherent, fun b hb => hclean b ((hs.dirty b).mp hb)⟩
    simpa only [hs.disk] using hrec

/-! One lemma for each block write. -/

theorem Installing.home (h : Installing target lg.lh.n lg s) : HomeEq lg s.disk target := by
  intro b hb
  by_cases hlogged : lg.lh.Logged b
  · obtain ⟨i, hi, rfl⟩ := hlogged
    exact h.installed i hi hi
  · exact h.committed.rest b hb hlogged

end Xv6.Logging

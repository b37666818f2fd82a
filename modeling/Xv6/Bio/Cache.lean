import Mathlib.Algebra.GroupWithZero.Nat
import Xv6.Disk.Ide
import Xv6.Lib.LinkedList

/-!
The buffer cache of `bio.c`. Any number of processes call `bread`, change the
buffers they hold, pass them to `log_write` or `bwrite`, and give them back
with `brelse`. A commit of the log is such a process: `write_log`, `write_head`
and `install_trans` read blocks, copy bytes between buffers they hold, call
`bwrite` and release.

A step is what a process does between two points at which another one can see
a difference: a critical section of `bcache.lock`, taking or releasing the
sleep lock of a buffer, a request to the disk. Beside the cache a history is
kept of what was stored in blocks and of when buffers were released.
-/

namespace Xv6.Bio

open Lib Relation Function

theorem nbuf_ne_zero : NBUF ≠ 0 := by decide

instance : NeZero NBUF := ⟨nbuf_ne_zero⟩

abbrev BufIdx := Fin NBUF

/-- `struct buf`; `δ` is the type of a block's contents. -/
structure Buf (δ : Type*) extends Disk.Buf δ where
  dev : Nat
  refcnt : Nat

variable {τ δ : Type*}

/-- `b->dev == dev && b->blockno == blockno` -/
def Buf.isBlock (x : Buf δ) (dev blockno : Nat) : Bool := x.dev == dev && x.blockno == blockno

/-- A buffer that `bget` may recycle. -/
def Buf.free (x : Buf δ) : Bool := x.refcnt == 0 && !x.dirty

structure Store (δ : Type*) where
  dev : Nat
  blockno : Nat
  data : δ

/-- The cache and the disks, with their history. -/
structure Cache (τ δ : Type*) where
  buf : BufIdx → Buf δ
  /-- the holder of `b->lock` -/
  owner : BufIdx → Option τ
  links : Links BufIdx
  disk : Nat → Nat → δ
  /-- what holders stored, the latest first -/
  stores : List (Store δ)
  /-- the holder has changed the bytes and not yet called `log_write` or `bwrite` -/
  unsaved : BufIdx → Bool
  /-- the number of calls of `brelse` so far, and the last ones for a buffer: any, and one
  that left it unreferenced -/
  clock : Nat
  releasedAt : BufIdx → Nat
  freedAt : BufIdx → Nat

/-- The bytes stored last in a block, or those of the disk at the start. -/
def latest (disk : Nat → Nat → δ) (stores : List (Store δ)) (dev blockno : Nat) : δ :=
  (stores.find? fun w => w.dev == dev && w.blockno == blockno).elim (disk dev blockno) Store.data

namespace Cache

def setBuf (c : Cache τ δ) (b : BufIdx) (x : Buf δ) : Cache τ δ :=
  { c with buf := update c.buf b x }

def binit : Links BufIdx := (List.finRange NBUF).foldl Links.pushFront .empty

/-- The critical section of `bget`: the buffer for the block, `none` for the panic. -/
def bget (c : Cache τ δ) (dev blockno : Nat) : Option (BufIdx × Cache τ δ) :=
  match Links.search c.links.next (fun b => (c.buf b).isBlock dev blockno) NBUF (c.links.next none) with
  | some b => some (b, c.setBuf b { c.buf b with refcnt := (c.buf b).refcnt + 1 })
  | none =>
    match Links.search c.links.prev (fun b => (c.buf b).free) NBUF (c.links.prev none) with
    | some b => some (b, c.setBuf b { c.buf b with
        dev := dev, blockno := blockno, valid := false, dirty := false, refcnt := 1 })
    | none => none

def setOwner (c : Cache τ δ) (b : BufIdx) (p : Option τ) : Cache τ δ :=
  { c with owner := update c.owner b p }

/-- `iderw`, as the memory disk serves it. -/
def iderw (c : Cache τ δ) (b : BufIdx) : Cache τ δ :=
  let r := Disk.memIderw (c.disk (c.buf b).dev) (c.buf b).toBuf
  { c.setBuf b { c.buf b with toBuf := r.2 } with
    disk := update c.disk (c.buf b).dev r.1 }

/-- The rest of `bread`, with the buffer locked. -/
def bread (c : Cache τ δ) (b : BufIdx) : Cache τ δ := if (c.buf b).valid then c else c.iderw b

def modify (c : Cache τ δ) (b : BufIdx) (data : δ) : Cache τ δ :=
  { c.setBuf b { c.buf b with data := data } with
    stores := ⟨(c.buf b).dev, (c.buf b).blockno, data⟩ :: c.stores
    unsaved := update c.unsaved b true }

/-- `b->flags |= B_DIRTY` in `log_write` and `bwrite`. -/
def setDirty (c : Cache τ δ) (b : BufIdx) : Cache τ δ :=
  c.setBuf b { c.buf b with dirty := true }

def save (c : Cache τ δ) (b : BufIdx) : Cache τ δ :=
  { c with unsaved := update c.unsaved b false }

def brelse (c : Cache τ δ) (b : BufIdx) : Cache τ δ :=
  let refcnt := (c.buf b).refcnt - 1
  let c' := { c.setBuf b { c.buf b with refcnt := refcnt } with
    clock := c.clock + 1
    releasedAt := update c.releasedAt b c.clock }
  if refcnt = 0 then
    { c' with
      links := (c.links.unlink b).pushFront b
      freedAt := update c.freedAt b c.clock }
  else c'

end Cache

inductive Pc where
  /-- outside, or in code that works on the buffers it holds -/
  | idle
  /-- in `bget` behind the critical section, before the lock of the buffer -/
  | wait (b : BufIdx) (dev blockno : Nat)
  /-- in `bread` with the buffer locked -/
  | fill (b : BufIdx) (dev blockno : Nat)
  /-- in `bwrite`, before `iderw` -/
  | write (b : BufIdx)
  /-- in `brelse` behind `releasesleep` -/
  | drop (b : BufIdx)
  | panicked
deriving DecidableEq

structure State (τ δ : Type*) where
  cache : Cache τ δ
  pc : τ → Pc

namespace State

/-- The calls that a process has in hand and what it does with its buffers. -/
inductive StepOf [DecidableEq τ] (s : State τ δ) (p : τ) : State τ δ → Prop where
  | bget {dev blockno b c} (hpc : s.pc p = .idle) (hget : s.cache.bget dev blockno = some (b, c)) :
      StepOf s p ⟨c, update s.pc p (.wait b dev blockno)⟩
  | panic {dev blockno} (hpc : s.pc p = .idle) (hget : s.cache.bget dev blockno = none) :
      StepOf s p ⟨s.cache, update s.pc p .panicked⟩
  | acquiresleep {b dev blockno} (hpc : s.pc p = .wait b dev blockno)
      (hfree : s.cache.owner b = none) :
      StepOf s p ⟨s.cache.setOwner b (some p), update s.pc p (.fill b dev blockno)⟩
  | bread {b dev blockno} (hpc : s.pc p = .fill b dev blockno) :
      StepOf s p ⟨s.cache.bread b, update s.pc p .idle⟩
  | modify {b} (data : δ) (hpc : s.pc p = .idle) (hheld : s.cache.owner b = some p) :
      StepOf s p ⟨s.cache.modify b data, s.pc⟩
  | logWrite {b} (hpc : s.pc p = .idle) (hheld : s.cache.owner b = some p) :
      StepOf s p ⟨(s.cache.setDirty b).save b, s.pc⟩
  | bwrite {b} (hpc : s.pc p = .idle) (hheld : s.cache.owner b = some p) :
      StepOf s p ⟨s.cache.setDirty b, update s.pc p (.write b)⟩
  | iderw {b} (hpc : s.pc p = .write b) :
      StepOf s p ⟨(s.cache.iderw b).save b, update s.pc p .idle⟩
  | releasesleep {b} (hpc : s.pc p = .idle) (hheld : s.cache.owner b = some p)
      (hsaved : s.cache.unsaved b = false) :
      StepOf s p ⟨s.cache.setOwner b none, update s.pc p (.drop b)⟩
  | brelse {b} (hpc : s.pc p = .drop b) :
      StepOf s p ⟨s.cache.brelse b, update s.pc p .idle⟩

def Step [DecidableEq τ] (s t : State τ δ) : Prop := ∃ p, StepOf s p t

end State

/-- What a process does next: a new call, or the next step of the one it is in. -/
inductive Call (δ : Type*) where
  | bread (dev blockno : Nat)
  | modify (b : BufIdx) (data : δ)
  | logWrite (b : BufIdx)
  | bwrite (b : BufIdx)
  | brelse (b : BufIdx)
  | resume

namespace State

/-- The steps as a function, `none` for a call that the process cannot make. -/
def next [DecidableEq τ] (s : State τ δ) (p : τ) : Call δ → Option (State τ δ)
  | .bread dev blockno =>
    if s.pc p = .idle then
      some ((s.cache.bget dev blockno).elim ⟨s.cache, update s.pc p .panicked⟩
        fun r => ⟨r.2, update s.pc p (.wait r.1 dev blockno)⟩)
    else none
  | .modify b data =>
    if s.pc p = .idle ∧ s.cache.owner b = some p then some ⟨s.cache.modify b data, s.pc⟩ else none
  | .logWrite b =>
    if s.pc p = .idle ∧ s.cache.owner b = some p then some ⟨(s.cache.setDirty b).save b, s.pc⟩
    else none
  | .bwrite b =>
    if s.pc p = .idle ∧ s.cache.owner b = some p then
      some ⟨s.cache.setDirty b, update s.pc p (.write b)⟩
    else none
  | .brelse b =>
    if s.pc p = .idle ∧ s.cache.owner b = some p ∧ s.cache.unsaved b = false then
      some ⟨s.cache.setOwner b none, update s.pc p (.drop b)⟩
    else none
  | .resume =>
    match s.pc p with
    | .wait b dev blockno =>
      if s.cache.owner b = none then
        some ⟨s.cache.setOwner b (some p), update s.pc p (.fill b dev blockno)⟩
      else none
    | .fill b _ _ => some ⟨s.cache.bread b, update s.pc p .idle⟩
    | .write b => some ⟨(s.cache.iderw b).save b, update s.pc p .idle⟩
    | .drop b => some ⟨s.cache.brelse b, update s.pc p .idle⟩
    | .idle | .panicked => none

def run [DecidableEq τ] (s : State τ δ) (calls : List (τ × Call δ)) : Option (State τ δ) :=
  calls.foldlM (fun s call => s.next call.1 call.2) s

/-- After `binit`: zeroed buffers, and the pointers as set up. A buffer that was
never released counts as released when `binit` linked it. -/
def init (disk : Nat → Nat → δ) (data : BufIdx → δ) : State τ δ where
  cache := {
    buf := fun b => ⟨⟨false, false, 0, data b⟩, 0, 0⟩
    owner := fun _ => none
    links := Cache.binit
    disk := disk
    stores := []
    unsaved := fun _ => false
    clock := NBUF
    releasedAt := fun b => b
    freedAt := fun b => b }
  pc := fun _ => .idle

end State

end Xv6.Bio

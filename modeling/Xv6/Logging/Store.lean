import Mathlib.Tactic

/-!
The disk under the log and the buffer cache over it, as `log.c` uses them
through `bread`, `bwrite` and `brelse`. A block is its sequence of 32-bit
words: `log.c` overlays `struct logheader` on word 0 (`n`) and on the words
after it (`block[]`), and copies whole blocks otherwise.

Recycling of a buffer by `bget` is the separate operation `evict`, which can
happen to any buffer without `B_DIRTY` between two operations.
-/

namespace Xv6.Logging

open Function

abbrev Block := Nat → Nat

abbrev Disk := Nat → Block

/-- A valid buffer (`B_VALID`) with its `B_DIRTY` flag. -/
structure Buf where
  data : Block
  dirty : Bool

/-- The disk and the valid buffers, by block number. -/
structure Store where
  disk : Disk
  cache : Nat → Option Buf

namespace Store

def bread (s : Store) (b : Nat) : Buf × Store :=
  match s.cache b with
  | some buf => (buf, s)
  | none =>
    let buf : Buf := ⟨s.disk b, false⟩
    (buf, { s with cache := update s.cache b (some buf) })

/-- `bwrite` sets `B_DIRTY` and calls `iderw`, which writes the block and
leaves the buffer valid and clean. -/
def bwrite (s : Store) (b : Nat) (data : Block) : Store where
  disk := update s.disk b data
  cache := update s.cache b (some ⟨data, false⟩)

/-- The caller has changed a buffer it holds and `log_write` pins it. -/
def pin (s : Store) (b : Nat) (data : Block) : Store :=
  { s with cache := update s.cache b (some ⟨data, true⟩) }

/-- `bget` recycles a buffer, never one with `B_DIRTY`. -/
def evict (s : Store) (b : Nat) : Store :=
  match s.cache b with
  | some ⟨_, false⟩ => { s with cache := update s.cache b none }
  | _ => s

/-- The bytes that `bread` of a block returns. -/
def view (s : Store) (b : Nat) : Block := (s.bread b).1.data

def Dirty (s : Store) (b : Nat) : Prop := ∃ buf, s.cache b = some buf ∧ buf.dirty = true

/-- A clean buffer holds what the disk holds. -/
def Coherent (s : Store) : Prop :=
  ∀ b buf, s.cache b = some buf → buf.dirty = false → buf.data = s.disk b

/-- A machine that has just been switched on has an empty cache. -/
def cold (d : Disk) : Store := ⟨d, fun _ => none⟩

theorem view_eq (s : Store) (b : Nat) : s.view b = match s.cache b with
      | some buf => buf.data
      | none => s.disk b := by
  unfold view bread
  cases s.cache b <;> rfl

@[simp] theorem bread_data (s : Store) (b : Nat) : (s.bread b).1.data = s.view b := rfl

@[simp] theorem bread_view (s : Store) (b c : Nat) : (s.bread b).2.view c = s.view c := by
  rw [view_eq, view_eq, bread]
  cases hb : s.cache b with
  | some buf => rfl
  | none =>
    by_cases hcb : c = b
    · subst hcb
      simp [hb]
    · simp [update_of_ne hcb]

@[simp] theorem bwrite_view (s : Store) (b : Nat) (data : Block) :
    (s.bwrite b data).view = update s.view b data := by
  funext c
  by_cases hcb : c = b
  · subst hcb
    simp [view_eq, bwrite]
  · simp [view_eq, bwrite, update_of_ne hcb]

@[simp] theorem pin_disk (s : Store) (b : Nat) (data : Block) :
    (s.pin b data).disk = s.disk := rfl

end Store

end Xv6.Logging

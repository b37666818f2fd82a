import Mathlib.Tactic

/-!
Arguments of system calls. The user's stack pointer is in the trap frame, the
arguments lie above the return address, and every check is against the size
of the caller, in 32-bit arithmetic that may wrap.
-/

namespace Xv6.Syscall

abbrev Word := BitVec 32

/-- What `syscall.c` reads of the calling process: its size, the saved stack
pointer and the bytes of its memory. -/
structure User where
  sz : Word
  esp : Word
  mem : Word → BitVec 8

namespace User

def word (u : User) (addr : Word) : Word :=
  u.mem (addr + 3) ++ u.mem (addr + 2) ++ u.mem (addr + 1) ++ u.mem addr

/-- `fetchint`; `none` for -1. -/
def fetchint (u : User) (addr : Word) : Option Word :=
  if u.sz ≤ addr ∨ u.sz < addr + 4 then none else some (u.word addr)

def argint (u : User) (n : Nat) : Option Word := u.fetchint (u.esp + 4 + 4 * BitVec.ofNat 32 n)

def argptr (u : User) (n : Nat) (size : Word) : Option Word := do
  let i ← u.argint n
  if size.toInt < 0 ∨ u.sz ≤ i ∨ u.sz < i + size then none else some i

/-- The block lies in the caller's memory: what `argptr` checks, in arithmetic that may
wrap, for a size that is not negative. -/
def Within (u : User) (addr : Word) (size : Nat) : Prop :=
  addr < u.sz ∧ addr + BitVec.ofNat 32 size ≤ u.sz

instance (u : User) (addr : Word) (size : Nat) : Decidable (u.Within addr size) := by
  unfold Within
  infer_instance

/-- `argptr` for an `int`. -/
theorem argptr_four (u : User) (n : Nat) :
    u.argptr n 4 = (u.argint n).bind fun i => if u.Within i 4 then some i else none := by
  unfold argptr
  rw [Option.bind_eq_bind]
  congr 1
  funext i
  have hsize : ¬ (4 : Word).toInt < 0 := by decide
  by_cases hin : u.Within i 4
  · rw [if_pos hin, if_neg]
    rintro (h | h | h)
    · exact hsize h
    · exact BitVec.not_le.mpr hin.1 h
    · exact BitVec.not_lt.mpr hin.2 h
  · rw [if_neg hin, if_pos]
    by_contra hok
    simp only [not_or, BitVec.not_le, BitVec.not_lt] at hok
    exact hin hok.2

theorem argint_some {u : User} {n : Nat} {v : Word} (h : u.argint n = some v) :
    u.esp + 4 + 4 * BitVec.ofNat 32 n < u.sz ∧ u.esp + 4 + 4 * BitVec.ofNat 32 n + 4 ≤ u.sz := by
  unfold argint fetchint at h
  split at h
  · cases h
  · next hok =>
    obtain ⟨hlt, hle⟩ := not_or.mp hok
    exact ⟨BitVec.not_le.mp hlt, BitVec.not_lt.mp hle⟩

theorem sz_of_two_args {u : User} {v w : Word} (hv : u.argint 0 = some v)
    (hw : u.argint 1 = some w) : 8 ≤ u.sz := by
  have h0 := argint_some hv
  have h1 := argint_some hw
  simp only [BitVec.lt_def, BitVec.le_def, BitVec.toNat_add, BitVec.toNat_mul,
    BitVec.toNat_ofNat] at h0 h1 ⊢
  have h4 : (4 : Word).toNat = 4 := rfl
  have h8 : (8 : Word).toNat = 8 := rfl
  rw [h4] at h0 h1
  rw [h8]
  have hesp := u.esp.isLt
  omega

end User

end Xv6.Syscall

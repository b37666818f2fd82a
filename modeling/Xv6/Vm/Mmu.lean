import Mathlib.Tactic
import Xv6.Param

/-!
Addresses and the constants of `mmu.h` and `memlayout.h`. Addresses are
natural numbers; `uint` arithmetic is reduced modulo `2 ^ 32` where the code
can wrap around. The linker symbols `data` and `end` are a parameter, with
what `kernel.ld` says about them.
-/

namespace Xv6.Vm

def PGSIZE : Nat := 4096
def EXTMEM : Nat := 0x100000
def PHYSTOP : Nat := 0xE000000
def DEVSPACE : Nat := 0xFE000000
def KERNBASE : Nat := 0x80000000
def KERNLINK : Nat := KERNBASE + EXTMEM
-- irreducible: elaboration would otherwise evaluate sums over it
@[irreducible]
def NPDENTRIES : Nat := 1024

/-- A value stored in a `uint`. -/
def u32 (n : Nat) : Nat := n % 2 ^ 32

def sub32 (a b : Nat) : Nat := u32 (a + (2 ^ 32 - b))

def PDX (va : Nat) : Nat := va / 2 ^ 22 % 1024
def PTX (va : Nat) : Nat := va / 2 ^ 12 % 1024
def PGADDR (d t o : Nat) : Nat := u32 (d * 2 ^ 22 + t * 2 ^ 12 + o)
def PGROUNDUP (sz : Nat) : Nat := u32 (sz + PGSIZE - 1) / PGSIZE * PGSIZE
def PGROUNDDOWN (a : Nat) : Nat := a / PGSIZE * PGSIZE

theorem u32_next {a : Nat} (h : a < KERNBASE) : u32 (a + PGSIZE) = a + PGSIZE := by
  simp only [u32, PGSIZE, KERNBASE] at *
  omega

theorem roundup_le {sz : Nat} (h : sz < KERNBASE) : PGROUNDUP sz ≤ KERNBASE := by
  simp only [PGROUNDUP, u32, PGSIZE, KERNBASE] at *
  omega

def P2V (pa : Nat) : Nat := u32 (pa + KERNBASE)

/-- The number of iterations of `for(; a < b; a += PGSIZE)`. -/
def pagesBetween (a b : Nat) : Nat := (b - a + PGSIZE - 1) / PGSIZE

/-- The linker symbols: `data` starts a page behind the kernel text, `end`
follows the data segment, within the four megabytes of `entrypgdir`. -/
structure Layout where
  data : Nat
  kend : Nat
  data_aligned : data % PGSIZE = 0
  text_nonempty : KERNLINK < data
  data_le_end : data ≤ kend
  end_le : kend ≤ KERNBASE + 4 * 1024 * 1024

/-- How the kernel can stop: a panic, a null pointer it dereferences, or a
loop it never leaves. -/
inductive Halt where
  | kfree
  | remap
  | freevm
  | clearpteu
  | loaduvmAlign
  | loaduvmMissing
  | inituvm
  | userinit
  | initExiting
  | filedup
  | fileclose
  | nullPointer
  | hang
  deriving DecidableEq, Repr

theorem page_eq_iff {x y : Nat} (hx : x < 2 ^ 32) (hy : y < 2 ^ 32) :
    PDX x = PDX y ∧ PTX x = PTX y ↔ x / PGSIZE = y / PGSIZE := by
  unfold PDX PTX PGSIZE
  omega

theorem lt_32_of_user {x : Nat} (hx : x < KERNBASE) : x < 2 ^ 32 := by
  simp only [KERNBASE] at hx
  omega

theorem PDX_of_lt_KERNBASE {x : Nat} (hx : x < KERNBASE) : PDX x < 512 := by
  unfold PDX KERNBASE at *
  omega

theorem PDX_lt (x : Nat) : PDX x < NPDENTRIES := by
  unfold PDX NPDENTRIES
  omega

end Xv6.Vm

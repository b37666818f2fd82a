import Xv6.Sched.Table
import Xv6.Vm.Exec

/-!
The memory side of processes: `exec`, `growproc`, `sys_sbrk` and the page
fault handler of `trap.c`, as functions on one process and the allocator.
-/

namespace Xv6.Vm

open Sched (Slot ProcState)

abbrev FileIdx := Fin NFILE

/-- The fields of `struct proc` that memory management and descriptors use.
`eip` and `esp` are the two registers of the trap frame that `exec` sets. -/
structure Proc where
  sz : Nat
  pgdir : Option PageDir
  kstack : Option Nat
  state : ProcState
  pid : Int
  parent : Option Slot
  eip : Nat
  esp : Nat
  killed : Bool
  ofile : Fin NOFILE → Option FileIdx
  name : List UInt8
  guardPage : Nat

def Proc.zero : Proc :=
  { sz := 0, pgdir := none, kstack := none, state := .UNUSED, pid := 0, parent := none
    eip := 0, esp := 0, killed := false, ofile := fun _ => none, name := [], guardPage := 0 }

/-- The last component of a path, cut to `sizeof(name) - 1` bytes. -/
def progName (path : List UInt8) : List UInt8 :=
  ((path.reverse.takeWhile fun c => c ≠ 47).reverse).take 15

/-- `exec`: the file is `none` where `namei` finds none. The guard page is
recorded before the stack is allocated, also when what follows fails. -/
def exec (L : Layout) (k : Kmem) (p : Proc) (ip : Option (List UInt8)) (path : List UInt8)
    (argv : List (List UInt8)) : Except Halt (Bool × Proc × Kmem) :=
  match ip with
  | none => .ok (false, p, k)
  | some ip => do
      let (loaded, k) ← execLoad L k ip
      match loaded with
      | none => return (false, p, k)
      | some elf =>
        let sz := PGROUNDUP elf.sz
        let p := { p with guardPage := sz }
        let (image, k) ← execStack L k elf.pgdir sz argv
        match image, p.pgdir with
        | none, _ => return (false, p, k)
        | some _, none => .error .freevm
        | some (pgdir, sz, sp), some oldpgdir =>
          let k ← freevm L k oldpgdir true
          return (true, { p with
            pgdir := some pgdir, sz := sz, eip := elf.entry, esp := sp
            name := progName path }, k)

/-- `sz + n` for an `int` n. -/
def addInt (sz : Nat) (n : BitVec 32) : Nat := u32 (sz + n.toNat)

/-- `growproc`: `false` for -1. -/
def growproc (L : Layout) (k : Kmem) (p : Proc) (n : BitVec 32) :
    Except Halt (Bool × Proc × Kmem) :=
  match p.pgdir with
  | none => .error .nullPointer
  | some pgdir =>
    if 0 < n.toInt then do
      let (sz, pgdir, k) ← allocuvm L k pgdir p.sz (addInt p.sz n)
      if sz = 0 then return (false, { p with pgdir := some pgdir }, k)
      else return (true, { p with pgdir := some pgdir, sz := sz }, k)
    else if n.toInt < 0 then do
      let (sz, pgdir, k) ← deallocuvm L k pgdir p.sz (addInt p.sz n)
      if sz = 0 then return (false, { p with pgdir := some pgdir }, k)
      else return (true, { p with pgdir := some pgdir, sz := sz }, k)
    else return (true, p, k)

/-- `sys_sbrk`: the argument is `none` where `argint` fails, the result `none`
for -1. A positive argument only moves `sz`. -/
def sysSbrk (L : Layout) (k : Kmem) (p : Proc) (arg : Option (BitVec 32)) :
    Except Halt (Option Nat × Proc × Kmem) :=
  match arg with
  | none => .ok (none, p, k)
  | some n =>
    let addr := p.sz
    if 0 < n.toInt then .ok (some addr, { p with sz := addInt p.sz n }, k)
    else if n.toInt < 0 then do
      let (grown, p, k) ← growproc L k p n
      return (if grown then some addr else none, p, k)
    else .ok (some addr, p, k)

inductive Fault where
  /-- address not below `sz` -/
  | outside
  /-- the guard page -/
  | guard
  /-- `kalloc` or `mappages` failed -/
  | noMemory
  /-- a zeroed page was mapped -/
  | mapped
  deriving DecidableEq, Repr

/-- The cases in which the handler sets `killed`. -/
def Fault.kills : Fault → Bool
  | .mapped => false
  | _ => true

/-- The `T_PGFLT` case of `trap` for the faulting address `rcr2`. -/
def pageFault (L : Layout) (k : Kmem) (p : Proc) (rcr2 : Nat) : Except Halt (Fault × Proc × Kmem) :=
  let dirPageErr := PGROUNDDOWN rcr2
  if rcr2 ≥ p.sz then .ok (.outside, { p with killed := true }, k)
  else if dirPageErr = p.guardPage then .ok (.guard, { p with killed := true }, k)
  else
    match kalloc k with
    | none => .ok (.noMemory, { p with killed := true }, k)
    | some (mem, k) =>
      match p.pgdir with
      | none => .error .nullPointer
      | some pgdir => do
          let (mapped, pgdir, k) ← mappages (k.zero mem) pgdir dirPageErr PGSIZE mem true true
          let p := { p with pgdir := some pgdir }
          if mapped then return (.mapped, p, k)
          else
            let k ← kfree L k mem
            return (.noMemory, { p with killed := true }, k)

/-- The page of `va` is present and open to user code. -/
def PageDir.UserOk (d : PageDir) (va : Nat) : Prop := ∃ e, d.entry va = some e ∧ e.u = true

end Xv6.Vm

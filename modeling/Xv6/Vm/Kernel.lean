import Xv6.Vm.Proc

/-!
The kernel as the owner of physical pages: the process table, the file table
with the pipes behind it, and the system calls that allocate or free pages.
Calls are atomic. A process is live from the end of `fork` to `exit`; which
live process makes the next call is arbitrary.
-/

namespace Xv6.Vm

open Function

open Sched (Slot ProcState)

inductive FileType where
  | FD_NONE
  | FD_PIPE
  | FD_INODE
  deriving DecidableEq, Repr

/-- `struct file`; a pipe is named by its page. -/
structure File where
  type : FileType
  ref : Nat
  readable : Bool
  writable : Bool
  pipe : Nat
  deriving DecidableEq, Repr

/-- The state of a pipe that decides when its page is freed. -/
structure Pipe where
  page : Nat
  readopen : Bool
  writeopen : Bool
  deriving DecidableEq, Repr

def Pipe.closeEnd (p : Pipe) (writable : Bool) : Pipe :=
  if writable then { p with writeopen := false } else { p with readopen := false }

structure Kernel where
  kmem : Kmem
  kpgdir : PageDir
  /-- the stacks `startothers` gives to the other processors -/
  cpuStacks : List Nat
  proc : Slot → Proc
  nextpid : Int
  initproc : Slot
  file : FileIdx → File
  pipes : List Pipe

namespace Kernel

def setProc (κ : Kernel) (p : Slot) (q : Proc) : Kernel :=
  { κ with proc := update κ.proc p q }

def setFile (κ : Kernel) (f : FileIdx) (x : File) : Kernel :=
  { κ with file := update κ.file f x }

def filealloc (κ : Kernel) : Option (FileIdx × Kernel) :=
  match (List.finRange NFILE).find? fun f => (κ.file f).ref == 0 with
  | some f => some (f, κ.setFile f { κ.file f with ref := 1 })
  | none => none

def filedup (κ : Kernel) (f : FileIdx) : Except Halt Kernel :=
  if (κ.file f).ref < 1 then .error .filedup
  else .ok (κ.setFile f { κ.file f with ref := (κ.file f).ref + 1 })

/-- `pipeclose` for the pipe in page `pa`. -/
def pipeclose (L : Layout) (κ : Kernel) (pa : Nat) (writable : Bool) : Except Halt Kernel :=
  match κ.pipes.find? fun p => p.page == pa with
  | none => .error .nullPointer
  | some p =>
    let p := p.closeEnd writable
    let rest := κ.pipes.filter fun q => q.page ≠ pa
    if !p.readopen && !p.writeopen then do
      let k ← kfree L κ.kmem pa
      return { κ with kmem := k, pipes := rest }
    else .ok { κ with pipes := p :: rest }

def fileclose (L : Layout) (κ : Kernel) (f : FileIdx) : Except Halt Kernel :=
  if (κ.file f).ref < 1 then .error .fileclose
  else if (κ.file f).ref - 1 > 0 then
    .ok (κ.setFile f { κ.file f with ref := (κ.file f).ref - 1 })
  else
    let ff := κ.file f
    let κ := κ.setFile f { κ.file f with ref := 0, type := .FD_NONE }
    if ff.type = .FD_PIPE then pipeclose L κ ff.pipe ff.writable else .ok κ

/-- The assignments of `pipealloc` that make page `p` a pipe between two files. -/
def newPipe (κ : Kernel) (f0 f1 : FileIdx) (p : Nat) (k : Kmem) : Kernel :=
  let κ := { κ with kmem := k, pipes := ⟨p, true, true⟩ :: κ.pipes }
  let κ := κ.setFile f0 { κ.file f0 with
    type := .FD_PIPE, readable := true, writable := false, pipe := p }
  κ.setFile f1 { κ.file f1 with
    type := .FD_PIPE, readable := false, writable := true, pipe := p }

/-- `pipealloc`: `none` for -1. -/
def pipealloc (L : Layout) (κ : Kernel) : Except Halt (Option (FileIdx × FileIdx) × Kernel) :=
  match filealloc κ with
  | none => .ok (none, κ)
  | some (f0, κ) =>
    match filealloc κ with
    | none => do
        let κ ← fileclose L κ f0
        return (none, κ)
    | some (f1, κ) =>
      match kalloc κ.kmem with
      | none => do
          let κ ← fileclose L κ f0
          let κ ← fileclose L κ f1
          return (none, κ)
      | some (p, k) => .ok (some (f0, f1), κ.newPipe f0 f1 p k)

def setFd (κ : Kernel) (p : Slot) (fd : Fin NOFILE) (f : Option FileIdx) : Kernel :=
  κ.setProc p { κ.proc p with ofile := update (κ.proc p).ofile fd f }

def fdalloc (κ : Kernel) (p : Slot) (f : FileIdx) : Option (Fin NOFILE × Kernel) :=
  match (List.finRange NOFILE).find? fun fd => ((κ.proc p).ofile fd).isNone with
  | some fd => some (fd, κ.setFd p fd (some f))
  | none => none

/-- `sys_pipe` behind its argument check. -/
def sysPipe (L : Layout) (κ : Kernel) (p : Slot) : Except Halt (Bool × Kernel) := do
  let (files, κ) ← pipealloc L κ
  match files with
  | none => return (false, κ)
  | some (rf, wf) =>
    match fdalloc κ p rf with
    | none =>
      let κ ← fileclose L κ rf
      let κ ← fileclose L κ wf
      return (false, κ)
    | some (fd0, κ) =>
      match fdalloc κ p wf with
      | none =>
        let κ := κ.setFd p fd0 none
        let κ ← fileclose L κ rf
        let κ ← fileclose L κ wf
        return (false, κ)
      | some (_, κ) => return (true, κ)

/-- `sys_open` once it holds the inode: a file and a descriptor for it. -/
def openInode (L : Layout) (κ : Kernel) (p : Slot) (readable writable : Bool) :
    Except Halt (Bool × Kernel) :=
  match filealloc κ with
  | none => .ok (false, κ)
  | some (f, κ) =>
    match fdalloc κ p f with
    | none => do
        let κ ← fileclose L κ f
        return (false, κ)
    | some (_, κ) =>
      .ok (true, κ.setFile f { κ.file f with
        type := .FD_INODE, readable := readable, writable := writable })

def sysClose (L : Layout) (κ : Kernel) (p : Slot) (fd : Fin NOFILE) : Except Halt (Bool × Kernel) :=
  match (κ.proc p).ofile fd with
  | none => .ok (false, κ)
  | some f => do
      let κ ← fileclose L (κ.setFd p fd none) f
      return (true, κ)

def sysDup (κ : Kernel) (p : Slot) (fd : Fin NOFILE) : Except Halt (Bool × Kernel) :=
  match (κ.proc p).ofile fd with
  | none => .ok (false, κ)
  | some f =>
    match fdalloc κ p f with
    | none => .ok (false, κ)
    | some (_, κ) => do
        let κ ← filedup κ f
        return (true, κ)

/-- `if(f != NULL) fileclose(f)` -/
def closeFile (L : Layout) (κ : Kernel) : Option FileIdx → Except Halt Kernel
  | some f => fileclose L κ f
  | none => .ok κ

def sysDup2 (L : Layout) (κ : Kernel) (p : Slot) (oldfd newfd : Fin NOFILE) :
    Except Halt (Bool × Kernel) :=
  match (κ.proc p).ofile oldfd with
  | none => .ok (false, κ)
  | some oldf =>
    if oldfd = newfd then .ok (true, κ)
    else do
      let κ ← closeFile L κ ((κ.proc p).ofile newfd)
      let κ ← filedup (κ.setFd p newfd (some oldf)) oldf
      return (true, κ)

/-- The first slot that satisfies a test. -/
def firstProc (κ : Kernel) (test : Proc → Bool) : Option Slot :=
  (List.finRange NPROC).find? fun p => test (κ.proc p)

/-- `fork`'s loop over the parent's descriptors. -/
def dupFiles (κ : Kernel) (p np : Slot) : Except Halt Kernel :=
  (List.finRange NOFILE).foldlM (fun κ fd =>
    match (κ.proc p).ofile fd with
    | some f => do
        let κ ← filedup κ f
        return κ.setFd np fd (some f)
    | none => .ok κ) κ

/-- `fork`, with `allocproc` in it: the child's pid, `none` for -1. -/
def fork (L : Layout) (κ : Kernel) (p : Slot) : Except Halt (Option Int × Kernel) :=
  match κ.firstProc fun q => q.state == .UNUSED with
  | none => .ok (none, κ)
  | some np =>
    let pid := κ.nextpid
    let κ := { κ with nextpid := κ.nextpid + 1 }
    let child := { κ.proc np with state := .EMBRYO, pid := pid }
    match kalloc κ.kmem with
    | none => .ok (none, κ.setProc np { child with kstack := none, state := .UNUSED })
    | some (kstack, k) =>
      match (κ.proc p).pgdir with
      | none => .error .nullPointer
      | some pgdir => do
          let (d, k) ← copyuvm L k pgdir (κ.proc p).sz
          match d with
          | none =>
            let k ← kfree L k kstack
            return (none, { κ with kmem := k }.setProc np { child with
              pgdir := none, kstack := none, state := .UNUSED })
          | some d =>
            let κ := { κ with kmem := k }.setProc np { child with
              kstack := some kstack
              pgdir := some d
              sz := (κ.proc p).sz
              parent := some p
              eip := (κ.proc p).eip
              esp := (κ.proc p).esp
              name := (κ.proc p).name }
            let κ ← dupFiles κ p np
            return (some pid, κ.setProc np { κ.proc np with state := .RUNNABLE })

/-- `exit`'s loop over the descriptors. -/
def closeFiles (L : Layout) (κ : Kernel) (p : Slot) : Except Halt Kernel :=
  (List.finRange NOFILE).foldlM (fun κ fd =>
    match (κ.proc p).ofile fd with
    | some f => do
        let κ ← fileclose L κ f
        return κ.setFd p fd none
    | none => .ok κ) κ

/-- `exit`'s loop that passes children to init. -/
def reparent (κ : Kernel) (p : Slot) : Kernel :=
  { κ with
    proc := fun q =>
      if (κ.proc q).parent = some p then { κ.proc q with parent := some κ.initproc }
      else κ.proc q }

/-- `exit`: the user pages are freed at once, the rest by the parent. -/
def exit (L : Layout) (κ : Kernel) (p : Slot) : Except Halt Kernel :=
  if p = κ.initproc then .error .initExiting
  else do
    let κ ← closeFiles L κ p
    let κ := κ.reparent p
    match (κ.proc p).pgdir with
    | none => .error .nullPointer
    | some pgdir =>
      let (_, d, k) ← deallocuvm L κ.kmem pgdir KERNBASE 0
      return { κ with kmem := k }.setProc p { κ.proc p with pgdir := some d, state := .ZOMBIE }

/-- `wait`, one turn: a zombie child is freed; `none` where there is none. -/
def wait (L : Layout) (κ : Kernel) (p : Slot) : Except Halt (Option Int × Kernel) :=
  match κ.firstProc fun q => q.parent == some p && q.state == .ZOMBIE with
  | none => .ok (none, κ)
  | some c =>
    match (κ.proc c).kstack, (κ.proc c).pgdir with
    | none, _ => .error .kfree
    | some _, none => .error .freevm
    | some kstack, some pgdir => do
        let k ← kfree L κ.kmem kstack
        let k ← freevm L k pgdir false
        return (some (κ.proc c).pid, { κ with kmem := k }.setProc c { κ.proc c with
          kstack := none, pid := 0, parent := none, name := [], killed := false
          state := .UNUSED })

inductive Act where
  | fork (p : Slot)
  | exec (p : Slot) (ip : Option (List UInt8)) (path : List UInt8) (argv : List (List UInt8))
  | exit (p : Slot)
  | wait (p : Slot)
  | sbrk (p : Slot) (arg : Option (BitVec 32))
  /-- an access faults at the address, in user mode or inside a system call -/
  | fault (p : Slot) (addr : Nat) (user : Bool)
  | pipe (p : Slot)
  | openInode (p : Slot) (readable writable : Bool)
  | close (p : Slot) (fd : Fin NOFILE)
  | dup (p : Slot) (fd : Fin NOFILE)
  | dup2 (p : Slot) (oldfd newfd : Fin NOFILE)

def Act.caller : Act → Slot
  | .fork p | .exec p _ _ _ | .exit p | .wait p | .sbrk p _ | .fault p _ _ | .pipe p
  | .openInode p _ _ | .close p _ | .dup p _ | .dup2 p _ _ => p

def Live (κ : Kernel) (p : Slot) : Prop := (κ.proc p).state = .RUNNABLE

instance (κ : Kernel) (p : Slot) : Decidable (κ.Live p) := by
  unfold Live
  infer_instance

/-- An access to `addr` by process `p` faults: in user mode where the page is
absent or closed to user code, in the kernel where it is absent. -/
def Faults (κ : Kernel) (p : Slot) (addr : Nat) (user : Bool) : Prop :=
  addr < 2 ^ 32 ∧ ∀ d e, (κ.proc p).pgdir = some d → d.entry addr = some e → user = true ∧ e.u = false

/-- The kernel after a call of a live process. -/
def step (L : Layout) (κ : Kernel) : Act → Except Halt Kernel
  | .fork p => do
      let (_, κ) ← fork L κ p
      return κ
  | .exec p ip path argv => do
      let (_, q, k) ← exec L κ.kmem (κ.proc p) ip path argv
      return { κ with kmem := k }.setProc p q
  | .exit p => exit L κ p
  | .wait p => do
      let (_, κ) ← wait L κ p
      return κ
  | .sbrk p arg => do
      let (_, q, k) ← sysSbrk L κ.kmem (κ.proc p) arg
      return { κ with kmem := k }.setProc p q
  | .fault p addr user => do
      let (r, q, k) ← pageFault L κ.kmem (κ.proc p) addr
      let κ := { κ with kmem := k }.setProc p q
      -- a killed process does not return to user mode
      if r.kills && user then exit L κ p else return κ
  | .pipe p => do
      let (_, κ) ← sysPipe L κ p
      return κ
  | .openInode p readable writable => do
      let (_, κ) ← openInode L κ p readable writable
      return κ
  | .close p fd => do
      let (_, κ) ← sysClose L κ p fd
      return κ
  | .dup p fd => do
      let (_, κ) ← sysDup κ p fd
      return κ
  | .dup2 p oldfd newfd => do
      let (_, κ) ← sysDup2 L κ p oldfd newfd
      return κ

/-- The calls that can come next: the caller is live and a fault is one. -/
def Enabled (κ : Kernel) : Act → Prop
  | .fault p addr user => κ.Live p ∧ κ.Faults p addr user
  | a => κ.Live a.caller

end Kernel

/-- `main` and `userinit`: `ncpu` processors, the bytes of `initcode`. -/
def boot (L : Layout) (ncpu : Nat) (initcode : List UInt8) : Except Halt Kernel := do
  let k ← freerange L ⟨[], fun _ _ => 0⟩ L.kend (KERNBASE + 4 * 1024 * 1024)
  let (kpgdir, k) ← setupkvm L k
  match kpgdir with
  | none => .error .nullPointer
  | some kpgdir =>
    let (cpuStacks, k) ← (List.range (ncpu - 1)).foldlM (fun (cpuStacks, k) _ =>
      match kalloc k with
      | none => Except.error Halt.nullPointer
      | some (stack, k) => .ok (stack :: cpuStacks, k)) ([], k)
    let k ← freerange L k (KERNBASE + 4 * 1024 * 1024) (KERNBASE + PHYSTOP)
    match kalloc k with
    | none => .error .nullPointer
    | some (kstack, k) =>
      let (pgdir, k) ← setupkvm L k
      match pgdir with
      | none => .error .userinit
      | some pgdir =>
        let (pgdir, k) ← inituvm k pgdir initcode
        let init : Slot := ⟨0, NPROC_pos⟩
        return {
          kmem := k, kpgdir := kpgdir, cpuStacks := cpuStacks
          proc := update (fun _ => Proc.zero) init { Proc.zero with
            state := .RUNNABLE, pid := 1, kstack := some kstack, pgdir := some pgdir
            sz := PGSIZE, eip := 0, esp := PGSIZE }
          nextpid := 2, initproc := init
          file := fun _ => ⟨.FD_NONE, 0, false, false, 0⟩
          pipes := [] }

end Xv6.Vm

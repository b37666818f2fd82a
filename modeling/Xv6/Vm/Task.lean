import Xv6.Vm.Owners
import Xv6.Vm.Origin

/-!
The kernel with the fields of `struct proc` that are not about memory or
descriptors: the trap frame, the current directory and the priority. `kill`
and `setprio` look for a pid among all slots, so that they may write into a
slot that is not in use, and what is left there is found by the `fork` that
takes the slot.
-/

namespace Xv6.Vm

open Lib Relation
open Sched (Slot ProcState NORM_PRIO)

/-- The registers of a trap frame but `eip` and `esp`. -/
inductive Reg where
  | edi | esi | ebp | ebx | edx | ecx | eax | gs | fs | es | ds | cs | eflags | ss
  deriving DecidableEq, Repr

structure Task where
  tf : Reg → BitVec 32
  /-- the inode of the current directory -/
  cwd : Option Nat
  prio : Nat

structure State where
  vm : Kernel
  task : Slot → Task

namespace State

def setTask (s : State) (p : Slot) (f : Task → Task) : State :=
  { s with task := Function.update s.task p (f (s.task p)) }

/-- `fork`: `allocproc` sets the priority, also where what follows fails. -/
def fork (L : Layout) (s : State) (p : Slot) : Except Halt (Option Int × State) :=
  match s.vm.firstProc fun q => q.state == .UNUSED with
  | none => .ok (none, s)
  | some np => do
      let (pid, vm) ← s.vm.fork L p
      let s := { s with vm := vm }.setTask np fun t => { t with prio := NORM_PRIO }
      if pid.isSome then
        return (pid, s.setTask np fun t => { t with
          tf := Function.update (s.task p).tf .eax 0
          prio := (s.task p).prio
          cwd := (s.task p).cwd })
      else return (none, s)

/-- `kill`: the first slot with the pid, in any state. -/
def kill (s : State) (pid : Int) : State :=
  match s.vm.firstProc fun q => q.pid == pid with
  | some p =>
    { s with vm := s.vm.setProc p { s.vm.proc p with
      killed := true
      state := if (s.vm.proc p).state = .SLEEPING then .RUNNABLE else (s.vm.proc p).state } }
  | none => s

def setprio (s : State) (pid : Int) (prio : Nat) : State :=
  match s.vm.firstProc fun q => q.pid == pid with
  | some p => s.setTask p fun t => { t with prio := prio }
  | none => s

inductive Act where
  | fork (p : Slot)
  /-- a call other than `fork`, or a page fault -/
  | call (a : Kernel.Act)
  | kill (pid : Int)
  | setprio (pid : Int) (prio : Nat)
  | chdir (p : Slot) (ip : Nat)
  /-- user code has changed the registers -/
  | user (p : Slot) (tf : Reg → BitVec 32) (eip esp : Nat)

/-- A process that has become a zombie has given back its directory. -/
def dropCwd (s : State) (p : Slot) : State :=
  if (s.vm.proc p).state = .ZOMBIE then s.setTask p fun t => { t with cwd := none } else s

def step (L : Layout) (s : State) : Act → Except Halt State
  | .fork p => do
      let (_, s) ← s.fork L p
      return s
  | .call a => do
      let vm ← s.vm.step L a
      return { s with vm := vm }.dropCwd a.caller
  | .kill pid => .ok (s.kill pid)
  | .setprio pid prio => .ok (s.setprio pid prio)
  | .chdir p ip => .ok (s.setTask p fun t => { t with cwd := some ip })
  | .user p tf eip esp =>
    .ok ({ s with vm := s.vm.setProc p { s.vm.proc p with eip := eip, esp := esp } }.setTask p
      fun t => { t with tf := tf })

def Enabled (s : State) : Act → Prop
  | .fork p => s.vm.Live p
  | .call a => s.vm.Enabled a ∧ ∀ p, a ≠ .fork p
  | .kill _ => True
  | .setprio _ _ => True
  | .chdir p _ => s.vm.Live p
  | .user p _ _ _ => s.vm.Live p

/-- A call that completes, in a state in which every process is within its
bound. -/
def Step (L : Layout) (a : Act) (s s' : State) : Prop :=
  s.vm.Bounded ∧ s.Enabled a ∧ s.step L a = .ok s'

/-- After `userinit`; the process starts in directory `root`. -/
def start (κ : Kernel) (root : Nat) : State where
  vm := κ
  task := Function.update (fun _ => ⟨fun _ => 0, none, NORM_PRIO⟩) κ.initproc
    ⟨fun _ => 0, some root, NORM_PRIO⟩

def Reached (L : Layout) (s : State) : Prop :=
  ∃ ncpu initcode κ0 root, boot L ncpu initcode = .ok κ0 ∧
    ReflTransGen (fun s s' => ∃ a, Step L a s s') (start κ0 root) s

@[simp] theorem dropCwd_vm (s : State) (p : Slot) : (s.dropCwd p).vm = s.vm := by
  unfold dropCwd
  split <;> rfl

theorem fork_vm {L : Layout} {s s' : State} {p : Slot} {pid : Option Int}
    (h : s.fork L p = .ok (pid, s')) : s.vm.fork L p = .ok (pid, s'.vm) := by
  unfold fork at h
  split at h
  · next hnone =>
    cases h
    unfold Kernel.fork
    rw [hnone]
  · next np _ =>
    obtain ⟨⟨r, vm⟩, hfork, h⟩ := bind_eq_ok.mp h
    rw [hfork]
    cases r <;> cases h <;> rfl

theorem vm_setProc_inv {L : Layout} {κ : Kernel} {handed : Multiset Nat} (h : κ.Inv L handed)
    {p : Slot} {q : Proc} (hspace : (q.kstack, q.pgdir) = ((κ.proc p).kstack, (κ.proc p).pgdir))
    (hofile : q.ofile = (κ.proc p).ofile)
    (hunused : q.state = .UNUSED ↔ (κ.proc p).state = .UNUSED)
    (hzombie : q.state = .ZOMBIE ↔ (κ.proc p).state = .ZOMBIE) :
    (κ.setProc p q).Inv L handed := by
  obtain ⟨hk, hd⟩ := Prod.mk.inj hspace
  have hok := h.proc p
  refine h.setProc (k := κ.kmem) ⟨?_, ?_, ?_⟩ hofile ?_
  · rw [hk, hd, Ne, hunused]
    exact hok.space
  · rw [hzombie, hd]
    exact hok.zombie
  · rw [hunused, hzombie, hofile]
    exact hok.files
  · unfold Proc.pages
    simp only [hunused, hk, hd]

end State

end Xv6.Vm

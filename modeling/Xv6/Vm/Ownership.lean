import Xv6.Vm.FileTable
import Xv6.Vm.ProcCalls

/-!
Ownership of physical pages. Every page that `freerange` handed to the
allocator is on the free list or belongs to one owner: a kernel stack, a page
directory or page table, a user mapping, a pipe, the stack of a processor.
The invariant says so with multisets: free list and owners together are the
pages handed out, whichever call ran and wherever it ran out of memory.
-/

namespace Xv6.Vm

open Finset Lib
open Sched (Slot ProcState)

def stackPages (kstack : Option Nat) : Multiset Nat := kstack.elim 0 fun pa => {pa}

def spacePages (pgdir : Option PageDir) : Multiset Nat := pgdir.elim 0 PageDir.pages

/-- The pages a process slot owns; the pointers in an unused slot are stale. -/
def Proc.pages (q : Proc) : Multiset Nat :=
  if q.state = .UNUSED then 0 else stackPages q.kstack + spacePages q.pgdir

structure ProcOk (L : Layout) (q : Proc) : Prop where
  space : q.state ≠ .UNUSED → ∃ kstack d, q.kstack = some kstack ∧ q.pgdir = some d ∧ d.KernelHalf L
  zombie : q.state = .ZOMBIE → ∀ d, q.pgdir = some d → ∀ x < KERNBASE, d.entry x = none
  files : q.state = .UNUSED ∨ q.state = .ZOMBIE → ∀ fd, q.ofile fd = none

variable {d : PageDir} {k : Kmem} {addr : Nat} {r : Option Int} {np : Slot}

theorem Proc.pages_eq {q : Proc} {kstack : Nat} (hstate : q.state ≠ .UNUSED)
    (hk : q.kstack = some kstack) (hd : q.pgdir = some d) : q.pages = {kstack} + d.pages := by
  unfold Proc.pages
  rw [if_neg hstate, hk, hd]
  rfl

namespace Kernel

def procPages (κ : Kernel) : Multiset Nat := ∑ p, (κ.proc p).pages

def pages (κ : Kernel) : Multiset Nat :=
  κ.kpgdir.pages + (κ.cpuStacks : Multiset Nat) + κ.procPages + κ.pipePages

/-- The ownership invariant for the pages `handed` to the allocator. -/
structure Inv (L : Layout) (handed : Multiset Nat) (κ : Kernel) : Prop where
  pages : κ.kmem.free + κ.pages = handed
  files : κ.FilesOk fun _ => 0
  kernel : κ.kpgdir.KernelHalf L
  kuser : ∀ x < KERNBASE, κ.kpgdir.entry x = none
  proc : ∀ p, ProcOk L (κ.proc p)

theorem procPages_setProc (κ : Kernel) (p : Slot) (q : Proc) :
    (κ.setProc p q).procPages + (κ.proc p).pages = κ.procPages + q.pages := by
  have hsum := sum_add_of_eq_off (f := fun r => (κ.proc r).pages)
    (g := fun r => ((κ.setProc p q).proc r).pages) (mem_univ p) (by
      intro r _ hr
      simp [setProc, hr])
  simpa [procPages, setProc] using hsum

theorem FilesOk.setProc {κ : Kernel} {balance : FileIdx → ℤ} (h : κ.FilesOk balance) (k : Kmem)
    {p : Slot} {q : Proc} (hofile : q.ofile = (κ.proc p).ofile) :
    ({ κ with kmem := k }.setProc p q).FilesOk balance := by
  refine ⟨⟨h.pipes.closed, h.pipes.ends, h.pipes.unique, h.pipes.live, h.pipes.nodup⟩, fun f => ?_⟩
  have hrefs : ({ κ with kmem := k }.setProc p q).refs f = κ.refs f := by
    unfold Kernel.refs
    refine sum_congr rfl fun r _ => ?_
    by_cases hr : r = p
    · subst hr
      simp [Kernel.setProc, hofile]
    · simp [Kernel.setProc, hr]
  rw [hrefs]
  exact h.refs f

private theorem exchange {free free' a b procs procs' c old new : Multiset Nat}
    (hprocs : procs' + old = procs + new) (hfree : new + free' = old + free) :
    free' + (a + b + procs' + c) = free + (a + b + procs + c) := by
  apply add_right_cancel (b := old)
  calc free' + (a + b + procs' + c) + old
      = free' + (a + b + (procs' + old) + c) := by abel
    _ = a + b + procs + c + (new + free') := by
        rw [hprocs]
        abel
    _ = free + (a + b + procs + c) + old := by
        rw [hfree]
        abel

theorem Inv.setProc {L : Layout} {handed : Multiset Nat} {κ : Kernel} (h : Inv L handed κ)
    {p : Slot} {q : Proc} (hok : ProcOk L q) (hofile : q.ofile = (κ.proc p).ofile)
    (hpages : q.pages + k.free = (κ.proc p).pages + κ.kmem.free) :
    Inv L handed ({ κ with kmem := k }.setProc p q) := by
  refine ⟨?_, h.files.setProc k hofile, h.kernel, h.kuser, fun r => ?_⟩
  · have hsum := procPages_setProc { κ with kmem := k } p q
    have htotal := h.pages
    change _ + (κ.proc p).pages = κ.procPages + _ at hsum
    change k.free + (κ.kpgdir.pages + (κ.cpuStacks : Multiset Nat) +
      ({ κ with kmem := k }.setProc p q).procPages + κ.pipePages) = handed
    rw [← htotal]
    exact exchange hsum hpages
  · by_cases hr : r = p
    · subst hr
      simpa [Kernel.setProc] using hok
    · simpa [Kernel.setProc, hr] using h.proc r

theorem Inv.filesStep {L : Layout} {handed : Multiset Nat} {κ κ' : Kernel} (h : Inv L handed κ)
    {p : Slot} (hp : (κ.proc p).state ≠ .UNUSED ∧ (κ.proc p).state ≠ .ZOMBIE)
    (hstep : FilesStep p κ κ') : Inv L handed κ' := by
  have hproc (q : Slot) : ∃ ofile, κ'.proc q = { κ.proc q with ofile := ofile } := hstep.only.proc q
  have hpages : κ'.procPages = κ.procPages := by
    refine sum_congr rfl fun q _ => ?_
    obtain ⟨o, ho⟩ := hproc q
    rw [ho]
    rfl
  refine ⟨?_, hstep.files, ?_, ?_, fun q => ?_⟩
  · unfold Kernel.pages
    rw [hstep.only.kpgdir, hstep.only.cpuStacks, hpages, ← h.pages]
    unfold Kernel.pages
    have hfree := hstep.only.pages
    rw [add_left_comm, hfree]
    abel
  · rw [hstep.only.kpgdir]
    exact h.kernel
  · rw [hstep.only.kpgdir]
    exact h.kuser
  · by_cases hq : q = p
    · subst hq
      obtain ⟨o, ho⟩ := hproc q
      have hok := h.proc q
      rw [ho]
      exact ⟨hok.space, hok.zombie, fun hstate => absurd hstate (by simpa using hp)⟩
    · rw [hstep.others q hq]
      exact h.proc q

theorem setProc_proc (κ : Kernel) (p r : Slot) (q : Proc) :
    (κ.setProc p q).proc r = if r = p then q else κ.proc r := by
  by_cases hr : r = p
  · subst hr
    simp [setProc]
  · simp [setProc, hr]

section

variable {L : Layout} {handed : Multiset Nat} {κ κ' : Kernel} {p : Slot}

theorem live_ne (hlive : κ.Live p) : (κ.proc p).state ≠ .UNUSED ∧ (κ.proc p).state ≠ .ZOMBIE := by
  unfold Live at hlive
  rw [hlive]
  exact ⟨by simp, by simp⟩

/-- A live process changes its directory but not its kernel half. -/
theorem Inv.setSpace (h : Inv L handed κ) (hlive : κ.Live p) {d' : PageDir} {q : Proc}
    (hd : (κ.proc p).pgdir = some d) (hkernel : d'.KernelHalf L)
    (hpages : d'.pages + k.free = d.pages + κ.kmem.free) (hq : q.pgdir = some d')
    (hstate : q.state = .RUNNABLE) (hkstack : q.kstack = (κ.proc p).kstack)
    (hofile : q.ofile = (κ.proc p).ofile) : Inv L handed ({ κ with kmem := k }.setProc p q) := by
  have hp := (live_ne hlive).1
  obtain ⟨kstack, d0, hk, hd0, _⟩ := (h.proc p).space hp
  have hqne : q.state ≠ .UNUSED := by simp [hstate]
  refine h.setProc ⟨fun _ => ⟨kstack, d', hkstack.trans hk, hq, hkernel⟩, ?_, ?_⟩ hofile ?_
  · intro hz
    rw [hstate] at hz
    cases hz
  · rw [hstate]
    rintro (hz | hz) <;> cases hz
  · rw [Proc.pages_eq hqne (hkstack.trans hk) hq, Proc.pages_eq hp hk hd, add_assoc, hpages, add_assoc]

theorem Inv.space (h : Inv L handed κ) (hlive : κ.Live p) :
    ∃ kstack d, (κ.proc p).kstack = some kstack ∧ (κ.proc p).pgdir = some d ∧ d.KernelHalf L :=
  (h.proc p).space (live_ne hlive).1

theorem exec_inv (h : Inv L handed κ) (hlive : κ.Live p) {ip : Option (List UInt8)}
    {path : List UInt8} {argv : List (List UInt8)} (hstep : step L κ (.exec p ip path argv) = .ok κ') :
    Inv L handed κ' := by
  obtain ⟨⟨b, q, k⟩, hexec, hstep⟩ := bind_eq_ok.mp hstep
  cases hstep
  obtain ⟨kstack, d, hk, hd, hkernel⟩ := h.space hlive
  rcases exec_spec hexec with ⟨_, hfree, g, rfl⟩ | ⟨_, d0, d', eip, esp, name, hd0, hq, hpages, hk', _⟩
  · exact h.setSpace hlive hd hkernel (by rw [hfree]) hd hlive rfl rfl
  · rw [hd] at hd0
    cases hd0
    rw [hq]
    exact h.setSpace hlive hd hk' hpages rfl hlive rfl rfl

theorem sbrk_inv (h : Inv L handed κ) (hlive : κ.Live p) (hsz : (κ.proc p).sz ≤ KERNBASE)
    {arg : Option (BitVec 32)} (hstep : step L κ (.sbrk p arg) = .ok κ') : Inv L handed κ' := by
  obtain ⟨⟨r, q, k⟩, hsbrk, hstep⟩ := bind_eq_ok.mp hstep
  cases hstep
  obtain ⟨kstack, d, hk, hd, hkernel⟩ := h.space hlive
  obtain ⟨d', sz, rfl, hsame, hpages⟩ := sysSbrk_space hsbrk hd hsz
  exact h.setSpace hlive hd (hsame.kernelHalf hkernel) hpages rfl hlive rfl rfl

theorem Inv.reparent (h : Inv L handed κ) (p : Slot) : Inv L handed (κ.reparent p) := by
  have hsame (q : Slot) : ∃ parent, (κ.reparent p).proc q = { κ.proc q with parent := parent } := by
    unfold Kernel.reparent
    by_cases hq : (κ.proc q).parent = some p
    · exact ⟨some κ.initproc, by simp [hq]⟩
    · exact ⟨(κ.proc q).parent, by simp [hq]⟩
  have hpages : (κ.reparent p).procPages = κ.procPages := by
    refine sum_congr rfl fun q _ => ?_
    obtain ⟨o, ho⟩ := hsame q
    rw [ho]
    rfl
  have hrefs (f : FileIdx) : (κ.reparent p).refs f = κ.refs f := by
    refine sum_congr rfl fun q _ => ?_
    obtain ⟨o, ho⟩ := hsame q
    rw [ho]
  refine ⟨?_, ⟨⟨h.files.pipes.closed, h.files.pipes.ends, h.files.pipes.unique, h.files.pipes.live,
    h.files.pipes.nodup⟩, fun f => ?_⟩, h.kernel, h.kuser, fun q => ?_⟩
  · rw [← h.pages]
    unfold Kernel.pages
    rw [hpages]
    rfl
  · rw [hrefs]
    exact h.files.refs f
  · obtain ⟨o, ho⟩ := hsame q
    rw [ho]
    exact ⟨(h.proc q).space, (h.proc q).zombie, (h.proc q).files⟩

theorem exit_inv (h : Inv L handed κ) (hlive : κ.Live p) (hexit : exit L κ p = .ok κ') :
    Inv L handed κ' := by
  unfold exit at hexit
  split at hexit
  · cases hexit
  obtain ⟨κ1, hclose, hexit⟩ := bind_eq_ok.mp hexit
  obtain ⟨hfiles, hnone⟩ := closeFiles_spec hclose h.files
  have h2 := (h.filesStep (live_ne hlive) hfiles).reparent p
  obtain ⟨o, ho⟩ := hfiles.only.proc p
  have hp : ((κ1.reparent p).proc p).state = .RUNNABLE ∧ ((κ1.reparent p).proc p).ofile =
      (κ1.proc p).ofile := by
    have hstate : (κ1.proc p).state = .RUNNABLE := by
      rw [ho]
      exact hlive
    unfold reparent
    simp only
    split
    · exact ⟨hstate, rfl⟩
    · exact ⟨hstate, rfl⟩
  obtain ⟨kstack, d, hk, hd, hkernel⟩ := h2.space hp.1
  simp only [hd] at hexit
  obtain ⟨⟨r, d', k⟩, hdealloc, hexit⟩ := bind_eq_ok.mp hexit
  cases hexit
  obtain ⟨hempty, hframes, hfree, hsame⟩ := deallocuvm_all hdealloc
  have hzero := PageDir.userFrames_eq_zero hempty
  refine h2.setProc ⟨fun _ => ⟨kstack, d', hk, rfl, ?_⟩, ?_, ?_⟩ rfl ?_
  · intro x hx hge
    rw [hsame x hx hge, hkernel x hx hge]
  · rintro _ d1 hd1
    cases hd1
    exact hempty
  · intro _ fd
    change ((κ1.reparent p).proc p).ofile fd = none
    rw [hp.2]
    exact hnone fd
  · have hzombie := Proc.pages_eq (q := { (κ1.reparent p).proc p with
      pgdir := some d', state := .ZOMBIE }) (by simp) hk rfl
    rw [hzombie, Proc.pages_eq (live_ne hp.1).1 hk hd, PageDir.pages_eq, PageDir.pages_eq, hzero,
      hframes, hfree]
    abel

theorem pageFault_inv (h : Inv L handed κ) (hlive : κ.Live p) (hsz : (κ.proc p).sz ≤ KERNBASE)
    {r : Fault} {q : Proc}
    (hfault : pageFault L κ.kmem (κ.proc p) addr = .ok (r, q, k)) :
    Inv L handed ({ κ with kmem := k }.setProc p q) ∧
      ({ κ with kmem := k }.setProc p q).Live p := by
  obtain ⟨kstack, d, hk, hd, hkernel⟩ := h.space hlive
  unfold Live
  rw [setProc_proc, if_pos rfl]
  rcases pageFault_spec hfault hd hsz with ⟨_, _, rfl, rfl⟩ | ⟨_, _, _, rfl, rfl⟩ |
    ⟨hlt, _, d', hpages, ⟨_, rfl, hentry⟩ | ⟨_, rfl, _, mem, hentry, _⟩⟩
  · exact ⟨h.setSpace hlive hd hkernel rfl hd hlive rfl rfl, hlive⟩
  · exact ⟨h.setSpace hlive hd hkernel rfl hd hlive rfl rfl, hlive⟩
  · refine ⟨h.setSpace hlive hd ?_ hpages rfl hlive rfl rfl, hlive⟩
    intro x hx hge
    rw [hentry x hx, hkernel x hx hge]
  · refine ⟨h.setSpace hlive hd ?_ hpages rfl hlive rfl rfl, hlive⟩
    intro x hx hge
    rw [hentry x hx, if_neg, hkernel x hx hge]
    simp only [PGSIZE, KERNBASE] at *
    omega

theorem fault_inv (h : Inv L handed κ) (hlive : κ.Live p) (hsz : (κ.proc p).sz ≤ KERNBASE)
    {user : Bool} (hstep : step L κ (.fault p addr user) = .ok κ') :
    Inv L handed κ' := by
  obtain ⟨⟨r, q, k⟩, hfault, hstep⟩ := bind_eq_ok.mp hstep
  obtain ⟨hinv, hlive'⟩ := pageFault_inv h hlive hsz hfault
  simp only at hstep
  split at hstep
  · exact exit_inv hinv hlive' hstep
  · cases hstep
    exact hinv

theorem firstProc_some {test : Proc → Bool} (hfirst : κ.firstProc test = some p) :
    test (κ.proc p) = true := by
  have hfound := List.find?_some hfirst
  exact hfound

theorem wait_inv (h : Inv L handed κ) (hwait : wait L κ p = .ok (r, κ')) : Inv L handed κ' := by
  unfold wait at hwait
  split at hwait
  · cases hwait
    exact h
  · next c hfirst =>
    have hzombie : (κ.proc c).state = .ZOMBIE := by
      have htest := firstProc_some hfirst
      simp only [Bool.and_eq_true, beq_iff_eq] at htest
      exact htest.2
    obtain ⟨kstack, d, hk, hd, hkernel⟩ := (h.proc c).space (by simp [hzombie])
    rw [hk, hd] at hwait
    obtain ⟨k1, hkfree, hwait⟩ := bind_eq_ok.mp hwait
    obtain ⟨k2, hfree, hwait⟩ := bind_eq_ok.mp hwait
    cases hwait
    have hzero := PageDir.userFrames_eq_zero ((h.proc c).zombie hzombie d hd)
    refine h.setProc ⟨fun hne => absurd rfl hne, nofun, fun _ => ?_⟩ rfl ?_
    · exact (h.proc c).files (Or.inr hzombie)
    · rw [Proc.pages_eq (by simp [hzombie]) hk hd, freevm_tables hfree, (kfree_ok hkfree).2.1,
        PageDir.pages_eq, hzero]
      simp only [Proc.pages, if_true]
      abel

theorem Inv.nextpid (h : Inv L handed κ) (n : Int) : Inv L handed { κ with nextpid := n } :=
  ⟨h.pages, ⟨⟨h.files.pipes.closed, h.files.pipes.ends, h.files.pipes.unique, h.files.pipes.live,
    h.files.pipes.nodup⟩, h.files.refs⟩, h.kernel, h.kuser, h.proc⟩

theorem Inv.unused (h : Inv L handed κ) {q : Proc}
    (hnp : (κ.proc np).state = .UNUSED) (hq : q.state = .UNUSED)
    (hofile : q.ofile = (κ.proc np).ofile) (hfree : k.free = κ.kmem.free) :
    Inv L handed ({ κ with kmem := k }.setProc np q) := by
  refine h.setProc ⟨fun hne => absurd hq hne, fun hz => ?_, fun _ => ?_⟩ hofile ?_
  · rw [hq] at hz
    cases hz
  · rw [hofile]
    exact (h.proc np).files (Or.inl hnp)
  · simp only [Proc.pages, hq, hnp, if_true, hfree]

theorem Inv.embryo (h : Inv L handed κ) {q : Proc} (hnp : (κ.proc np).state = .UNUSED)
    (hspace : ∃ kstack d, q.kstack = some kstack ∧ q.pgdir = some d ∧ d.KernelHalf L ∧
      {kstack} + (d.pages + k.free) = κ.kmem.free)
    (hq : q.state = .EMBRYO) (hofile : q.ofile = (κ.proc np).ofile) :
    Inv L handed ({ κ with kmem := k }.setProc np q) := by
  obtain ⟨kstack, d, hk, hd, hkernel, hpages⟩ := hspace
  refine h.setProc ⟨fun _ => ⟨kstack, d, hk, hd, hkernel⟩, ?_, ?_⟩ hofile ?_
  · rw [hq]
    nofun
  · rw [hq]
    rintro (hz | hz) <;> cases hz
  · rw [Proc.pages_eq (by simp [hq]) hk hd, ← hpages]
    simp only [Proc.pages, hnp, if_true]
    abel

theorem Inv.child (h : Inv L handed κ) (hdup : dupFiles κ p np = .ok κ')
    (hnp : (κ.proc np).state = .EMBRYO) (hempty : ∀ fd, (κ.proc np).ofile fd = none) :
    Inv L handed (κ'.setProc np { κ'.proc np with state := .RUNNABLE }) := by
  have hstep := (dupFiles_spec hdup h.files hempty).1
  have h' := h.filesStep (by simp [hnp]) hstep
  obtain ⟨ofile, hofile⟩ := hstep.only.proc np
  have hstate : (κ'.proc np).state = .EMBRYO := by
    rw [hofile]
    exact hnp
  obtain ⟨kstack, d, hk, hd, hkernel⟩ := (h'.proc np).space (by simp [hstate])
  refine h'.setProc (k := κ'.kmem) ⟨fun _ => ⟨kstack, d, hk, hd, hkernel⟩, nofun, ?_⟩ rfl ?_
  · rintro (hz | hz) <;> cases hz
  · have hnew := Proc.pages_eq (q := { κ'.proc np with state := .RUNNABLE }) (by simp) hk hd
    rw [hnew, Proc.pages_eq (by simp [hstate]) hk hd]

theorem fork_cases (hd : (κ.proc p).pgdir = some d) (hsz : (κ.proc p).sz ≤ KERNBASE)
    (hfork : fork L κ p = .ok (r, κ')) :
    κ' = κ ∨ ∃ np, (κ.firstProc fun q => q.state == .UNUSED) = some np ∧
      (κ.proc np).state = .UNUSED ∧
      ((∃ q k, κ' = { κ with nextpid := κ.nextpid + 1, kmem := k }.setProc np q ∧
          q.state = .UNUSED ∧ q.ofile = (κ.proc np).ofile ∧ k.free = κ.kmem.free) ∨
        ∃ kstack d' k κ1, {kstack} + (d'.pages + k.free) = κ.kmem.free ∧ d'.KernelHalf L ∧
          UserCopy d d' (κ.proc p).sz ∧
          dupFiles ({ κ with nextpid := κ.nextpid + 1, kmem := k }.setProc np { κ.proc np with
            state := .EMBRYO, pid := κ.nextpid, kstack := some kstack, pgdir := some d'
            sz := (κ.proc p).sz, parent := some p, eip := (κ.proc p).eip, esp := (κ.proc p).esp
            name := (κ.proc p).name }) p np = .ok κ1 ∧
          κ' = κ1.setProc np { κ1.proc np with state := .RUNNABLE }) := by
  unfold fork at hfork
  split at hfork
  · cases hfork
    exact .inl rfl
  next np hfirst =>
  have hnp : (κ.proc np).state = .UNUSED := by simpa using firstProc_some hfirst
  refine .inr ⟨np, hfirst, hnp, ?_⟩
  simp only [hd] at hfork
  split at hfork
  · cases hfork
    exact .inl ⟨_, κ.kmem, rfl, rfl, rfl, rfl⟩
  · next kstack k1 halloc =>
    have hfree := (kalloc_some halloc).1
    obtain ⟨⟨d', k2⟩, hcopy, hfork⟩ := bind_eq_ok.mp hfork
    obtain ⟨hnone, hsome⟩ := copyuvm_spec hcopy hsz
    cases d' with
    | none =>
      obtain ⟨k3, hkfree, hfork⟩ := bind_eq_ok.mp hfork
      cases hfork
      refine .inl ⟨_, k3, rfl, rfl, rfl, ?_⟩
      rw [(kfree_ok hkfree).2.1, hnone rfl]
      exact hfree.symm
    | some d' =>
      obtain ⟨hpages, hkernel, hcopied⟩ := hsome d' rfl
      obtain ⟨κ1, hdup, hfork⟩ := bind_eq_ok.mp hfork
      cases hfork
      refine .inr ⟨kstack, d', k2, κ1, ?_, hkernel, hcopied, hdup, rfl⟩
      rw [hpages]
      exact hfree.symm

theorem fork_inv (h : Inv L handed κ) (hlive : κ.Live p) (hsz : (κ.proc p).sz ≤ KERNBASE)
    (hfork : fork L κ p = .ok (r, κ')) : Inv L handed κ' := by
  obtain ⟨_, d, _, hd, _⟩ := h.space hlive
  have hn := h.nextpid (κ.nextpid + 1)
  obtain rfl | ⟨np, _, hnp, ⟨q, k, rfl, hq, hofile, hfree⟩ |
    ⟨kstack, d', k, κ1, hfree, hkernel, _, hdup, rfl⟩⟩ := fork_cases hd hsz hfork
  · exact h
  · exact hn.unused hnp hq hofile hfree
  · refine Inv.child ?_ hdup ?_ ?_
    · exact hn.embryo hnp ⟨kstack, d', rfl, rfl, hkernel, hfree⟩ rfl rfl
    · rw [setProc_proc, if_pos rfl]
    · intro fd
      rw [setProc_proc, if_pos rfl]
      exact (h.proc np).files (Or.inl hnp) fd

def Bounded (κ : Kernel) : Prop := ∀ p, κ.Live p → (κ.proc p).sz ≤ KERNBASE

theorem Bounded.setProc (h : κ.Bounded) {q : Proc} (hq : q.sz ≤ KERNBASE) :
    ({ κ with kmem := k }.setProc p q).Bounded := by
  intro r hr
  unfold Live at hr
  rw [setProc_proc] at hr ⊢
  split
  · exact hq
  · next hne =>
    rw [if_neg hne] at hr
    exact h r hr

theorem step_sbrk {arg : Option (BitVec 32)} {r : Option Nat} {q : Proc}
    (h : sysSbrk L κ.kmem (κ.proc p) arg = .ok (r, q, k)) :
    step L κ (.sbrk p arg) = .ok ({ κ with kmem := k }.setProc p q) := by
  simp only [step, h]
  rfl

theorem step_fault_mapped {user : Bool} {q : Proc}
    (h : pageFault L κ.kmem (κ.proc p) addr = .ok (.mapped, q, k)) :
    step L κ (.fault p addr user) = .ok ({ κ with kmem := k }.setProc p q) := by
  simp only [step, h]
  rfl

theorem Inv.free_not_pipe (h : Inv L handed κ) (hnodup : handed.Nodup) :
    ∀ pa ∈ κ.kmem.free, pa ∉ κ.pipePages := by
  intro pa hfree hpipe
  rw [← h.pages, Multiset.nodup_add] at hnodup
  exact Multiset.disjoint_left.mp hnodup.2.2 hfree (Multiset.mem_add.mpr (Or.inr hpipe))

theorem step_inv (h : Inv L handed κ) (hnodup : handed.Nodup) (hbound : κ.Bounded) {a : Act}
    (henabled : κ.Enabled a) (hstep : step L κ a = .ok κ') : Inv L handed κ' := by
  cases a with
  | fork p =>
    obtain ⟨⟨r, κ1⟩, hfork, hstep⟩ := bind_eq_ok.mp hstep
    cases hstep
    exact fork_inv h henabled (hbound p henabled) hfork
  | exec p ip path argv => exact exec_inv h henabled hstep
  | exit p => exact exit_inv h henabled hstep
  | wait p =>
    obtain ⟨⟨r, κ1⟩, hwait, hstep⟩ := bind_eq_ok.mp hstep
    cases hstep
    exact wait_inv h hwait
  | sbrk p arg => exact sbrk_inv h henabled (hbound p henabled) hstep
  | fault p addr user => exact fault_inv h henabled.1 (hbound p henabled.1) hstep
  | pipe p =>
    obtain ⟨⟨b, κ1⟩, hpipe, hstep⟩ := bind_eq_ok.mp hstep
    cases hstep
    exact h.filesStep (live_ne henabled) (sysPipe_step hpipe h.files (h.free_not_pipe hnodup))
  | openInode p readable writable =>
    obtain ⟨⟨b, κ1⟩, hopen, hstep⟩ := bind_eq_ok.mp hstep
    cases hstep
    exact h.filesStep (live_ne henabled) (openInode_step hopen h.files)
  | close p fd =>
    obtain ⟨⟨b, κ1⟩, hclose, hstep⟩ := bind_eq_ok.mp hstep
    cases hstep
    exact h.filesStep (live_ne henabled) (sysClose_step hclose h.files)
  | dup p fd =>
    obtain ⟨⟨b, κ1⟩, hdup, hstep⟩ := bind_eq_ok.mp hstep
    cases hstep
    exact h.filesStep (live_ne henabled) (sysDup_step hdup h.files)
  | dup2 p oldfd newfd =>
    obtain ⟨⟨b, κ1⟩, hdup, hstep⟩ := bind_eq_ok.mp hstep
    cases hstep
    exact h.filesStep (live_ne henabled) (sysDup2_step hdup h.files)

end

end Kernel

end Xv6.Vm

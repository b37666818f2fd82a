import Xv6.Vm.Task
import Xv6.Vm.TwoRuns

/-!
What the child of `fork` depends on. Two kernels that agree about the caller
and about what is free give it the same address space, files, directory,
registers and priority. `guard_page` and `killed` are not written: the child
has the values that the last user of the slot, or a `kill` in between, left
there.
-/

namespace Xv6.Vm

open Lib Relation Kernel
open Sched (Slot ProcState NORM_PRIO HI_PRIO)

variable {pid : Int} {kstack : Nat} {d : PageDir} {κ0 : Kernel}

namespace Kernel

variable {L : Layout} {κ κ' κ1 κ2 κ1' : Kernel} {p np np1 np2 : Slot}

theorem firstProc_congr {test test' : Proc → Bool}
    (h : ∀ q, test (κ.proc q) = test' (κ'.proc q)) : κ.firstProc test = κ'.firstProc test' := by
  unfold firstProc
  simp only [h]

theorem dupFiles_child (hne : p ≠ np) (h : dupFiles κ p np = .ok κ') :
    κ'.kmem = κ.kmem ∧ κ'.nextpid = κ.nextpid ∧ (∀ q ≠ np, κ'.proc q = κ.proc q) ∧
      κ'.proc np = { κ.proc np with
        ofile := fun fd => ((κ.proc p).ofile fd).or ((κ.proc np).ofile fd) } := by
  -- over the descriptors still to come: those done are the parent's
  have hinv := foldlM_ok (fun rest κ1 => rest.Nodup ∧ κ1.kmem = κ.kmem ∧ κ1.nextpid = κ.nextpid ∧
      (∀ q ≠ np, κ1.proc q = κ.proc q) ∧ κ1.proc np = { κ.proc np with
        ofile := fun fd => if fd ∈ rest then (κ.proc np).ofile fd
          else ((κ.proc p).ofile fd).or ((κ.proc np).ofile fd) })
    (by
      rintro fd rest κ1 κ2 ⟨hnodup, hkmem, hnext, hothers, hself⟩ hiter
      obtain ⟨hfd, hnodup⟩ := List.nodup_cons.mp hnodup
      rw [hothers p hne] at hiter
      split at hiter
      · next f hf =>
        obtain ⟨κ3, hdup, hiter⟩ := bind_eq_ok.mp hiter
        cases hiter
        unfold filedup at hdup
        split at hdup <;> cases hdup
        refine ⟨hnodup, hkmem, hnext, fun q hq => ?_, ?_⟩
        · rw [setFd_others _ _ _ _ hq]
          exact hothers q hq
        · simp only [setFd, setProc, setFile, Function.update_self, hself]
          congr 1
          funext fd'
          rcases eq_or_ne fd' fd with rfl | hfd'
          · simp [hf, hfd]
          · simp [hfd']
      · next hf =>
        cases hiter
        refine ⟨hnodup, hkmem, hnext, hothers, ?_⟩
        simp only [hself]
        congr 1
        funext fd'
        rcases eq_or_ne fd' fd with rfl | hfd'
        · simp [hf]
        · simp [hfd'])
    ⟨List.nodup_finRange _, rfl, rfl, fun _ _ => rfl, by simp⟩ h
  obtain ⟨_, hkmem, hnext, hothers, hself⟩ := hinv
  exact ⟨hkmem, hnext, hothers, by simpa using hself⟩

theorem dupFiles_alike (hfile : κ1.file = κ2.file)
    (hofile : (κ1.proc p).ofile = (κ2.proc p).ofile) (hne1 : p ≠ np1) (hne2 : p ≠ np2)
    (h : dupFiles κ1 p np1 = .ok κ1') : ∃ κ2', dupFiles κ2 p np2 = .ok κ2' := by
  unfold dupFiles at *
  generalize List.finRange NOFILE = fds at h ⊢
  induction fds generalizing κ1 κ2 with
  | nil => exact ⟨κ2, rfl⟩
  | cons fd rest ih =>
    rw [List.foldlM_cons] at h ⊢
    obtain ⟨κ3, hiter, h⟩ := bind_eq_ok.mp h
    rw [hofile] at hiter
    cases hf : (κ2.proc p).ofile fd with
    | none =>
      rw [hf] at hiter
      cases hiter
      exact ih hfile hofile h
    | some f =>
      rw [hf] at hiter
      obtain ⟨κ4, hdup, hiter⟩ := bind_eq_ok.mp hiter
      cases hiter
      unfold filedup at hdup ⊢
      rw [hfile] at hdup
      split at hdup
      · cases hdup
      · next href =>
        cases hdup
        have hofile' (x : File) : (((κ1.setFile f x).setFd np1 fd (some f)).proc p).ofile =
            (((κ2.setFile f x).setFd np2 fd (some f)).proc p).ofile := by
          rw [setFd_others _ _ _ _ hne1, setFd_others _ _ _ _ hne2]
          exact hofile
        obtain ⟨κ2', hrest⟩ := ih (by simp [setFd, setProc, setFile, hfile]) (hofile' _) h
        exact ⟨κ2', bind_eq_ok.mpr ⟨_, by simp only [if_neg href]; rfl, hrest⟩⟩

/-- The child in front of the loop over the descriptors. -/
def embryo (κ : Kernel) (p np : Slot) (kstack : Nat) (d : PageDir) (k : Kmem) : Kernel :=
  { κ with nextpid := κ.nextpid + 1, kmem := k }.setProc np { κ.proc np with
    state := .EMBRYO, pid := κ.nextpid, kstack := some kstack, pgdir := some d
    sz := (κ.proc p).sz, parent := some p, eip := (κ.proc p).eip, esp := (κ.proc p).esp
    name := (κ.proc p).name }

theorem fork_eq_some (hfirst : (κ.firstProc fun q => q.state == .UNUSED) = some np) :
    fork L κ p = .ok (some pid, κ') ↔ ∃ kstack k1 d d' k2 κ1,
      kalloc κ.kmem = some (kstack, k1) ∧ (κ.proc p).pgdir = some d ∧
      copyuvm L k1 d (κ.proc p).sz = .ok (some d', k2) ∧
      dupFiles (κ.embryo p np kstack d' k2) p np = .ok κ1 ∧ pid = κ.nextpid ∧
      κ' = κ1.setProc np { κ1.proc np with state := .RUNNABLE } := by
  unfold fork
  rw [hfirst]
  simp only
  constructor
  · intro h
    split at h
    · cases h
    · next kstack k1 halloc =>
      split at h
      · cases h
      · next d hd =>
        obtain ⟨⟨d', k2⟩, hcopy, h⟩ := bind_eq_ok.mp h
        cases d' with
        | none =>
          obtain ⟨_, _, h⟩ := bind_eq_ok.mp h
          cases h
        | some d' =>
          obtain ⟨κ1, hdup, h⟩ := bind_eq_ok.mp h
          cases h
          exact ⟨kstack, k1, d, d', k2, κ1, halloc, hd, hcopy, hdup, rfl, rfl⟩
  · rintro ⟨kstack, k1, d, d', k2, κ1, halloc, hd, hcopy, hdup, rfl, rfl⟩
    simp only [halloc, hd]
    exact bind_eq_ok.mpr ⟨_, hcopy, bind_eq_ok.mpr ⟨_, hdup, rfl⟩⟩

/-- The fields that `fork` writes in the child, and the ones it leaves. -/
structure Forked (κ : Kernel) (p np : Slot) (kstack : Nat) (d : PageDir) (k : Kmem)
    (κ' : Kernel) : Prop where
  kmem : κ'.kmem = k
  nextpid : κ'.nextpid = κ.nextpid + 1
  others : ∀ q ≠ np, κ'.proc q = κ.proc q
  child : κ'.proc np = { κ.proc np with
    state := .RUNNABLE, pid := κ.nextpid, kstack := some kstack, pgdir := some d
    sz := (κ.proc p).sz, parent := some p, eip := (κ.proc p).eip, esp := (κ.proc p).esp
    name := (κ.proc p).name
    ofile := fun fd => ((κ.proc p).ofile fd).or ((κ.proc np).ofile fd) }

theorem forked_of_dupFiles (hne : p ≠ np) {k : Kmem}
    (hdup : dupFiles (κ.embryo p np kstack d k) p np = .ok κ1) :
    Forked κ p np kstack d k (κ1.setProc np { κ1.proc np with state := .RUNNABLE }) := by
  obtain ⟨hkmem, hnext, hothers, hself⟩ := dupFiles_child hne hdup
  refine ⟨hkmem, hnext, fun q hq => ?_, ?_⟩
  · rw [setProc_proc, if_neg hq, hothers q hq, embryo, setProc_proc, if_neg hq]
  · rw [setProc_proc, if_pos rfl, hself]
    simp [embryo, setProc_proc, hne]

theorem fork_alike {P : Nat → Prop}
    (hfirst1 : (κ1.firstProc fun q => q.state == .UNUSED) = some np1)
    (hfirst2 : (κ2.firstProc fun q => q.state == .UNUSED) = some np2)
    (hne1 : p ≠ np1) (hne2 : p ≠ np2) (hproc : κ1.proc p = κ2.proc p)
    (hnext : κ1.nextpid = κ2.nextpid) (hfile : κ1.file = κ2.file) (hmem : Alike P κ1.kmem κ2.kmem)
    (hsz : (κ1.proc p).sz ≤ KERNBASE)
    (hpages : ∀ d, (κ1.proc p).pgdir = some d → d.UserIn (κ1.proc p).sz P)
    (h : fork L κ1 p = .ok (some pid, κ1')) :
    ∃ κ2' kstack d k1 k2 Q, fork L κ2 p = .ok (some pid, κ2') ∧ Forked κ1 p np1 kstack d k1 κ1' ∧
      Forked κ2 p np2 kstack d k2 κ2' ∧ Alike Q k1 k2 ∧ d.UserIn KERNBASE Q := by
  obtain ⟨kstack, k, src, d, k1, κ3, halloc, hd, hcopy, hdup, rfl, rfl⟩ := (fork_eq_some hfirst1).mp h
  obtain ⟨k', halloc', hkk⟩ := hmem.kalloc halloc
  obtain ⟨k2, Q, hcopy', hend, hin⟩ := hkk.copyuvm (hpages src hd) hsz hcopy
  have hofile (κ : Kernel) {np : Slot} (hne : p ≠ np) (k : Kmem) :
      ((κ.embryo p np kstack d k).proc p).ofile = (κ.proc p).ofile := by
    rw [embryo, setProc_proc, if_neg hne]
  have hofile' : ((κ1.embryo p np1 kstack d k1).proc p).ofile =
      ((κ2.embryo p np2 kstack d k2).proc p).ofile := by
    rw [hofile κ1 hne1, hofile κ2 hne2, hproc]
  obtain ⟨κ4, hdup'⟩ := dupFiles_alike (by exact hfile) hofile' hne1 hne2 hdup
  rw [hproc] at hd hcopy'
  exact ⟨_, kstack, d, k1, k2, Q, (fork_eq_some hfirst2).mpr
    ⟨kstack, k', src, d, k2, κ4, halloc', hd, hcopy', hdup', hnext, rfl⟩,
    forked_of_dupFiles hne1 hdup, forked_of_dupFiles hne2 hdup', hend, hin⟩

def SameIdents (κ κ' : Kernel) : Prop :=
  κ'.nextpid = κ.nextpid ∧
    ∀ c, (κ'.proc c).pid = (κ.proc c).pid ∧ (κ'.proc c).killed = (κ.proc c).killed

theorem FilesOnly.sameIdents (h : FilesOnly κ κ') : SameIdents κ κ' := by
  refine ⟨h.nextpid, fun c => ?_⟩
  obtain ⟨ofile, hproc⟩ := h.proc c
  rw [hproc]
  exact ⟨rfl, rfl⟩

theorem SameIdents.setProc {q : Proc} (k : Kmem) (hpid : q.pid = (κ.proc p).pid)
    (hkilled : q.killed = (κ.proc p).killed) :
    SameIdents κ ({ κ with kmem := k }.setProc p q) := by
  refine ⟨rfl, fun c => ?_⟩
  rw [setProc_proc]
  split
  · next hc =>
    rw [hc]
    exact ⟨hpid, hkilled⟩
  · exact ⟨rfl, rfl⟩

theorem exit_sameIdents (h : Inv L (handed L) κ) (hexit : exit L κ p = .ok κ') :
    SameIdents κ κ' := by
  unfold exit at hexit
  split at hexit
  · cases hexit
  obtain ⟨κ1, hclose, hexit⟩ := bind_eq_ok.mp hexit
  have hfiles := (closeFiles_spec hclose h.files).1.only.sameIdents
  simp only at hexit
  split at hexit
  · cases hexit
  obtain ⟨⟨r, d, k⟩, _, hexit⟩ := bind_eq_ok.mp hexit
  cases hexit
  have hreparent : SameIdents κ (κ1.reparent p) := by
    refine ⟨hfiles.1, fun c => ?_⟩
    unfold reparent
    simp only
    split <;> exact hfiles.2 c
  have hzombie := SameIdents.setProc (κ := κ1.reparent p) (p := p)
    (q := { (κ1.reparent p).proc p with pgdir := some d, state := .ZOMBIE }) k rfl rfl
  exact ⟨hzombie.1.trans hreparent.1, fun c =>
    ⟨(hzombie.2 c).1.trans (hreparent.2 c).1, (hzombie.2 c).2.trans (hreparent.2 c).2⟩⟩

/-- What a call does to the pid and the kill mark of a slot. -/
inductive IdentMove (κ κ' : Kernel) (a : Act) (c : Slot) : Prop
  | same (hpid : (κ'.proc c).pid = (κ.proc c).pid) (hkilled : (κ'.proc c).killed = (κ.proc c).killed)
  | fault (addr : Nat) (user : Bool) (ha : a = .fault c addr user)
      (hpid : (κ'.proc c).pid = (κ.proc c).pid)
  | reaped (hpid : (κ'.proc c).pid = 0)

theorem SameIdents.move (h : SameIdents κ κ') (a : Act) (c : Slot) :
    κ'.nextpid = κ.nextpid ∧ IdentMove κ κ' a c :=
  ⟨h.1, .same (h.2 c).1 (h.2 c).2⟩

/-- A call that is not `fork` gives no pid, and only a page fault of the
process itself marks it as killed. -/
theorem step_ident (h : Inv L (handed L) κ) (hbound : κ.Bounded) {a : Act}
    (henabled : κ.Enabled a) (hfork : ∀ p, a ≠ .fork p) (hstep : step L κ a = .ok κ') (c : Slot) :
    κ'.nextpid = κ.nextpid ∧ IdentMove κ κ' a c := by
  cases a with
  | fork p => exact absurd rfl (hfork p)
  | exec p ip path argv =>
    obtain ⟨⟨b, q, k⟩, hexec, hstep⟩ := bind_eq_ok.mp hstep
    cases hstep
    refine (SameIdents.setProc k ?_ ?_).move _ c
    all_goals
      rcases exec_spec hexec with ⟨_, _, g, rfl⟩ | ⟨_, _, _, _, _, _, _, hq, _⟩
      · rfl
      · rw [hq]
  | exit p => exact (exit_sameIdents h hstep).move _ c
  | wait p =>
    obtain ⟨⟨r, κ1⟩, hwait, hstep⟩ := bind_eq_ok.mp hstep
    cases hstep
    unfold wait at hwait
    split at hwait
    · cases hwait
      exact ⟨rfl, .same rfl rfl⟩
    · next z _ =>
      split at hwait
      · cases hwait
      · cases hwait
      · obtain ⟨k1, _, hwait⟩ := bind_eq_ok.mp hwait
        obtain ⟨k2, _, hwait⟩ := bind_eq_ok.mp hwait
        cases hwait
        refine ⟨rfl, ?_⟩
        rcases eq_or_ne c z with rfl | hc
        · exact .reaped (by rw [setProc_proc, if_pos rfl])
        · exact .same (by rw [setProc_proc, if_neg hc]) (by rw [setProc_proc, if_neg hc])
  | sbrk p arg =>
    obtain ⟨⟨r, q, k⟩, hsbrk, hstep⟩ := bind_eq_ok.mp hstep
    cases hstep
    obtain ⟨_, d, _, hd, _⟩ := h.space henabled
    obtain ⟨d', sz, rfl, _⟩ := sysSbrk_space hsbrk hd (hbound p henabled)
    exact (SameIdents.setProc k (by rfl) (by rfl)).move _ c
  | fault p addr user =>
    obtain ⟨⟨r, q, k⟩, hfault, hstep⟩ := bind_eq_ok.mp hstep
    obtain ⟨_, d, _, hd, _⟩ := h.space henabled.1
    have hpid : q.pid = (κ.proc p).pid := by
      rcases pageFault_spec hfault hd (hbound p henabled.1) with ⟨_, _, rfl, _⟩ |
        ⟨_, _, _, rfl, _⟩ | ⟨_, _, _, _, ⟨_, rfl, _⟩ | ⟨_, rfl, _⟩⟩ <;> rfl
    have hmove : SameIdents ({ κ with kmem := k }.setProc p q) κ' := by
      simp only at hstep
      split at hstep
      · exact exit_sameIdents (pageFault_inv h henabled.1 (hbound p henabled.1) hfault).1 hstep
      · cases hstep
        exact ⟨rfl, fun _ => ⟨rfl, rfl⟩⟩
    refine ⟨hmove.1, ?_⟩
    have hc := hmove.2 c
    rw [setProc_proc] at hc
    rcases eq_or_ne c p with rfl | hne
    · rw [if_pos rfl] at hc
      exact .fault addr user rfl (hc.1.trans hpid)
    · rw [if_neg hne] at hc
      exact .same hc.1 hc.2
  | pipe p =>
    obtain ⟨⟨b, κ1⟩, hpipe, hstep⟩ := bind_eq_ok.mp hstep
    cases hstep
    have hfiles := sysPipe_step hpipe h.files (h.free_not_pipe (handed_nodup L))
    exact hfiles.only.sameIdents.move _ c
  | openInode p readable writable =>
    obtain ⟨⟨b, κ1⟩, hopen, hstep⟩ := bind_eq_ok.mp hstep
    cases hstep
    exact (openInode_step hopen h.files).only.sameIdents.move _ c
  | close p fd =>
    obtain ⟨⟨b, κ1⟩, hclose, hstep⟩ := bind_eq_ok.mp hstep
    cases hstep
    exact (sysClose_step hclose h.files).only.sameIdents.move _ c
  | dup p fd =>
    obtain ⟨⟨b, κ1⟩, hdup, hstep⟩ := bind_eq_ok.mp hstep
    cases hstep
    exact (sysDup_step hdup h.files).only.sameIdents.move _ c
  | dup2 p oldfd newfd =>
    obtain ⟨⟨b, κ1⟩, hdup, hstep⟩ := bind_eq_ok.mp hstep
    cases hstep
    exact (sysDup2_step hdup h.files).only.sameIdents.move _ c

theorem fork_ident (hlive : κ.Live p) {r : Option Int} (h : fork L κ p = .ok (r, κ')) (c : Slot) :
    κ.nextpid ≤ κ'.nextpid ∧ (κ'.proc c).killed = (κ.proc c).killed ∧
      ((κ'.proc c).pid = (κ.proc c).pid ∨ (κ'.proc c).pid = κ.nextpid) := by
  have hslot {np : Slot} {k : Kmem} {q : Proc} (hpid : q.pid = κ.nextpid)
      (hkilled : q.killed = (κ.proc np).killed) :
      κ.nextpid ≤ κ.nextpid + 1 ∧
        (({ κ with nextpid := κ.nextpid + 1, kmem := k }.setProc np q).proc c).killed =
          (κ.proc c).killed ∧
        ((({ κ with nextpid := κ.nextpid + 1, kmem := k }.setProc np q).proc c).pid =
            (κ.proc c).pid ∨
          (({ κ with nextpid := κ.nextpid + 1, kmem := k }.setProc np q).proc c).pid =
            κ.nextpid) := by
    rw [setProc_proc]
    split
    · next hc =>
      rw [hc]
      exact ⟨by omega, hkilled, .inr hpid⟩
    · exact ⟨by omega, rfl, .inl rfl⟩
  cases hfirst : κ.firstProc fun q => q.state == .UNUSED with
  | none =>
    unfold fork at h
    rw [hfirst] at h
    cases h
    exact ⟨le_rfl, rfl, .inl rfl⟩
  | some np =>
    have hunused : (κ.proc np).state = .UNUSED := by simpa using firstProc_some hfirst
    have hne : p ≠ np := by
      rintro rfl
      exact (live_ne hlive).1 hunused
    cases r with
    | some pid =>
      obtain ⟨_, _, _, _, _, _, _, _, _, hdup, _, rfl⟩ := (fork_eq_some hfirst).mp h
      have hforked := forked_of_dupFiles hne hdup
      refine ⟨by rw [hforked.nextpid]; omega, ?_⟩
      rcases eq_or_ne c np with rfl | hc
      · rw [hforked.child]
        exact ⟨rfl, .inr rfl⟩
      · rw [hforked.others c hc]
        exact ⟨rfl, .inl rfl⟩
    | none =>
      unfold fork at h
      rw [hfirst] at h
      simp only at h
      split at h
      · cases h
        exact hslot (by rfl) (by rfl)
      · split at h
        · cases h
        · obtain ⟨⟨d', k2⟩, _, h⟩ := bind_eq_ok.mp h
          cases d' with
          | none =>
            obtain ⟨_, _, h⟩ := bind_eq_ok.mp h
            cases h
            exact hslot (by rfl) (by rfl)
          | some d' =>
            obtain ⟨_, _, h⟩ := bind_eq_ok.mp h
            cases h

end Kernel

namespace State

variable {L : Layout} {s s' s1 s2 s1' : State} {p c : Slot}

structure Inv (L : Layout) (s : State) : Prop where
  vm : s.vm.Inv L (handed L)
  nextpid : 0 < s.vm.nextpid

theorem Inv.setProc (h : Inv L s) {q : Proc}
    (hspace : (q.kstack, q.pgdir) = ((s.vm.proc p).kstack, (s.vm.proc p).pgdir))
    (hofile : q.ofile = (s.vm.proc p).ofile)
    (hunused : q.state = .UNUSED ↔ (s.vm.proc p).state = .UNUSED)
    (hzombie : q.state = .ZOMBIE ↔ (s.vm.proc p).state = .ZOMBIE) (task : Slot → Task) :
    Inv L ⟨s.vm.setProc p q, task⟩ :=
  ⟨vm_setProc_inv h.vm hspace hofile hunused hzombie, h.nextpid⟩

theorem Inv.step {a : Act} (h : Inv L s) (hstep : Step L a s s') : Inv L s' := by
  obtain ⟨hbound, henabled, hstep⟩ := hstep
  cases a with
  | fork p =>
    obtain ⟨⟨r, s1⟩, hfork, hstep⟩ := bind_eq_ok.mp hstep
    cases hstep
    have hvm := fork_vm hfork
    exact ⟨fork_inv h.vm henabled (hbound p henabled) hvm,
      h.nextpid.trans_le (fork_ident henabled hvm p).1⟩
  | call a =>
    obtain ⟨vm, hvm, hstep⟩ := bind_eq_ok.mp hstep
    cases hstep
    have hinv := Kernel.step_inv h.vm (handed_nodup L) hbound henabled.1 hvm
    have hnext := (step_ident h.vm hbound henabled.1 henabled.2 hvm a.caller).1
    refine ⟨?_, ?_⟩
    · rw [dropCwd_vm]
      exact hinv
    · rw [dropCwd_vm, hnext]
      exact h.nextpid
  | kill pid =>
    cases hstep
    unfold kill
    split
    · refine h.setProc (by rfl) (by rfl) ?_ ?_ _
      all_goals
        simp only
        split
        · next hsleep => simp [hsleep]
        · rfl
    · exact h
  | setprio pid prio =>
    cases hstep
    unfold setprio
    split
    · exact ⟨h.vm, h.nextpid⟩
    · exact h
  | chdir p ip =>
    cases hstep
    exact ⟨h.vm, h.nextpid⟩
  | user p tf eip esp =>
    cases hstep
    exact h.setProc (by rfl) (by rfl) (by rfl) (by rfl) _

theorem Reached.inv (h : Reached L s) : Inv L s := by
  obtain ⟨ncpu, initcode, κ0, root, hboot, hrun⟩ := h
  refine invariant_of_run (Inv L) hrun ⟨(boot_spec hboot).1, ?_⟩
    fun a b ha ⟨act, hstep⟩ => ha.step hstep
  obtain ⟨_, _, _, _, _, _, _, rfl, _⟩ := boot_spec hboot
  exact (by decide : (0 : Int) < 2)

/-- Neither a `kill` with the pid nor a page fault of the process. -/
def Spares (pid : Int) (c : Slot) : Act → Prop
  | .kill q => q ≠ pid
  | .call (.fault q _ _) => q ≠ c
  | _ => True

/-- The process in slot `c`, as long as it is the one with the pid, is not
marked as killed. -/
structure Unmarked (pid : Int) (c : Slot) (s : State) : Prop where
  pos : 0 < pid
  old : pid < s.vm.nextpid
  killed : (s.vm.proc c).pid = pid → (s.vm.proc c).killed = false

theorem Unmarked.step {a : Act} (h : Unmarked pid c s) (hI : Inv L s)
    (hspares : Spares pid c a) (hstep : Step L a s s') : Unmarked pid c s' := by
  obtain ⟨hbound, henabled, hstep⟩ := hstep
  have hkeep {κ : Kernel} (hnext : s.vm.nextpid ≤ κ.nextpid)
      (hkilled : (κ.proc c).killed = (s.vm.proc c).killed)
      (hpid : (κ.proc c).pid = (s.vm.proc c).pid ∨ (κ.proc c).pid = s.vm.nextpid)
      (task : Slot → Task) : Unmarked pid c ⟨κ, task⟩ := by
    refine ⟨h.pos, h.old.trans_le hnext, fun heq => ?_⟩
    rcases hpid with hpid | hpid
    · exact hkilled.trans (h.killed (hpid.symm.trans heq))
    · have hold := h.old
      rw [← hpid, heq] at hold
      exact absurd hold (lt_irrefl pid)
  cases a with
  | fork p =>
    obtain ⟨⟨r, s1⟩, hfork, hstep⟩ := bind_eq_ok.mp hstep
    cases hstep
    obtain ⟨hnext, hkilled, hpid⟩ := fork_ident henabled (fork_vm hfork) c
    exact hkeep hnext hkilled hpid _
  | call a =>
    obtain ⟨vm, hvm, hstep⟩ := bind_eq_ok.mp hstep
    cases hstep
    obtain ⟨hnext, hmove⟩ := step_ident hI.vm hbound henabled.1 henabled.2 hvm c
    refine ⟨h.pos, ?_, ?_⟩
    · rw [dropCwd_vm, hnext]
      exact h.old
    · rw [dropCwd_vm]
      intro heq
      cases hmove with
      | same hpid hkilled => exact hkilled.trans (h.killed (hpid.symm.trans heq))
      | fault addr user ha _ =>
        rw [ha] at hspares
        exact absurd rfl hspares
      | reaped hpid =>
        have hpos := h.pos
        rw [← heq, hpid] at hpos
        exact absurd hpos (lt_irrefl 0)
  | kill q =>
    cases hstep
    unfold kill
    split
    · next r hfirst =>
      have hr : (s.vm.proc r).pid = q := by simpa using firstProc_some hfirst
      rcases eq_or_ne c r with rfl | hc
      · refine ⟨h.pos, h.old, fun heq => absurd ?_ hspares⟩
        rw [← hr, ← heq]
        simp [setProc_proc]
      · exact hkeep (by exact le_rfl) (by rw [setProc_proc, if_neg hc])
          (Or.inl (by rw [setProc_proc, if_neg hc])) _
    · exact h
  | setprio q prio =>
    cases hstep
    unfold setprio
    split
    · exact hkeep le_rfl rfl (Or.inl rfl) _
    · exact h
  | chdir q ip =>
    cases hstep
    exact hkeep le_rfl rfl (Or.inl rfl) _
  | user q tf eip esp =>
    cases hstep
    refine hkeep (by exact le_rfl) ?_ (Or.inl ?_) _
    all_goals
      rw [setProc_proc]
      split
      · next hc => rw [hc]
      · rfl

/-- The two kernels agree on the calling process, with its memory, and on the
free pages, the file table and the next pid. -/
structure Agree (p : Slot) (s1 s2 : State) : Prop where
  proc : s1.vm.proc p = s2.vm.proc p
  task : s1.task p = s2.task p
  memory : ∀ d, (s1.vm.proc p).pgdir = some d →
    d.UserIn (s1.vm.proc p).sz fun f => s1.vm.kmem.mem f = s2.vm.kmem.mem f
  nextpid : s1.vm.nextpid = s2.vm.nextpid
  freelist : s1.vm.kmem.freelist = s2.vm.kmem.freelist
  file : s1.vm.file = s2.vm.file

/-- The same process but for its slot: all fields, and the contents of its
user pages. -/
structure SameChild (s1 : State) (c1 : Slot) (s2 : State) (c2 : Slot) : Prop where
  proc : s1.vm.proc c1 = s2.vm.proc c2
  task : s1.task c1 = s2.task c2
  memory : ∀ d, (s1.vm.proc c1).pgdir = some d →
    d.UserIn KERNBASE fun f => s1.vm.kmem.mem f = s2.vm.kmem.mem f

/-- What the child with the pid in slot `c` has of its parent, and no mark as
killed before a `kill` with its pid (or a page fault of its own). -/
structure OfParent (L : Layout) (p : Slot) (pid : Int) (c : Slot) (s : State) : Prop where
  files : (s.vm.proc c).ofile = (s.vm.proc p).ofile
  cwd : (s.task c).cwd = (s.task p).cwd
  prio : (s.task c).prio = (s.task p).prio
  guardPage : (s.vm.proc c).guardPage = (s.vm.proc p).guardPage
  killed : ∀ t, ReflTransGen (fun s s' => ∃ a, Spares pid c a ∧ Step L a s s') s t →
    (t.vm.proc c).pid = pid → (t.vm.proc c).killed = false

/-- What is left in the slot that `fork` will take does not show. -/
def Clean (p c : Slot) (s : State) : Prop :=
  (s.vm.proc c).killed = false ∧ (s.vm.proc c).guardPage = (s.vm.proc p).guardPage

theorem fork_task (hfirst : (s.vm.firstProc fun q => q.state == .UNUSED) = some c) (hne : p ≠ c)
    (h : s.fork L p = .ok (some pid, s')) :
    s'.task p = s.task p ∧ s'.task c =
      ⟨Function.update (s.task p).tf .eax 0, (s.task p).cwd, (s.task p).prio⟩ := by
  unfold fork at h
  rw [hfirst] at h
  obtain ⟨⟨r, vm⟩, _, h⟩ := bind_eq_ok.mp h
  cases r with
  | none => cases h
  | some pid =>
    cases h
    simp [setTask, hne]

theorem fork_of_vm (hfirst : (s.vm.firstProc fun q => q.state == .UNUSED) = some c)
    {κ : Kernel} (h : s.vm.fork L p = .ok (some pid, κ)) :
    ∃ s', s.fork L p = .ok (some pid, s') ∧ s'.vm = κ := by
  unfold fork
  rw [hfirst]
  exact ⟨_, bind_eq_ok.mpr ⟨_, h, rfl⟩, rfl⟩

theorem ne_of_first (hlive : s.vm.Live p)
    (hfirst : (s.vm.firstProc fun q => q.state == .UNUSED) = some c) : p ≠ c := by
  have hunused : (s.vm.proc c).state = .UNUSED := by simpa using firstProc_some hfirst
  rintro rfl
  exact (live_ne hlive).1 hunused

theorem fork_pid (hfirst : (s.vm.firstProc fun q => q.state == .UNUSED) = some c)
    (h : s.fork L p = .ok (some pid, s')) : pid = s.vm.nextpid := by
  obtain ⟨_, _, _, _, _, _, _, _, _, _, hpid, _⟩ := (fork_eq_some hfirst).mp (fork_vm h)
  exact hpid

theorem fork_child_pid (hlive : s.vm.Live p)
    (hfirst : (s.vm.firstProc fun q => q.state == .UNUSED) = some c)
    (h : s.fork L p = .ok (some pid, s')) : (s'.vm.proc c).pid = pid := by
  obtain ⟨_, _, _, _, _, _, _, _, _, hdup, hpid, heq⟩ := (fork_eq_some hfirst).mp (fork_vm h)
  rw [heq, (forked_of_dupFiles (ne_of_first hlive hfirst) hdup).child, hpid]

theorem Inv.child_ofile (hI : Inv L s)
    (hfirst : (s.vm.firstProc fun q => q.state == .UNUSED) = some c) :
    (fun fd => ((s.vm.proc p).ofile fd).or ((s.vm.proc c).ofile fd)) = (s.vm.proc p).ofile := by
  have hunused : (s.vm.proc c).state = .UNUSED := by simpa using firstProc_some hfirst
  funext fd
  rw [(hI.vm.proc c).files (Or.inl hunused) fd, Option.or_none]

/-- The child is as its parent exactly when what was left in its slot does
not show. -/
theorem ofParent_iff (hI : Inv L s) (hlive : s.vm.Live p) (hbound : s.vm.Bounded)
    (hfirst : (s.vm.firstProc fun q => q.state == .UNUSED) = some c)
    (h : s.fork L p = .ok (some pid, s')) {k : Kmem}
    (hforked : Kernel.Forked s.vm p c kstack d k s'.vm) (hpid : pid = s.vm.nextpid) :
    OfParent L p pid c s' ↔ Clean p c s := by
  have hne := ne_of_first hlive hfirst
  have hparent := hforked.others p hne
  obtain ⟨htask, hchild⟩ := fork_task hfirst hne h
  constructor
  · intro hof
    have hkilled := hof.killed s' .refl
    have hguard := hof.guardPage
    rw [hforked.child] at hkilled
    rw [hparent, hforked.child] at hguard
    exact ⟨hkilled hpid.symm, hguard⟩
  · rintro ⟨hkilled, hguard⟩
    refine ⟨?_, ?_, ?_, ?_, fun t hrun => ?_⟩
    · rw [hparent, hforked.child]
      exact hI.child_ofile hfirst
    · rw [htask, hchild]
    · rw [htask, hchild]
    · rw [hparent, hforked.child]
      exact hguard
    · have hI' : Inv L s' := hI.step (a := .fork p) ⟨hbound, hlive, bind_eq_ok.mpr ⟨_, h, rfl⟩⟩
      have hnext := hI.nextpid
      have hstart : Unmarked pid c s' := by
        refine ⟨by omega, ?_, fun _ => ?_⟩
        · rw [hforked.nextpid]
          omega
        · rw [hforked.child]
          exact hkilled
      have hend := invariant_of_run (fun t => Inv L t ∧ Unmarked pid c t) hrun ⟨hI', hstart⟩
        fun a b ⟨hIa, hua⟩ ⟨act, hspares, hstep⟩ => ⟨hIa.step hstep, hua.step hIa hspares hstep⟩
      exact hend.2.killed

/-- In two kernels with any history that agree about the caller, a `fork` that
succeeds in the one succeeds in the other. The children are the same, and as
their parent, exactly when in both the slot that is taken holds no kill mark
and the guard page of the caller. -/
theorem fork_child_iff (h1 : Reached L s1) (h2 : Reached L s2) (hbound1 : s1.vm.Bounded)
    (hbound2 : s2.vm.Bounded) (hlive : s1.vm.Live p) (hagree : Agree p s1 s2) {c1 c2 : Slot}
    (hfirst1 : (s1.vm.firstProc fun q => q.state == .UNUSED) = some c1)
    (hfirst2 : (s2.vm.firstProc fun q => q.state == .UNUSED) = some c2) {pid : Int}
    (h : s1.fork L p = .ok (some pid, s1')) :
    ∃ s2', s2.fork L p = .ok (some pid, s2') ∧
      (SameChild s1' c1 s2' c2 ∧ OfParent L p pid c1 s1' ∧ OfParent L p pid c2 s2' ↔
        Clean p c1 s1 ∧ Clean p c2 s2) := by
  have hlive2 : s2.vm.Live p := by
    unfold Kernel.Live at hlive ⊢
    rwa [← hagree.proc]
  have hne1 := ne_of_first hlive hfirst1
  have hne2 := ne_of_first hlive2 hfirst2
  obtain ⟨κ2', kstack, d, k1, k2, Q, hvm, hforked1, hforked2, halike, hin⟩ :=
    fork_alike hfirst1 hfirst2 hne1 hne2 hagree.proc hagree.nextpid hagree.file
      ⟨hagree.freelist, fun _ => id⟩ (hbound1 p hlive) hagree.memory (fork_vm h)
  obtain ⟨s2', hfork2, rfl⟩ := fork_of_vm hfirst2 hvm
  have hpid := fork_pid hfirst1 h
  refine ⟨s2', hfork2, ?_⟩
  rw [ofParent_iff h1.inv hlive hbound1 hfirst1 h hforked1 hpid,
    ofParent_iff h2.inv hlive2 hbound2 hfirst2 hfork2 hforked2 (hpid.trans hagree.nextpid)]
  refine ⟨And.right, fun hclean => ⟨?_, hclean⟩⟩
  obtain ⟨⟨hkilled1, hguard1⟩, hkilled2, hguard2⟩ := hclean
  refine ⟨?_, ?_, fun d' hd' => ?_⟩
  · rw [hforked1.child, hforked2.child, h1.inv.child_ofile hfirst1, h2.inv.child_ofile hfirst2]
    simp only [hkilled1, hkilled2, hguard1, hguard2, hagree.proc, hagree.nextpid]
  · rw [(fork_task hfirst1 hne1 h).2, (fork_task hfirst2 hne2 hfork2).2, hagree.task]
  · rw [hforked1.child] at hd'
    cases hd'
    intro x hx hxs e he
    show s1'.vm.kmem.mem e.addr = s2'.vm.kmem.mem e.addr
    rw [hforked1.kmem, hforked2.kmem]
    exact halike.mem _ (hin x hx hxs e he)

/-- The first `fork` after boot, in a kernel that differs from that behind boot
at most by marks and priorities in unused slots. -/
theorem first_fork (hboot : boot Kernel.smallLayout 1 [0xEB, 0xFE] = .ok κ0)
    (hfirst : (s.vm.firstProc fun q => q.state == .UNUSED) = some c)
    (hproc : s.vm.proc κ0.initproc = κ0.proc κ0.initproc) (hkmem : s.vm.kmem = κ0.kmem) :
    ∃ pid s', s.fork Kernel.smallLayout κ0.initproc = .ok (some pid, s') := by
  obtain ⟨kstack, d, _, hinit, _, hfree, _⟩ := boot_first hboot
  rw [hinit] at hproc
  have hlive : s.vm.Live κ0.initproc := by
    unfold Kernel.Live
    rw [hproc]
    rfl
  have hsz : (s.vm.proc κ0.initproc).sz = PGSIZE := by
    rw [hproc]
    rfl
  obtain ⟨pid, κ, hvm, _⟩ := fork_ok Kernel.smallLayout hfirst (ne_of_first hlive hfirst)
    (by rw [hproc]; rfl) (by rw [hsz]; decide) (fun fd => by rw [hproc]; rfl) (by
      rw [hsz, hkmem, show pagesBetween 0 PGSIZE = 1 by decide]
      omega)
  obtain ⟨s', hfork, _⟩ := fork_of_vm hfirst hvm
  exact ⟨pid, s', hfork⟩

theorem start_reached (hboot : boot Kernel.smallLayout 1 [0xEB, 0xFE] = .ok κ0) :
    Reached Kernel.smallLayout (start κ0 1) :=
  ⟨1, _, κ0, 1, hboot, .refl⟩

theorem start_live (hinit : κ0.proc κ0.initproc = firstProcess kstack d) :
    (start κ0 1).vm.Live κ0.initproc := by
  unfold Kernel.Live start
  rw [hinit]
  rfl

/-- The first slot without a process is the first one with pid 0. -/
theorem first_pid_zero (hinit : κ0.proc κ0.initproc = firstProcess kstack d)
    (hothers : ∀ q, q ≠ κ0.initproc → κ0.proc q = Proc.zero)
    (hfirst : (κ0.firstProc fun q => q.state == .UNUSED) = some c) :
    (κ0.firstProc fun q => q.pid == 0) = some c := by
  rw [← hfirst]
  refine firstProc_congr fun q => ?_
  rcases eq_or_ne q κ0.initproc with rfl | hq
  · rw [hinit]
    rfl
  · rw [hothers q hq]
    rfl

/-- `setprio(0, HI_PRIO)` changes the priority in the slot of the first child,
and the child is the same. -/
theorem fork_child_setprio : ∃ s1 s2 s1' s2' : State, ∃ p c pid,
    s2 = s1.setprio 0 HI_PRIO ∧ s1.task c ≠ s2.task c ∧
      s1.fork Kernel.smallLayout p = .ok (some pid, s1') ∧
      s2.fork Kernel.smallLayout p = .ok (some pid, s2') ∧ SameChild s1' c s2' c ∧
      OfParent Kernel.smallLayout p pid c s1' ∧ OfParent Kernel.smallLayout p pid c s2' := by
  obtain ⟨κ0, hboot⟩ := smallLayout_boots 1 (by decide)
  obtain ⟨kstack, d, _, hinit, _, _, hothers⟩ := boot_first hboot
  obtain ⟨c, hfirst⟩ := exists_unused hothers
  have hlive := start_live hinit
  have hne := ne_of_first hlive hfirst
  have hsetprio : (start κ0 1).setprio 0 HI_PRIO =
      (start κ0 1).setTask c fun t => { t with prio := HI_PRIO } := by
    unfold setprio
    rw [show ((start κ0 1).vm.firstProc fun q => q.pid == 0) = some c from
      first_pid_zero hinit hothers hfirst]
  have hreach : Reached Kernel.smallLayout
      ((start κ0 1).setTask c fun t => { t with prio := HI_PRIO }) :=
    ⟨1, _, κ0, 1, hboot, .single ⟨.setprio 0 HI_PRIO, boot_bounded hboot, trivial,
      congrArg Except.ok hsetprio⟩⟩
  obtain ⟨pid, s', hfork⟩ := first_fork (s := start κ0 1) hboot hfirst rfl rfl
  have hagree : Agree κ0.initproc (start κ0 1)
      ((start κ0 1).setTask c fun t => { t with prio := HI_PRIO }) :=
    ⟨rfl, (Function.update_of_ne hne _ _).symm, fun _ _ _ _ _ _ _ => rfl, rfl, rfl, rfl⟩
  have hclean : Clean κ0.initproc c (start κ0 1) := by
    unfold Clean start
    rw [hothers c hne.symm, hinit]
    exact ⟨rfl, rfl⟩
  obtain ⟨s2', hfork2, hiff⟩ := fork_child_iff (start_reached hboot) hreach
    (boot_bounded hboot) (boot_bounded hboot) hlive hagree hfirst hfirst hfork
  refine ⟨_, _, s', s2', κ0.initproc, c, pid, hsetprio.symm, fun heq => ?_, hfork, hfork2,
    hiff.mpr ⟨hclean, hclean⟩⟩
  have hprio := congrArg Task.prio heq
  unfold setTask start at hprio
  dsimp only at hprio
  rw [Function.update_self, Function.update_of_ne hne.symm] at hprio
  cases hprio

/-- After `kill(0)`, which marks the first slot that was never used, the first
child is born with the mark. -/
theorem fork_inherits_kill : ∃ s1 s2 s1' s2' : State, ∃ p c pid,
    Reached Kernel.smallLayout s1 ∧ s2 = s1.kill 0 ∧ Reached Kernel.smallLayout s2 ∧
      Agree p s1 s2 ∧ s1.fork Kernel.smallLayout p = .ok (some pid, s1') ∧
      s2.fork Kernel.smallLayout p = .ok (some pid, s2') ∧ (s1'.vm.proc c).killed = false ∧
      (s2'.vm.proc c).killed = true ∧ ¬ SameChild s1' c s2' c ∧
      ¬ OfParent Kernel.smallLayout p pid c s2' := by
  obtain ⟨κ0, hboot⟩ := smallLayout_boots 1 (by decide)
  obtain ⟨kstack, d, _, hinit, _, _, hothers⟩ := boot_first hboot
  obtain ⟨c, hfirst⟩ := exists_unused hothers
  have hlive := start_live hinit
  have hne := ne_of_first hlive hfirst
  have hpid := first_pid_zero hinit hothers hfirst
  have hkill : (start κ0 1).kill 0 =
      ⟨κ0.setProc c { Proc.zero with killed := true }, (start κ0 1).task⟩ := by
    unfold kill start
    simp only [hpid, hothers c hne.symm]
    rfl
  have hproc (q : Slot) (hq : q ≠ c) : ((start κ0 1).kill 0).vm.proc q = κ0.proc q := by
    rw [hkill]
    exact (setProc_proc _ _ _ _).trans (if_neg hq)
  have hmarked : (((start κ0 1).kill 0).vm.proc c) = { Proc.zero with killed := true } := by
    rw [hkill]
    exact (setProc_proc _ _ _ _).trans (if_pos rfl)
  have hfirst2 : (((start κ0 1).kill 0).vm.firstProc fun q => q.state == .UNUSED) = some c := by
    rw [← hfirst]
    refine firstProc_congr fun q => ?_
    rcases eq_or_ne q c with rfl | hq
    · rw [hmarked, hothers q hne.symm]
    · rw [hproc q hq]
  have hkmem : ((start κ0 1).kill 0).vm.kmem = κ0.kmem := by rw [hkill]; rfl
  have hagree : Agree κ0.initproc (start κ0 1) ((start κ0 1).kill 0) := by
    refine ⟨(hproc _ hne).symm, by rw [hkill], fun _ _ _ _ _ _ _ => ?_, by rw [hkill]; rfl,
      by rw [hkmem]; rfl, by rw [hkill]; rfl⟩
    rw [hkmem]
    rfl
  obtain ⟨pid, s1', hfork1⟩ := first_fork (s := start κ0 1) hboot hfirst rfl rfl
  obtain ⟨pid2, s2', hfork2⟩ := first_fork (s := (start κ0 1).kill 0) hboot hfirst2 (hproc _ hne) hkmem
  have hpid1 := fork_pid hfirst hfork1
  have hpid2 := fork_pid hfirst2 hfork2
  rw [← hagree.nextpid, ← hpid1] at hpid2
  subst hpid2
  have hlive2 : ((start κ0 1).kill 0).vm.Live κ0.initproc := by
    unfold Kernel.Live
    rw [hproc _ hne]
    exact hlive
  have hkilled1 : (s1'.vm.proc c).killed = false := by
    rw [(fork_ident hlive (fork_vm hfork1) c).2.1]
    exact congrArg Proc.killed (hothers c hne.symm)
  have hkilled2 : (s2'.vm.proc c).killed = true := by
    rw [(fork_ident hlive2 (fork_vm hfork2) c).2.1, hmarked]
  have hreach2 : Reached Kernel.smallLayout ((start κ0 1).kill 0) :=
    ⟨1, _, κ0, 1, hboot, .single ⟨.kill 0, boot_bounded hboot, trivial, rfl⟩⟩
  refine ⟨_, _, s1', s2', κ0.initproc, c, pid2, start_reached hboot, rfl, hreach2, hagree, hfork1,
    hfork2, hkilled1, hkilled2, fun hsame => ?_, fun hof => ?_⟩
  · rw [hsame.proc, hkilled2] at hkilled1
    cases hkilled1
  · have hclear := hof.killed s2' .refl (fork_child_pid hlive2 hfirst2 hfork2)
    rw [hkilled2] at hclear
    cases hclear

end State

end Xv6.Vm

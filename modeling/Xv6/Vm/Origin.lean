import Xv6.Vm.Ownership

/-!
Where the memory of a process comes from. After a call, a live process has
the memory it had before, or it is the child of a `fork`, or it is the caller
of `exec`, `sbrk` or the subject of a page fault. Invariants of single
processes are proved case by case over this list.
-/

namespace Xv6.Vm

open Lib
open Sched (Slot ProcState)

/-- The fields that decide about the memory of a process are unchanged. -/
structure SameMem (q q' : Proc) : Prop where
  sz : q'.sz = q.sz
  pgdir : q'.pgdir = q.pgdir
  guardPage : q'.guardPage = q.guardPage
  state : q'.state = q.state

namespace Kernel

/-- The calls that change the memory of `q` itself. -/
def Act.Remaps (q : Slot) : Act → Prop
  | .exec p _ _ _ | .sbrk p _ | .fault p _ _ => q = p
  | _ => False

/-- How process `q`, live behind a call, got its memory. -/
inductive Origin (L : Layout) (κ κ' : Kernel) (q : Slot) : Act → Prop
  | same {a : Act} (hnot : ¬ a.Remaps q) (hlive : κ.Live q)
      (hsame : SameMem (κ.proc q) (κ'.proc q)) : Origin L κ κ' q a
  | fork {p : Slot} {d d' : PageDir} (hlive : κ.Live p)
      (hfirst : (κ.firstProc fun q => q.state == .UNUSED) = some q)
      (hd : (κ.proc p).pgdir = some d) (hd' : (κ'.proc q).pgdir = some d')
      (hcopy : UserCopy d d' (κ.proc p).sz) (hsz : (κ'.proc q).sz = (κ.proc p).sz)
      (hguard : (κ'.proc q).guardPage = (κ.proc q).guardPage) : Origin L κ κ' q (.fork p)
  | exec {ip : Option (List UInt8)} {path : List UInt8} {argv : List (List UInt8)} {b : Bool}
      (hlive : κ.Live q)
      (hexec : Vm.exec L κ.kmem (κ.proc q) ip path argv = .ok (b, κ'.proc q, κ'.kmem)) :
      Origin L κ κ' q (.exec q ip path argv)
  | sbrk {arg : Option (BitVec 32)} {r : Option Nat} (hlive : κ.Live q)
      (hsbrk : sysSbrk L κ.kmem (κ.proc q) arg = .ok (r, κ'.proc q, κ'.kmem)) :
      Origin L κ κ' q (.sbrk q arg)
  | fault {addr : Nat} {user : Bool} {r : Fault} (hlive : κ.Live q)
      (hfault : pageFault L κ.kmem (κ.proc q) addr = .ok (r, κ'.proc q, κ'.kmem)) :
      Origin L κ κ' q (.fault q addr user)

section

variable {L : Layout} {handed : Multiset Nat} {κ κ' : Kernel} {p q : Slot}

theorem Origin.of_eq {a : Act} (hnot : ¬ a.Remaps q) (hlive : κ'.Live q)
    (heq : κ'.proc q = κ.proc q) : Origin L κ κ' q a := by
  refine .same hnot ?_ (by rw [heq]; exact ⟨rfl, rfl, rfl, rfl⟩)
  unfold Live at *
  rwa [← heq]

theorem FilesOnly.sameMem (h : FilesOnly κ κ') (q : Slot) : SameMem (κ.proc q) (κ'.proc q) := by
  obtain ⟨o, ho⟩ := h.proc q
  rw [ho]
  exact ⟨rfl, rfl, rfl, rfl⟩

theorem Origin.of_sameMem {a : Act} (hnot : ¬ a.Remaps q) (hlive : κ'.Live q)
    (hsame : SameMem (κ.proc q) (κ'.proc q)) : Origin L κ κ' q a :=
  .same hnot (hsame.state.symm.trans hlive) hsame

theorem exit_others (h : Inv L handed κ) (hexit : exit L κ p = .ok κ') :
    ¬ κ'.Live p ∧ ∀ q ≠ p, SameMem (κ.proc q) (κ'.proc q) := by
  unfold exit at hexit
  split at hexit
  · cases hexit
  obtain ⟨κ1, hclose, hexit⟩ := bind_eq_ok.mp hexit
  have hfiles := (closeFiles_spec hclose h.files).1.only
  simp only at hexit
  split at hexit
  · cases hexit
  obtain ⟨⟨r, d, k⟩, _, hexit⟩ := bind_eq_ok.mp hexit
  cases hexit
  refine ⟨?_, fun q hq => ?_⟩
  · unfold Live
    rw [setProc_proc, if_pos rfl]
    simp
  · obtain ⟨hsz, hpgdir, hguard, hstate⟩ := hfiles.sameMem q
    rw [setProc_proc, if_neg hq]
    unfold reparent
    simp only
    split <;> exact ⟨hsz, hpgdir, hguard, hstate⟩

theorem wait_others {r : Option Int} (hwait : wait L κ p = .ok (r, κ')) (hlive : κ'.Live q) :
    κ'.proc q = κ.proc q := by
  unfold wait at hwait
  split at hwait
  · cases hwait
    rfl
  · next c hfirst =>
    split at hwait
    · cases hwait
    · cases hwait
    · obtain ⟨k1, _, hwait⟩ := bind_eq_ok.mp hwait
      obtain ⟨k2, _, hwait⟩ := bind_eq_ok.mp hwait
      cases hwait
      unfold Live at hlive
      rw [setProc_proc] at hlive ⊢
      split
      · next hq =>
        rw [if_pos hq] at hlive
        cases hlive
      · rfl

theorem fork_origin (h : Inv L handed κ) (hlive : κ.Live p) (hsz : (κ.proc p).sz ≤ KERNBASE)
    {r : Option Int} (hfork : fork L κ p = .ok (r, κ')) (hq : κ'.Live q) :
    Origin L κ κ' q (.fork p) := by
  obtain ⟨_, d, _, hd, _⟩ := h.space hlive
  obtain rfl | ⟨np, hfirst, hnp, ⟨q', k, rfl, hunused, _, _⟩ |
    ⟨kstack, d', k, κ1, _, _, hcopy, hdup, rfl⟩⟩ := fork_cases hd hsz hfork
  · exact .of_eq id hq rfl
  · by_cases hne : q = np
    · unfold Live at hq
      rw [setProc_proc, if_pos hne, hunused] at hq
      cases hq
    · exact .of_eq id hq (by rw [setProc_proc, if_neg hne])
  · have hbase := (h.nextpid (κ.nextpid + 1)).files
    have hfiles := (dupFiles_spec hdup (by exact hbase.setProc k rfl) (by
      intro fd
      rw [setProc_proc, if_pos rfl]
      exact (h.proc np).files (Or.inl hnp) fd)).1
    by_cases hne : q = np
    · subst hne
      obtain ⟨hsz', hpgdir, hguard, _⟩ := hfiles.only.sameMem q
      rw [setProc_proc, if_pos rfl] at hsz' hpgdir hguard
      refine .fork hlive hfirst hd ?_ hcopy ?_ ?_
      all_goals rw [setProc_proc, if_pos rfl]
      · exact hpgdir
      · exact hsz'
      · exact hguard
    · refine .of_eq id hq ?_
      rw [setProc_proc, if_neg hne, hfiles.others q hne, setProc_proc, if_neg hne]

theorem dupFiles_none {np : Slot} (hfiles : ∀ fd, (κ.proc p).ofile fd = none) :
    dupFiles κ p np = .ok κ := by
  unfold dupFiles
  induction List.finRange NOFILE with
  | nil => rfl
  | cons fd rest ih =>
    rw [List.foldlM_cons, hfiles fd]
    exact ih

theorem exists_unused (hothers : ∀ q ≠ p, κ.proc q = Proc.zero) :
    ∃ np, (κ.firstProc fun q => q.state == .UNUSED) = some np := by
  refine Option.isSome_iff_exists.mp (List.find?_isSome.mpr ?_)
  obtain ⟨q, hq⟩ : ∃ q : Slot, q ≠ p := by
    by_cases hp : p = ⟨0, NPROC_pos⟩
    · exact ⟨⟨1, by decide⟩, by rw [hp]; decide⟩
    · exact ⟨_, fun h => hp h.symm⟩
  exact ⟨q, List.mem_finRange q, by rw [hothers q hq]; rfl⟩

theorem fork_ok (L : Layout) {np : Slot} {d : PageDir}
    (hfirst : (κ.firstProc fun q => q.state == .UNUSED) = some np) (hne : p ≠ np)
    (hd : (κ.proc p).pgdir = some d) (hsz : (κ.proc p).sz ≤ KERNBASE)
    (hfiles : ∀ fd, (κ.proc p).ofile fd = none)
    (hfree : 68 + 2 * pagesBetween 0 (κ.proc p).sz ≤ κ.kmem.freelist.length) :
    ∃ pid κ', fork L κ p = .ok (some pid, κ') ∧ κ'.Live np ∧ κ.kmem.freelist.length ≤
        κ'.kmem.freelist.length + (68 + 2 * pagesBetween 0 (κ.proc p).sz) := by
  obtain ⟨kstack, k1, halloc, hlen1⟩ := kalloc_ok (k := κ.kmem) (by omega)
  obtain ⟨d', k2, hcopy, hlen2⟩ := copyuvm_ok L d (k := k1) hsz (by omega)
  unfold fork
  simp only [hfirst, halloc, hd]
  refine ⟨κ.nextpid, _, bind_eq_ok.mpr ⟨_, hcopy, bind_eq_ok.mpr ⟨_, dupFiles_none ?_, rfl⟩⟩, ?_, ?_⟩
  · intro fd
    rw [setProc_proc, if_neg hne]
    exact hfiles fd
  · unfold Live
    rw [setProc_proc, if_pos rfl]
  · change _ ≤ k2.freelist.length + _
    omega

/-- Every live process behind a call has one of the origins. -/
theorem step_origin (h : Inv L handed κ) (hnodup : handed.Nodup) (hbound : κ.Bounded) {a : Act}
    (henabled : κ.Enabled a) (hstep : step L κ a = .ok κ') (hq : κ'.Live q) :
    Origin L κ κ' q a := by
  -- the caller's entry is replaced
  have hset {p : Slot} {q' : Proc} {k : Kmem} {a : Act} (hremaps : ¬ q = p → ¬ a.Remaps q)
      (hκ : κ' = { κ with kmem := k }.setProc p q')
      (hcase : q = p → κ'.proc q = q' → κ'.kmem = k → Origin L κ κ' q a) : Origin L κ κ' q a := by
    by_cases hne : q = p
    · exact hcase hne (by rw [hκ, setProc_proc, if_pos hne]) (by rw [hκ]; rfl)
    · exact .of_eq (hremaps hne) hq (by rw [hκ, setProc_proc, if_neg hne])
  cases a with
  | fork p =>
    obtain ⟨⟨r, κ1⟩, hfork, hstep⟩ := bind_eq_ok.mp hstep
    cases hstep
    exact fork_origin h henabled (hbound p henabled) hfork hq
  | exec p ip path argv =>
    obtain ⟨⟨b, q', k⟩, hexec, hstep⟩ := bind_eq_ok.mp hstep
    refine hset id (Except.ok.inj hstep).symm fun hp hproc hkmem => ?_
    subst hp
    exact .exec henabled (by rw [hproc, hkmem]; exact hexec)
  | sbrk p arg =>
    obtain ⟨⟨r, q', k⟩, hsbrk, hstep⟩ := bind_eq_ok.mp hstep
    refine hset id (Except.ok.inj hstep).symm fun hp hproc hkmem => ?_
    subst hp
    exact .sbrk henabled (by rw [hproc, hkmem]; exact hsbrk)
  | fault p addr user =>
    obtain ⟨⟨r, q', k⟩, hfault, hstep⟩ := bind_eq_ok.mp hstep
    simp only at hstep
    split at hstep
    · obtain ⟨hinv, _⟩ := pageFault_inv h henabled.1 (hbound p henabled.1) hfault
      obtain ⟨hdead, hothers⟩ := exit_others hinv hstep
      have hne : q ≠ p := by
        rintro rfl
        exact hdead hq
      have hsame := hothers q hne
      rw [setProc_proc, if_neg hne] at hsame
      exact .of_sameMem hne hq hsame
    · refine hset id (Except.ok.inj hstep).symm fun hp hproc hkmem => ?_
      subst hp
      exact .fault henabled.1 (by rw [hproc, hkmem]; exact hfault)
  | exit p =>
    obtain ⟨hdead, hothers⟩ := exit_others h hstep
    have hne : q ≠ p := by
      rintro rfl
      exact hdead hq
    exact .of_sameMem id hq (hothers q hne)
  | wait p =>
    obtain ⟨⟨r, κ1⟩, hwait, hstep⟩ := bind_eq_ok.mp hstep
    cases hstep
    exact .of_eq id hq (wait_others hwait hq)
  | pipe p =>
    obtain ⟨⟨b, κ1⟩, hpipe, hstep⟩ := bind_eq_ok.mp hstep
    cases hstep
    exact .of_sameMem id hq ((sysPipe_step hpipe h.files (h.free_not_pipe hnodup)).only.sameMem q)
  | openInode p readable writable =>
    obtain ⟨⟨b, κ1⟩, hopen, hstep⟩ := bind_eq_ok.mp hstep
    cases hstep
    exact .of_sameMem id hq ((openInode_step hopen h.files).only.sameMem q)
  | close p fd =>
    obtain ⟨⟨b, κ1⟩, hclose, hstep⟩ := bind_eq_ok.mp hstep
    cases hstep
    exact .of_sameMem id hq ((sysClose_step hclose h.files).only.sameMem q)
  | dup p fd =>
    obtain ⟨⟨b, κ1⟩, hdup, hstep⟩ := bind_eq_ok.mp hstep
    cases hstep
    exact .of_sameMem id hq ((sysDup_step hdup h.files).only.sameMem q)
  | dup2 p oldfd newfd =>
    obtain ⟨⟨b, κ1⟩, hdup, hstep⟩ := bind_eq_ok.mp hstep
    cases hstep
    exact .of_sameMem id hq ((sysDup2_step hdup h.files).only.sameMem q)

end

end Kernel

end Xv6.Vm

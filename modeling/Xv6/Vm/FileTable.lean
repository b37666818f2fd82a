import Xv6.Lib.Except
import Xv6.Lib.Ledger
import Xv6.Vm.Kernel

/-!
References to open files, and the pipes behind them. `refs κ f` counts the
descriptors of all processes that point to `f`; between the steps of one call
the reference count of a file is off by what the call still has to do, which
the invariant carries as a balance. A pipe is open exactly as long as a file
refers to one of its ends.
-/

namespace Xv6.Vm

open Finset Lib Function List Multiset
open Sched (Slot ProcState)

/-- The end of the pipe that is written, or read, is open. -/
def Pipe.isOpen (p : Pipe) (writable : Bool) : Bool :=
  if writable then p.writeopen else p.readopen

theorem closeEnd_page (p : Pipe) (w : Bool) : (p.closeEnd w).page = p.page := by
  cases w <;> rfl

theorem closeEnd_isOpen (p : Pipe) (w w' : Bool) :
    (p.closeEnd w).isOpen w' = (p.isOpen w' && w' != w) := by
  cases w <;> cases w' <;> simp [Pipe.closeEnd, Pipe.isOpen]

variable {κ κ' : Kernel} {f : FileIdx} {L : Layout} {p : Slot} {b : Bool}

namespace Kernel

/-- Descriptors of one process that point to `f`. -/
def fdRefs (ofile : Fin NOFILE → Option FileIdx) (f : FileIdx) : ℤ :=
  ∑ fd, if ofile fd = some f then 1 else 0

def refs (κ : Kernel) (f : FileIdx) : ℤ := ∑ p, fdRefs (κ.proc p).ofile f

/-- File `f` is an end of the pipe in page `pa`. -/
def IsEnd (κ : Kernel) (f : FileIdx) (pa : Nat) (writable : Bool) : Prop :=
  (κ.file f).type = .FD_PIPE ∧ (κ.file f).pipe = pa ∧ (κ.file f).writable = writable

structure PipesOk (κ : Kernel) : Prop where
  closed : ∀ f, (κ.file f).ref = 0 → (κ.file f).type = .FD_NONE
  ends : ∀ pa w, (∃ f, κ.IsEnd f pa w) ↔ ∃ p ∈ κ.pipes, p.page = pa ∧ p.isOpen w = true
  unique : ∀ f g pa w, κ.IsEnd f pa w → κ.IsEnd g pa w → f = g
  live : ∀ p ∈ κ.pipes, ∃ w, p.isOpen w = true
  nodup : (κ.pipes.map Pipe.page).Nodup

def pipePages (κ : Kernel) : Multiset Nat := (κ.pipes.map Pipe.page : List Nat)

/-- The file table agrees with the descriptors up to a balance. -/
structure FilesOk (κ : Kernel) (balance : FileIdx → ℤ) : Prop where
  pipes : κ.PipesOk
  refs : ∀ f, ((κ.file f).ref : ℤ) = κ.refs f + balance f

/-- What a call on the file table does not touch: everything but files, pipes
and the pages pipes hold. -/
structure FilesOnly (κ κ' : Kernel) : Prop where
  kpgdir : κ'.kpgdir = κ.kpgdir
  cpuStacks : κ'.cpuStacks = κ.cpuStacks
  nextpid : κ'.nextpid = κ.nextpid
  initproc : κ'.initproc = κ.initproc
  proc : ∀ p, ∃ ofile, κ'.proc p = { κ.proc p with ofile := ofile }
  pages : κ'.kmem.free + κ'.pipePages = κ.kmem.free + κ.pipePages

theorem FilesOnly.refl (κ : Kernel) : FilesOnly κ κ :=
  ⟨rfl, rfl, rfl, rfl, fun p => ⟨(κ.proc p).ofile, rfl⟩, rfl⟩

theorem FilesOnly.trans {κ1 : Kernel} (h : FilesOnly κ κ1) (h' : FilesOnly κ1 κ') :
    FilesOnly κ κ' where
  kpgdir := h'.kpgdir.trans h.kpgdir
  cpuStacks := h'.cpuStacks.trans h.cpuStacks
  nextpid := h'.nextpid.trans h.nextpid
  initproc := h'.initproc.trans h.initproc
  proc p := by
    obtain ⟨o, ho⟩ := h.proc p
    obtain ⟨o', ho'⟩ := h'.proc p
    exact ⟨o', by rw [ho', ho]⟩
  pages := h'.pages.trans h.pages

theorem filesOnly_setFile (κ : Kernel) (f : FileIdx) (x : File) : FilesOnly κ (κ.setFile f x) :=
  ⟨rfl, rfl, rfl, rfl, fun p => ⟨(κ.proc p).ofile, rfl⟩, rfl⟩

theorem filesOnly_setFd (κ : Kernel) (p : Slot) (fd : Fin NOFILE) (f : Option FileIdx) :
    FilesOnly κ (κ.setFd p fd f) := by
  refine ⟨rfl, rfl, rfl, rfl, fun q => ?_, rfl⟩
  by_cases hq : q = p
  · subst hq
    exact ⟨update (κ.proc q).ofile fd f, by simp [setFd, setProc]⟩
  · exact ⟨(κ.proc q).ofile, by simp [setFd, setProc, hq]⟩

def unit (f g : FileIdx) : ℤ := if g = f then 1 else 0

/-- The balance of the file a descriptor points to, if any. -/
def optUnit (x : Option FileIdx) (g : FileIdx) : ℤ := if x = some g then 1 else 0

theorem refs_setFd (κ : Kernel) (p : Slot) (fd : Fin NOFILE) (x : Option FileIdx) (g : FileIdx) :
    (κ.setFd p fd x).refs g = κ.refs g + optUnit x g - optUnit ((κ.proc p).ofile fd) g := by
  have hproc : fdRefs (update (κ.proc p).ofile fd x) g =
      fdRefs (κ.proc p).ofile g + optUnit x g - optUnit ((κ.proc p).ofile fd) g := by
    unfold fdRefs optUnit
    rw [← add_sum_erase univ _ (mem_univ fd),
      ← add_sum_erase univ (fun fd => if (κ.proc p).ofile fd = some g then (1 : ℤ) else 0)
        (mem_univ fd)]
    have hrest : ∑ i ∈ univ.erase fd,
        (if update (κ.proc p).ofile fd x i = some g then (1 : ℤ) else 0) =
        ∑ i ∈ univ.erase fd, if (κ.proc p).ofile i = some g then 1 else 0 := by
      refine sum_congr rfl fun i hi => ?_
      rw [update_of_ne (ne_of_mem_erase hi)]
    rw [hrest, update_self]
    ring
  unfold refs
  rw [← add_sum_erase univ _ (mem_univ p),
    ← add_sum_erase univ (fun q => fdRefs (κ.proc q).ofile g) (mem_univ p)]
  have hrest : ∑ q ∈ univ.erase p, fdRefs ((κ.setFd p fd x).proc q).ofile g =
      ∑ q ∈ univ.erase p, fdRefs (κ.proc q).ofile g := by
    refine sum_congr rfl fun q hq => ?_
    simp [setFd, setProc, ne_of_mem_erase hq]
  rw [hrest]
  simp only [setFd, setProc, update_self]
  rw [hproc]
  ring

theorem PipesOk.setFd (h : κ.PipesOk) (p : Slot) (fd : Fin NOFILE)
    (x : Option FileIdx) : (κ.setFd p fd x).PipesOk :=
  ⟨h.closed, h.ends, h.unique, h.live, h.nodup⟩

theorem FilesOk.setFd {balance : FileIdx → ℤ} (h : κ.FilesOk balance) (p : Slot)
    (fd : Fin NOFILE) (x : Option FileIdx) :
    (κ.setFd p fd x).FilesOk fun g =>
      balance g + optUnit ((κ.proc p).ofile fd) g - optUnit x g := by
  refine ⟨h.pipes.setFd p fd x, fun g => ?_⟩
  rw [refs_setFd]
  have hg := h.refs g
  change ((κ.file g).ref : ℤ) = _
  rw [hg]
  ring

theorem setFile_file (κ : Kernel) (f g : FileIdx) (x : File) :
    (κ.setFile f x).file g = if g = f then x else κ.file g := by
  by_cases hg : g = f
  · subst hg
    simp [setFile]
  · simp [setFile, hg]

theorem FilesOk.setFile {balance : FileIdx → ℤ} (h : κ.FilesOk balance) (f : FileIdx)
    (x : File) (hclosed : x.ref = 0 → x.type = .FD_NONE)
    (hsame : ∀ pa w, (x.type = .FD_PIPE ∧ x.pipe = pa ∧ x.writable = w) ↔ κ.IsEnd f pa w) :
    (κ.setFile f x).FilesOk fun g => balance g + ((x.ref : ℤ) - (κ.file f).ref) * unit f g := by
  have hend (g : FileIdx) (pa : Nat) (w : Bool) :
      (κ.setFile f x).IsEnd g pa w ↔ κ.IsEnd g pa w := by
    unfold IsEnd
    rw [setFile_file]
    by_cases hg : g = f
    · rw [if_pos hg, hg]
      exact hsame pa w
    · rw [if_neg hg]
  refine ⟨⟨?_, ?_, ?_, h.pipes.live, h.pipes.nodup⟩, ?_⟩
  · intro g hg
    rw [setFile_file] at hg ⊢
    split at hg
    · next heq =>
      rw [if_pos heq]
      exact hclosed hg
    · next hne =>
      rw [if_neg hne]
      exact h.pipes.closed g hg
  · intro pa w
    simp only [hend]
    exact h.pipes.ends pa w
  · intro g g' pa w hg hg'
    exact h.pipes.unique g g' pa w ((hend g pa w).mp hg) ((hend g' pa w).mp hg')
  · intro g
    have hg := h.refs g
    rw [setFile_file]
    change _ = κ.refs g + _
    by_cases heq : g = f
    · subst heq
      simp only [if_true, unit]
      omega
    · simp only [heq, if_false, unit, mul_zero, add_zero]
      exact hg

theorem FilesOk.congr {balance balance' : FileIdx → ℤ} (h : κ.FilesOk balance)
    (heq : ∀ g, balance' g = balance g) : κ.FilesOk balance' :=
  ⟨h.pipes, fun g => by rw [heq]; exact h.refs g⟩

theorem filealloc_spec {balance : FileIdx → ℤ}
    (h : filealloc κ = some (f, κ')) (hfiles : κ.FilesOk balance) :
    κ' = κ.setFile f { κ.file f with ref := 1 } ∧ (κ.file f).ref = 0 ∧
      (κ.file f).type = .FD_NONE ∧ κ'.FilesOk fun g => balance g + unit f g := by
  unfold filealloc at h
  split at h
  · next f' hfind =>
    cases h
    have hzero : (κ.file f).ref = 0 := by simpa using List.find?_some hfind
    refine ⟨rfl, hzero, hfiles.pipes.closed f hzero, ?_⟩
    refine (hfiles.setFile f { κ.file f with ref := 1 } (by simp) fun pa w => Iff.rfl).congr
      fun g => ?_
    simp [hzero]
  · cases h

theorem filedup_spec {balance : FileIdx → ℤ}
    (h : filedup κ f = .ok κ') (hfiles : κ.FilesOk balance) :
    κ' = κ.setFile f { κ.file f with ref := (κ.file f).ref + 1 } ∧
      κ'.FilesOk fun g => balance g + unit f g := by
  unfold filedup at h
  split at h
  · cases h
  · cases h
    refine ⟨rfl, (hfiles.setFile f { κ.file f with ref := (κ.file f).ref + 1 } (by simp)
      fun pa w => Iff.rfl).congr fun g => ?_⟩
    simp

theorem perm_of_find {pipes : List Pipe} {p : Pipe} {pa : Nat}
    (h : pipes.find? (fun q => q.page == pa) = some p) (hnodup : (pipes.map Pipe.page).Nodup) :
    p.page = pa ∧ pipes.Perm (p :: pipes.filter fun q => q.page ≠ pa) := by
  have hpage : p.page = pa := by simpa using List.find?_some h
  have hmem : p ∈ pipes := List.mem_of_find?_eq_some h
  refine ⟨hpage, ?_⟩
  rw [perm_ext_iff_of_nodup (List.Nodup.of_map _ hnodup)]
  · intro q
    simp only [List.mem_cons, List.mem_filter, ne_eq, decide_not, Bool.not_eq_true',
      decide_eq_false_iff_not]
    constructor
    · intro hq
      by_cases hqp : q.page = pa
      · exact .inl (List.inj_on_of_nodup_map hnodup hq hmem (hqp.trans hpage.symm))
      · exact .inr ⟨hq, hqp⟩
    · rintro (rfl | hq)
      · exact hmem
      · exact hq.1
  · refine List.nodup_cons.mpr ⟨?_, (List.Nodup.of_map _ hnodup).filter _⟩
    simp [hpage]

/-- After one end of pipe `p` is closed: the pipes `l` are the others, and `p`
where its other end is open. No file is that end any more. -/
theorem PipesOk.closeEnd {p : Pipe} {w : Bool} {rest l : List Pipe}
    (hpipes : κ.pipes.Perm (p :: rest)) (hl : κ'.pipes = l) (hfile : κ'.file = κ.file)
    (hopen : ∀ q w', q ∈ l ∧ q.isOpen w' = true ↔
      (q ∈ rest ∧ q.isOpen w' = true) ∨ (q = p.closeEnd w ∧ q.isOpen w' = true))
    (hsub : (l.map Pipe.page).Sublist ((p :: rest).map Pipe.page))
    (hclosed : ∀ f, (κ.file f).ref = 0 → (κ.file f).type = .FD_NONE)
    (hunique : ∀ f g pa w, κ.IsEnd f pa w → κ.IsEnd g pa w → f = g)
    (hnodup : (κ.pipes.map Pipe.page).Nodup) (hlive : ∀ q ∈ l, ∃ w', q.isOpen w' = true)
    (hends : ∀ pa w', (∃ f, κ.IsEnd f pa w') ↔
      ∃ q ∈ κ.pipes, q.page = pa ∧ q.isOpen w' = true ∧ ¬ (pa = p.page ∧ w' = w)) :
    κ'.PipesOk := by
  have hend (f : FileIdx) (pa : Nat) (w' : Bool) : κ'.IsEnd f pa w' ↔ κ.IsEnd f pa w' := by
    unfold IsEnd
    rw [hfile]
  have hnodup' : ((p :: rest).map Pipe.page).Nodup := (hpipes.map _).nodup_iff.mp hnodup
  have hnotin : p.page ∉ rest.map Pipe.page := (List.nodup_cons.mp hnodup').1
  refine ⟨?_, ?_, ?_, ?_, ?_⟩
  · rw [hfile]
    exact hclosed
  · intro pa w'
    simp only [hend]
    rw [hends, hl]
    constructor
    · rintro ⟨q, hq, hpa, hqopen, hne⟩
      rcases List.mem_cons.mp (hpipes.mem_iff.mp hq) with rfl | hq
      · have hw : w' ≠ w := fun hw => hne ⟨hpa.symm, hw⟩
        have hopen' : (q.closeEnd w).isOpen w' = true := by
          rw [closeEnd_isOpen, hqopen]
          simpa using hw
        exact ⟨q.closeEnd w, ((hopen _ w').mpr (Or.inr ⟨rfl, hopen'⟩)).1,
          (closeEnd_page q w).trans hpa, hopen'⟩
      · exact ⟨q, ((hopen q w').mpr (Or.inl ⟨hq, hqopen⟩)).1, hpa, hqopen⟩
    · rintro ⟨q, hq, hpa, hqopen⟩
      rcases (hopen q w').mp ⟨hq, hqopen⟩ with ⟨hrest, _⟩ | ⟨rfl, _⟩
      · refine ⟨q, hpipes.mem_iff.mpr (List.mem_cons_of_mem _ hrest), hpa, hqopen, ?_⟩
        rintro ⟨rfl, _⟩
        exact hnotin (hpa ▸ List.mem_map_of_mem hrest)
      · rw [closeEnd_isOpen, Bool.and_eq_true, bne_iff_ne] at hqopen
        exact ⟨p, hpipes.mem_iff.mpr (List.mem_cons_self), (closeEnd_page p w).symm.trans hpa,
          hqopen.1, fun hboth => hqopen.2 hboth.2⟩
  · intro f g pa w' hf hg
    exact hunique f g pa w' ((hend f pa w').mp hf) ((hend g pa w').mp hg)
  · rw [hl]
    exact hlive
  · rw [hl]
    exact hsub.nodup hnodup'

theorem pipeclose_spec {pa : Nat} {w : Bool}
    (h : pipeclose L κ pa w = .ok κ') (hnodup : (κ.pipes.map Pipe.page).Nodup)
    (hclosed : ∀ f, (κ.file f).ref = 0 → (κ.file f).type = .FD_NONE)
    (hunique : ∀ f g pa w, κ.IsEnd f pa w → κ.IsEnd g pa w → f = g)
    (hlive : ∀ p ∈ κ.pipes, ∃ w, p.isOpen w = true)
    (hends : ∀ pa' w', (∃ f, κ.IsEnd f pa' w') ↔
      ∃ p ∈ κ.pipes, p.page = pa' ∧ p.isOpen w' = true ∧ ¬ (pa' = pa ∧ w' = w)) :
    κ'.PipesOk ∧ FilesOnly κ κ' ∧ κ'.file = κ.file ∧ κ'.proc = κ.proc := by
  unfold pipeclose at h
  split at h
  · cases h
  · next p hfind =>
    obtain ⟨rfl, hperm⟩ := perm_of_find hfind hnodup
    generalize hrest : (κ.pipes.filter fun q => q.page ≠ p.page) = rest at h hperm
    have hpages : κ.pipePages = {p.page} + (rest.map Pipe.page : List Nat) := by
      unfold pipePages
      rw [coe_eq_coe.mpr (hperm.map Pipe.page), List.map_cons]
      rfl
    have hliverest : ∀ q ∈ rest, ∃ w', q.isOpen w' = true := fun q hq =>
      hlive q (hperm.mem_iff.mpr (List.mem_cons_of_mem _ hq))
    simp only at h
    split at h
    · next hboth =>
      obtain ⟨k, hfree, h⟩ := bind_eq_ok.mp h
      cases h
      have hnone (w' : Bool) : (p.closeEnd w).isOpen w' = false := by
        rw [Bool.and_eq_true, Bool.not_eq_true', Bool.not_eq_true'] at hboth
        cases w'
        · exact hboth.1
        · exact hboth.2
      refine ⟨PipesOk.closeEnd hperm rfl rfl ?_ ?_ hclosed hunique hnodup hliverest hends, ?_, rfl, rfl⟩
      · intro q w'
        constructor
        · exact .inl
        · rintro (hq | ⟨rfl, hq⟩)
          · exact hq
          · rw [hnone] at hq
            cases hq
      · exact sublist_cons_self _ _
      · refine ⟨rfl, rfl, rfl, rfl, fun q => ⟨_, rfl⟩, ?_⟩
        rw [hpages, (kfree_ok hfree).2.1]
        change _ + (rest.map Pipe.page : Multiset Nat) = _
        abel
    · next hopen =>
      cases h
      refine ⟨PipesOk.closeEnd hperm rfl rfl ?_ ?_ hclosed hunique hnodup ?_ hends, ?_, rfl, rfl⟩
      · intro q w'
        rw [List.mem_cons]
        tauto
      · rw [List.map_cons, List.map_cons, closeEnd_page]
      · intro q hq
        rcases List.mem_cons.mp hq with rfl | hq
        · by_contra hnone
          rw [not_exists] at hnone
          refine hopen ?_
          have hr := hnone false
          have hw := hnone true
          simp only [Pipe.isOpen, Bool.not_eq_true] at hr hw
          simpa using ⟨hr, hw⟩
        · exact hliverest q hq
      · refine ⟨rfl, rfl, rfl, rfl, fun q => ⟨_, rfl⟩, ?_⟩
        rw [hpages]
        unfold pipePages
        rw [List.map_cons, closeEnd_page]
        rfl

theorem fileclose_spec {balance : FileIdx → ℤ}
    (h : fileclose L κ f = .ok κ') (hfiles : κ.FilesOk balance) :
    (κ'.FilesOk fun g => balance g - unit f g) ∧ FilesOnly κ κ' ∧ κ'.proc = κ.proc := by
  unfold fileclose at h
  split at h
  · cases h
  next hpos =>
  split at h
  · next hmore =>
    cases h
    refine ⟨(hfiles.setFile f { κ.file f with ref := (κ.file f).ref - 1 } (by simp; omega)
      fun pa w => Iff.rfl).congr fun g => ?_, filesOnly_setFile _ _ _, rfl⟩
    push_cast [Nat.cast_sub (Nat.le_of_not_lt hpos)]
    ring
  · next hlast =>
    have hone : (κ.file f).ref = 1 := by omega
    simp only at h
    split at h
    · next hpipe =>
      have hself : κ.IsEnd f (κ.file f).pipe (κ.file f).writable := ⟨hpipe, rfl, rfl⟩
      have hend (g : FileIdx) (pa : Nat) (w : Bool) :
          (κ.setFile f { κ.file f with ref := 0, type := .FD_NONE }).IsEnd g pa w ↔
            g ≠ f ∧ κ.IsEnd g pa w := by
        unfold IsEnd
        rw [setFile_file]
        by_cases hg : g = f
        · simp [hg]
        · simp [hg]
      have hclosed (g : FileIdx)
          (hg : ((κ.setFile f { κ.file f with ref := 0, type := .FD_NONE }).file g).ref = 0) :
          ((κ.setFile f { κ.file f with ref := 0, type := .FD_NONE }).file g).type = .FD_NONE := by
        rw [setFile_file] at hg ⊢
        by_cases heq : g = f
        · rw [if_pos heq]
        · rw [if_neg heq] at hg ⊢
          exact hfiles.pipes.closed g hg
      obtain ⟨hpipes, honly, hfile, hproc⟩ := pipeclose_spec h hfiles.pipes.nodup hclosed (by
          intro g g' pa w hg hg'
          exact hfiles.pipes.unique g g' pa w ((hend g pa w).mp hg).2 ((hend g' pa w).mp hg').2)
        hfiles.pipes.live (by
          intro pa w
          simp only [hend]
          constructor
          · rintro ⟨g, hne, hg⟩
            obtain ⟨q, hq, hpa, hopen⟩ := (hfiles.pipes.ends pa w).mp ⟨g, hg⟩
            refine ⟨q, hq, hpa, hopen, ?_⟩
            rintro ⟨rfl, rfl⟩
            exact hne (hfiles.pipes.unique g f _ _ hg hself)
          · rintro ⟨q, hq, hpa, hopen, hne⟩
            obtain ⟨g, hg⟩ := (hfiles.pipes.ends pa w).mpr ⟨q, hq, hpa, hopen⟩
            refine ⟨g, ?_, hg⟩
            rintro rfl
            exact hne ⟨hg.2.1.symm, hg.2.2.symm⟩)
      refine ⟨⟨hpipes, fun g => ?_⟩, (filesOnly_setFile _ _ _).trans honly, hproc⟩
      have hg := hfiles.refs g
      have hrefs : κ'.refs g = κ.refs g := by
        unfold refs
        rw [hproc]
        rfl
      rw [hfile, hrefs, setFile_file]
      by_cases heq : g = f
      · subst heq
        simp only [if_true, unit]
        omega
      · simp only [heq, if_false, unit, sub_zero]
        exact hg
    · next hpipe =>
      cases h
      refine ⟨(hfiles.setFile f { κ.file f with ref := 0, type := .FD_NONE } (by simp)
        fun pa w => ?_).congr fun g => ?_, filesOnly_setFile _ _ _, rfl⟩
      · simp [IsEnd, hpipe]
      · simp [hone]
        ring

theorem fdalloc_spec {fd : Fin NOFILE} (h : fdalloc κ p f = some (fd, κ')) :
    κ' = κ.setFd p fd (some f) ∧ (κ.proc p).ofile fd = none := by
  unfold fdalloc at h
  split at h
  · next fd' hfind =>
    cases h
    exact ⟨rfl, by simpa using List.find?_some hfind⟩
  · cases h

theorem FilesOk.newPipe {balance : FileIdx → ℤ} (h : κ.FilesOk balance)
    {f0 f1 : FileIdx} {p : Nat} (k : Kmem) (hne : f1 ≠ f0) (h0 : (κ.file f0).type = .FD_NONE)
    (h1 : (κ.file f1).type = .FD_NONE) (href0 : (κ.file f0).ref ≠ 0) (href1 : (κ.file f1).ref ≠ 0)
    (hfresh : p ∉ κ.pipePages) : (κ.newPipe f0 f1 p k).FilesOk balance := by
  have hfile (g : FileIdx) : (κ.newPipe f0 f1 p k).file g =
      if g = f1 then { κ.file f1 with type := .FD_PIPE, readable := false, writable := true, pipe := p }
      else if g = f0 then
        { κ.file f0 with type := .FD_PIPE, readable := true, writable := false, pipe := p }
      else κ.file g := by
    unfold Kernel.newPipe
    by_cases hg1 : g = f1
    · subst hg1
      simp [Kernel.setFile, hne]
    · by_cases hg0 : g = f0
      · subst hg0
        simp [Kernel.setFile, hg1]
      · simp [Kernel.setFile, hg0, hg1]
  have hold (g : FileIdx) (pa : Nat) (w : Bool) (hg : κ.IsEnd g pa w) : g ≠ f0 ∧ g ≠ f1 ∧ pa ≠ p := by
    refine ⟨?_, ?_, ?_⟩
    · rintro rfl
      rw [hg.1] at h0
      cases h0
    · rintro rfl
      rw [hg.1] at h1
      cases h1
    · rintro rfl
      obtain ⟨q, hq, hpage, _⟩ := (h.pipes.ends pa w).mp ⟨g, hg⟩
      exact hfresh (by
        rw [← hpage]
        exact Multiset.mem_coe.mpr (List.mem_map_of_mem hq))
  have hend (g : FileIdx) (pa : Nat) (w : Bool) : (κ.newPipe f0 f1 p k).IsEnd g pa w ↔
      (g = (if w then f1 else f0) ∧ pa = p) ∨ κ.IsEnd g pa w := by
    unfold IsEnd
    rw [hfile]
    by_cases hg1 : g = f1
    · subst hg1
      cases w
      · simp [h1, hne]
      · simpa [h1] using eq_comm
    · by_cases hg0 : g = f0
      · subst hg0
        cases w
        · simpa [h0, hg1] using eq_comm
        · simp [h0, hg1]
      · cases w <;> simp [hg0, hg1]
  have hpipe (w : Bool) : (⟨p, true, true⟩ : Pipe).isOpen w = true := by cases w <;> rfl
  refine ⟨⟨?_, ?_, ?_, ?_, ?_⟩, ?_⟩
  · intro g hg
    rw [hfile] at hg ⊢
    by_cases hg1 : g = f1
    · rw [if_pos hg1] at hg
      exact absurd hg href1
    · rw [if_neg hg1] at hg ⊢
      by_cases hg0 : g = f0
      · rw [if_pos hg0] at hg
        exact absurd hg href0
      · rw [if_neg hg0] at hg ⊢
        exact h.pipes.closed g hg
  · intro pa w
    change _ ↔ ∃ q ∈ (⟨p, true, true⟩ : Pipe) :: κ.pipes, _
    simp only [hend, List.mem_cons]
    constructor
    · rintro ⟨g, ⟨_, rfl⟩ | hg⟩
      · exact ⟨⟨pa, true, true⟩, .inl rfl, rfl, hpipe w⟩
      · obtain ⟨q, hq, hqopen⟩ := (h.pipes.ends pa w).mp ⟨g, hg⟩
        exact ⟨q, .inr hq, hqopen⟩
    · rintro ⟨q, rfl | hq, hqopen⟩
      · exact ⟨if w then f1 else f0, .inl ⟨rfl, hqopen.1.symm⟩⟩
      · obtain ⟨g, hg⟩ := (h.pipes.ends pa w).mpr ⟨q, hq, hqopen⟩
        exact ⟨g, .inr hg⟩
  · intro g g' pa w hg hg'
    rcases (hend g pa w).mp hg with ⟨rfl, rfl⟩ | hg <;>
      rcases (hend g' pa w).mp hg' with ⟨rfl, hpa⟩ | hg'
    · rfl
    · exact absurd rfl (hold g' pa w hg').2.2
    · exact absurd hpa (hold g pa w hg).2.2
    · exact h.pipes.unique g g' pa w hg hg'
  · intro q hq
    rcases List.mem_cons.mp hq with rfl | hq
    · exact ⟨true, rfl⟩
    · exact h.pipes.live q hq
  · exact List.nodup_cons.mpr ⟨fun hin => hfresh (Multiset.mem_coe.mpr hin), h.pipes.nodup⟩
  · intro g
    have hg := h.refs g
    change _ = κ.refs g + balance g
    rw [hfile, ← hg]
    by_cases hg1 : g = f1
    · rw [if_pos hg1, hg1]
    · rw [if_neg hg1]
      by_cases hg0 : g = f0
      · rw [if_pos hg0, hg0]
      · rw [if_neg hg0]

theorem filesOnly_newPipe {k : Kmem} {p : Nat} (f0 f1 : FileIdx)
    (h : kalloc κ.kmem = some (p, k)) : FilesOnly κ (κ.newPipe f0 f1 p k) := by
  refine ⟨rfl, rfl, rfl, rfl, fun q => ⟨_, rfl⟩, ?_⟩
  rw [(kalloc_some h).1]
  change k.free + (p ::ₘ κ.pipePages) = _
  rw [← Multiset.singleton_add]
  abel

theorem pipealloc_spec {balance : FileIdx → ℤ}
    {r : Option (FileIdx × FileIdx)} (h : pipealloc L κ = .ok (r, κ')) (hfiles : κ.FilesOk balance)
    (hfresh : ∀ pa ∈ κ.kmem.free, pa ∉ κ.pipePages) :
    FilesOnly κ κ' ∧ κ'.proc = κ.proc ∧ κ'.FilesOk fun g =>
      balance g + r.elim 0 fun f => unit f.1 g + unit f.2 g := by
  unfold pipealloc at h
  split at h
  · cases h
    exact ⟨FilesOnly.refl _, rfl, hfiles.congr fun g => by simp⟩
  next f0 κ0 halloc0 =>
  obtain ⟨rfl, _, htype0, hfiles0⟩ := filealloc_spec halloc0 hfiles
  have honly0 := filesOnly_setFile κ f0 { κ.file f0 with ref := 1 }
  split at h
  · obtain ⟨κ1, hclose, h⟩ := bind_eq_ok.mp h
    cases h
    obtain ⟨hfiles1, honly1, hproc1⟩ := fileclose_spec hclose hfiles0
    exact ⟨honly0.trans honly1, hproc1, hfiles1.congr fun g => by simp⟩
  next f1 κ1 halloc1 =>
  obtain ⟨rfl, hzero1, htype1, hfiles1⟩ := filealloc_spec halloc1 hfiles0
  have honly1 := honly0.trans (filesOnly_setFile _ f1
    { (κ.setFile f0 { κ.file f0 with ref := 1 }).file f1 with ref := 1 })
  have hne : f1 ≠ f0 := by
    rintro rfl
    simp [setFile] at hzero1
  split at h
  · obtain ⟨κ2, hclose0, h⟩ := bind_eq_ok.mp h
    obtain ⟨κ3, hclose1, h⟩ := bind_eq_ok.mp h
    cases h
    obtain ⟨hfiles2, honly2, hproc2⟩ := fileclose_spec hclose0 hfiles1
    obtain ⟨hfiles3, honly3, hproc3⟩ := fileclose_spec hclose1 hfiles2
    refine ⟨(honly1.trans honly2).trans honly3, hproc3.trans hproc2, hfiles3.congr fun g => ?_⟩
    simp only [Option.elim]
    ring
  · next p k hkalloc =>
    cases h
    have hp : p ∉ κ.pipePages := by
      apply hfresh
      have hfree := (kalloc_some hkalloc).1
      change κ.kmem.free = _ at hfree
      rw [hfree]
      simp
    refine ⟨honly1.trans (filesOnly_newPipe f0 f1 hkalloc), rfl,
      (hfiles1.newPipe k hne ?_ ?_ ?_ ?_ hp).congr fun g => ?_⟩
    · simp [setFile, hne.symm, htype0]
    · simpa [setFile] using htype1
    · simp [setFile, hne.symm]
    · simp [setFile]
    · simp only [Option.elim]
      ring

/-- A call of process `p` on its descriptors. -/
structure FilesStep (p : Slot) (κ κ' : Kernel) : Prop where
  files : κ'.FilesOk fun _ => 0
  only : FilesOnly κ κ'
  others : ∀ q, q ≠ p → κ'.proc q = κ.proc q

theorem setFd_others (κ : Kernel) (p : Slot) (fd : Fin NOFILE) (x : Option FileIdx) {q : Slot}
    (hq : q ≠ p) : (κ.setFd p fd x).proc q = κ.proc q := by
  simp [setFd, setProc, hq]

theorem setFd_ofile (κ : Kernel) (p : Slot) (fd : Fin NOFILE) (x : Option FileIdx) :
    ((κ.setFd p fd x).proc p).ofile = update (κ.proc p).ofile fd x := by
  simp [setFd, setProc]

@[simp] theorem optUnit_none (g : FileIdx) : optUnit none g = 0 := by
  simp [optUnit]

theorem optUnit_some (f g : FileIdx) : optUnit (some f) g = unit f g := by
  simp [optUnit, unit, eq_comm]

theorem sysPipe_step (h : sysPipe L κ p = .ok (b, κ')) (hfiles : κ.FilesOk fun _ => 0)
    (hfresh : ∀ pa ∈ κ.kmem.free, pa ∉ κ.pipePages) : FilesStep p κ κ' := by
  obtain ⟨⟨files, κ1⟩, halloc, h⟩ := bind_eq_ok.mp h
  obtain ⟨honly1, hproc1, hfiles1⟩ := pipealloc_spec halloc hfiles hfresh
  -- both files are closed again
  have hbad {κ2 κ3 κ4 : Kernel} {rf wf : FileIdx} (hfiles2 : κ2.FilesOk fun g => unit rf g + unit wf g)
      (honly2 : FilesOnly κ κ2) (hothers2 : ∀ q, q ≠ p → κ2.proc q = κ.proc q)
      (hclose0 : fileclose L κ2 rf = .ok κ3) (hclose1 : fileclose L κ3 wf = .ok κ4) :
      FilesStep p κ κ4 := by
    obtain ⟨hfiles3, honly3, hproc3⟩ := fileclose_spec hclose0 hfiles2
    obtain ⟨hfiles4, honly4, hproc4⟩ := fileclose_spec hclose1 hfiles3
    refine ⟨hfiles4.congr fun g => by ring, (honly2.trans honly3).trans honly4, fun q hq => ?_⟩
    rw [hproc4, hproc3, hothers2 q hq]
  cases files with
  | none =>
    cases h
    exact ⟨hfiles1.congr fun g => by simp, honly1, fun q _ => by rw [hproc1]⟩
  | some files =>
    obtain ⟨rf, wf⟩ := files
    have hfiles1 : κ1.FilesOk fun g => unit rf g + unit wf g := hfiles1.congr fun g => by simp
    simp only at h
    split at h
    · obtain ⟨κ2, hclose0, h⟩ := bind_eq_ok.mp h
      obtain ⟨κ3, hclose1, h⟩ := bind_eq_ok.mp h
      cases h
      exact hbad hfiles1 honly1 (fun q _ => by rw [hproc1]) hclose0 hclose1
    next fd0 κ2 hfd0 =>
    obtain ⟨rfl, hnone0⟩ := fdalloc_spec hfd0
    have hfiles2 := hfiles1.setFd p fd0 (some rf)
    split at h
    · obtain ⟨κ3, hclose0, h⟩ := bind_eq_ok.mp h
      obtain ⟨κ4, hclose1, h⟩ := bind_eq_ok.mp h
      cases h
      refine hbad ((hfiles2.setFd p fd0 none).congr fun g => ?_)
        ((honly1.trans (filesOnly_setFd _ _ _ _)).trans (filesOnly_setFd _ _ _ _)) ?_ hclose0 hclose1
      · rw [setFd_ofile, update_self, hnone0, optUnit_none]
        ring
      · intro q hq
        rw [setFd_others _ _ _ _ hq, setFd_others _ _ _ _ hq, hproc1]
    · next fd1 κ3 hfd1 =>
      obtain ⟨rfl, hnone1⟩ := fdalloc_spec hfd1
      cases h
      refine ⟨(hfiles2.setFd p fd1 (some wf)).congr fun g => ?_,
        (honly1.trans (filesOnly_setFd _ _ _ _)).trans (filesOnly_setFd _ _ _ _), fun q hq => ?_⟩
      · rw [hnone1, hnone0, optUnit_none, optUnit_some, optUnit_some]
        ring
      · rw [setFd_others _ _ _ _ hq, setFd_others _ _ _ _ hq, hproc1]

theorem openInode_step {readable writable : Bool}
    (h : openInode L κ p readable writable = .ok (b, κ')) (hfiles : κ.FilesOk fun _ => 0) :
    FilesStep p κ κ' := by
  unfold openInode at h
  split at h
  · cases h
    exact ⟨hfiles, FilesOnly.refl _, fun _ _ => rfl⟩
  next f κ1 halloc =>
  obtain ⟨rfl, _, htype, hfiles1⟩ := filealloc_spec halloc hfiles
  have honly1 := filesOnly_setFile κ f { κ.file f with ref := 1 }
  split at h
  · obtain ⟨κ2, hclose, h⟩ := bind_eq_ok.mp h
    cases h
    obtain ⟨hfiles2, honly2, hproc2⟩ := fileclose_spec hclose hfiles1
    refine ⟨hfiles2.congr fun g => by ring, honly1.trans honly2, fun q _ => ?_⟩
    rw [hproc2]
    rfl
  · next fd κ2 hfd =>
    obtain ⟨rfl, hnone⟩ := fdalloc_spec hfd
    cases h
    have hfiles2 := hfiles1.setFd p fd (some f)
    refine ⟨(hfiles2.setFile f _ ?_ ?_).congr fun g => ?_,
      (honly1.trans (filesOnly_setFd _ _ _ _)).trans (filesOnly_setFile _ _ _), fun q hq => ?_⟩
    · simp [setFd, setProc, setFile]
    · intro pa w
      simp [IsEnd, setFd, setProc, setFile, htype]
    · rw [hnone, optUnit_none, optUnit_some]
      simp
    · exact setFd_others _ p fd _ hq

theorem sysClose_step {fd : Fin NOFILE}
    (h : sysClose L κ p fd = .ok (b, κ')) (hfiles : κ.FilesOk fun _ => 0) : FilesStep p κ κ' := by
  unfold sysClose at h
  split at h
  · cases h
    exact ⟨hfiles, FilesOnly.refl _, fun _ _ => rfl⟩
  · next f hf =>
    obtain ⟨κ1, hclose, h⟩ := bind_eq_ok.mp h
    cases h
    obtain ⟨hfiles1, honly1, hproc1⟩ := fileclose_spec hclose (hfiles.setFd p fd none)
    refine ⟨hfiles1.congr fun g => ?_, (filesOnly_setFd _ _ _ _).trans honly1, fun q hq => ?_⟩
    · rw [hf, optUnit_some, optUnit_none]
      ring
    · rw [hproc1, setFd_others _ _ _ _ hq]

theorem sysDup_step {fd : Fin NOFILE}
    (h : sysDup κ p fd = .ok (b, κ')) (hfiles : κ.FilesOk fun _ => 0) : FilesStep p κ κ' := by
  unfold sysDup at h
  split at h
  · cases h
    exact ⟨hfiles, FilesOnly.refl _, fun _ _ => rfl⟩
  next f hf =>
  split at h
  · cases h
    exact ⟨hfiles, FilesOnly.refl _, fun _ _ => rfl⟩
  · next fd' κ1 hfd =>
    obtain ⟨rfl, hnone⟩ := fdalloc_spec hfd
    obtain ⟨κ2, hdup, h⟩ := bind_eq_ok.mp h
    cases h
    obtain ⟨rfl, hfiles2⟩ := filedup_spec hdup (hfiles.setFd p fd' (some f))
    refine ⟨hfiles2.congr fun g => ?_,
      (filesOnly_setFd _ _ _ _).trans (filesOnly_setFile _ _ _), fun q hq => ?_⟩
    · rw [hnone, optUnit_none, optUnit_some]
      ring
    · exact setFd_others _ p fd' _ hq

theorem sysDup2_step {oldfd newfd : Fin NOFILE}
    (h : sysDup2 L κ p oldfd newfd = .ok (b, κ')) (hfiles : κ.FilesOk fun _ => 0) :
    FilesStep p κ κ' := by
  unfold sysDup2 at h
  split at h
  · cases h
    exact ⟨hfiles, FilesOnly.refl _, fun _ _ => rfl⟩
  next oldf hold =>
  split at h
  · cases h
    exact ⟨hfiles, FilesOnly.refl _, fun _ _ => rfl⟩
  · obtain ⟨κ1, hclose, h⟩ := bind_eq_ok.mp h
    obtain ⟨κ2, hdup, h⟩ := bind_eq_ok.mp h
    cases h
    -- the descriptor that is overwritten has given its reference back before
    have hclosed : (κ1.FilesOk fun g => - optUnit ((κ.proc p).ofile newfd) g) ∧
        FilesOnly κ κ1 ∧ κ1.proc = κ.proc := by
      cases hnew : (κ.proc p).ofile newfd with
      | none =>
        rw [hnew] at hclose
        cases hclose
        exact ⟨hfiles.congr fun g => by rw [optUnit_none, neg_zero], FilesOnly.refl _, rfl⟩
      | some newf =>
        rw [hnew] at hclose
        obtain ⟨hfiles1, honly1, hproc1⟩ := fileclose_spec hclose hfiles
        refine ⟨hfiles1.congr fun g => ?_, honly1, hproc1⟩
        rw [optUnit_some]
        ring
    obtain ⟨hfiles1, honly1, hproc1⟩ := hclosed
    obtain ⟨rfl, hfiles2⟩ := filedup_spec hdup (hfiles1.setFd p newfd (some oldf))
    refine ⟨hfiles2.congr fun g => ?_,
      (honly1.trans (filesOnly_setFd _ _ _ _)).trans (filesOnly_setFile _ _ _), fun q hq => ?_⟩
    · rw [hproc1, optUnit_some]
      ring
    · change (κ1.setFd p newfd (some oldf)).proc q = _
      rw [setFd_others _ _ _ _ hq, hproc1]

theorem closeFiles_spec (h : closeFiles L κ p = .ok κ') (hfiles : κ.FilesOk fun _ => 0) :
    FilesStep p κ κ' ∧ ∀ fd, (κ'.proc p).ofile fd = none := by
  refine (foldlM_ok (fun rest κ1 =>
      FilesStep p κ κ1 ∧ ∀ fd, fd ∉ rest → (κ1.proc p).ofile fd = none) ?_
    ⟨⟨hfiles, FilesOnly.refl _, fun _ _ => rfl⟩, fun fd hfd => absurd (mem_finRange fd) hfd⟩ h).imp
    id fun hnone fd => hnone fd (by simp)
  rintro fd rest κ1 κ2 ⟨hstep, hdone⟩ hiter
  split at hiter
  · next f hf =>
    obtain ⟨κ3, hclose, hiter⟩ := bind_eq_ok.mp hiter
    cases hiter
    obtain ⟨hfiles3, honly3, hproc3⟩ := fileclose_spec hclose hstep.files
    refine ⟨⟨(hfiles3.setFd p fd none).congr fun g => ?_,
      (hstep.only.trans honly3).trans (filesOnly_setFd _ _ _ _), fun q hq => ?_⟩, ?_⟩
    · rw [hproc3, hf, optUnit_some, optUnit_none]
      ring
    · rw [setFd_others _ _ _ _ hq, hproc3, hstep.others q hq]
    · intro fd' hfd'
      rw [setFd_ofile, hproc3]
      by_cases heq : fd' = fd
      · rw [heq, update_self]
      · rw [update_of_ne heq]
        exact hdone fd' fun hmem => (List.mem_cons.mp hmem).elim heq hfd'
  · next hf =>
    cases hiter
    refine ⟨hstep, fun fd' hfd' => ?_⟩
    by_cases heq : fd' = fd
    · rw [heq, hf]
    · exact hdone fd' fun hmem => (List.mem_cons.mp hmem).elim heq hfd'

theorem dupFiles_spec {np : Slot} (h : dupFiles κ p np = .ok κ')
    (hfiles : κ.FilesOk fun _ => 0) (hempty : ∀ fd, (κ.proc np).ofile fd = none) :
    FilesStep np κ κ' ∧ κ'.kmem = κ.kmem := by
  refine (foldlM_ok (fun rest κ1 =>
      FilesStep np κ κ1 ∧ κ1.kmem = κ.kmem ∧ rest.Nodup ∧
        ∀ fd ∈ rest, (κ1.proc np).ofile fd = none) ?_
    ⟨⟨hfiles, FilesOnly.refl _, fun _ _ => rfl⟩, rfl, nodup_finRange _, fun fd _ => hempty fd⟩ h).imp
    id And.left
  rintro fd rest κ1 κ2 ⟨hstep, hkmem, hnodup, hnone⟩ hiter
  obtain ⟨hfd, hnodup⟩ := List.nodup_cons.mp hnodup
  split at hiter
  · next f hf =>
    obtain ⟨κ3, hdup, hiter⟩ := bind_eq_ok.mp hiter
    cases hiter
    obtain ⟨rfl, hfiles3⟩ := filedup_spec hdup hstep.files
    have hold : (κ1.proc np).ofile fd = none := hnone fd (by simp)
    refine ⟨⟨(hfiles3.setFd np fd (some f)).congr fun g => ?_,
      (hstep.only.trans (filesOnly_setFile _ _ _)).trans (filesOnly_setFd _ _ _ _),
      fun q hq => ?_⟩, hkmem, hnodup, ?_⟩
    · change 0 = _ + optUnit ((κ1.proc np).ofile fd) g - _
      rw [hold, optUnit_none, optUnit_some]
      ring
    · rw [setFd_others _ _ _ _ hq]
      exact hstep.others q hq
    · intro fd' hfd'
      rw [setFd_ofile, update_of_ne]
      · exact hnone fd' (List.mem_cons_of_mem _ hfd')
      · rintro rfl
        exact hfd hfd'
  · cases hiter
    exact ⟨hstep, hkmem, hnodup, fun fd' hfd' => hnone fd' (List.mem_cons_of_mem _ hfd')⟩

end Kernel

end Xv6.Vm

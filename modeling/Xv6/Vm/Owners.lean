import Xv6.Lib.Transition
import Xv6.Vm.Boot

/-!
Conservation of physical pages. The multisets of the ownership invariant are
split by owner: each page of each owner is tagged with the owner, and as no
page occurs twice in the total, no page has two tags.
-/

namespace Xv6.Vm

open Finset Lib Relation
open Sched (Slot ProcState)

/-- What can own a page. The address space `none` is that of the kernel. -/
inductive Owner where
  | kstack (p : Slot)
  | pgdir (s : Option Slot)
  | pageTable (s : Option Slot) (i : Nat)
  | user (s : Option Slot) (v : Nat)
  | pipe (i : Nat)
  | cpuStack (i : Nat)
  deriving DecidableEq

namespace Kernel

/-- The page directory of an address space in use. -/
def space (κ : Kernel) : Option Slot → Option PageDir
  | none => some κ.kpgdir
  | some p => if (κ.proc p).state = .UNUSED then none else (κ.proc p).pgdir

@[simp] theorem space_none (κ : Kernel) : κ.space none = some κ.kpgdir := rfl

def Owns (κ : Kernel) : Owner → Nat → Prop
  | .kstack p, pa => (κ.proc p).state ≠ .UNUSED ∧ (κ.proc p).kstack = some pa
  | .pgdir s, pa => ∃ d, κ.space s = some d ∧ d.frame = pa
  | .pageTable s i, pa => i < NPDENTRIES ∧ ∃ d t, κ.space s = some d ∧ d.pde i = some t ∧ t.frame = pa
  | .user s v, pa =>
    v < userPages ∧ ∃ d e, κ.space s = some d ∧ d.entry (v * PGSIZE) = some e ∧ e.addr = pa
  | .pipe i, pa => ∃ p, κ.pipes[i]? = some p ∧ p.page = pa
  | .cpuStack i, pa => κ.cpuStacks[i]? = some pa

end Kernel

def tagged (o : Owner) (pages : Multiset Nat) : Multiset (Owner × Nat) := pages.map (Prod.mk o)

@[simp] theorem map_snd_tagged (o : Owner) (pages : Multiset Nat) :
    (tagged o pages).map Prod.snd = pages := by
  simp [tagged]

@[simp] theorem mem_tagged {o o' : Owner} {pages : Multiset Nat} {pa : Nat} :
    (o', pa) ∈ tagged o pages ↔ o' = o ∧ pa ∈ pages := by
  simp only [tagged, Multiset.mem_map, Prod.mk.injEq]
  constructor
  · rintro ⟨a, ha, rfl, rfl⟩
    exact ⟨rfl, ha⟩
  · rintro ⟨rfl, ha⟩
    exact ⟨pa, ha, rfl, rfl⟩

theorem map_snd_sum {ι : Type*} (s : Finset ι) (f : ι → Multiset (Owner × Nat)) :
    (∑ i ∈ s, f i).map Prod.snd = ∑ i ∈ s, (f i).map Prod.snd :=
  map_sum (Multiset.mapAddMonoidHom Prod.snd) f s

def PageDir.claims (s : Option Slot) (d : PageDir) : Multiset (Owner × Nat) :=
  tagged (.pgdir s) {d.frame} + ∑ i ∈ range NPDENTRIES, tagged (.pageTable s i) (tableFrame (d.pde i)) +
    ∑ v ∈ range userPages, tagged (.user s v) (pteFrame (d.entry (v * PGSIZE)))

theorem PageDir.map_snd_claims (s : Option Slot) (d : PageDir) :
    (d.claims s).map Prod.snd = d.pages := by
  simp only [claims, Multiset.map_add, map_snd_tagged, map_snd_sum]
  rfl

def PageDir.Claims (s : Option Slot) (d : PageDir) : Owner → Nat → Prop
  | .pgdir s', pa => s' = s ∧ d.frame = pa
  | .pageTable s' i, pa => s' = s ∧ i < NPDENTRIES ∧ ∃ t, d.pde i = some t ∧ t.frame = pa
  | .user s' v, pa => s' = s ∧ v < userPages ∧ ∃ e, d.entry (v * PGSIZE) = some e ∧ e.addr = pa
  | _, _ => False

variable {pa : Nat} {s : Option Slot} {κ : Kernel} {L : Layout}

theorem mem_tableFrame {t : Option PageTable} :
    pa ∈ tableFrame t ↔ ∃ t', t = some t' ∧ t'.frame = pa := by
  cases t <;> simp [eq_comm]

theorem mem_pteFrame {e : Option Pte} : pa ∈ pteFrame e ↔ ∃ e', e = some e' ∧ e'.addr = pa := by
  cases e <;> simp [eq_comm]

theorem PageDir.mem_claims {d : PageDir} {o : Owner} : (o, pa) ∈ d.claims s ↔ d.Claims s o pa := by
  simp only [claims, Multiset.mem_add, Multiset.mem_sum, mem_tagged, mem_range,
    Multiset.mem_singleton, mem_tableFrame, mem_pteFrame]
  cases o <;> simp [Claims, eq_comm, and_left_comm]

/-- The pages of a list by owner, the index giving the owner. -/
def listClaims (o : Nat → Owner) (pages : List Nat) : Multiset (Owner × Nat) :=
  (pages.zipIdx.map fun x => (o x.2, x.1) : List (Owner × Nat))

theorem map_snd_listClaims (o : Nat → Owner) (pages : List Nat) :
    (listClaims o pages).map Prod.snd = pages := by
  simp [listClaims, Function.comp_def]

theorem mem_listClaims {o : Nat → Owner} {o' : Owner} {pages : List Nat} :
    (o', pa) ∈ listClaims o pages ↔ ∃ i, o' = o i ∧ pages[i]? = some pa := by
  simp only [listClaims, Multiset.mem_coe, List.mem_map, Prod.mk.injEq, Prod.exists,
    List.mem_zipIdx_iff_getElem?]
  constructor
  · rintro ⟨a, i, hi, rfl, rfl⟩
    exact ⟨i, rfl, hi⟩
  · rintro ⟨i, rfl, hi⟩
    exact ⟨pa, i, hi, rfl, rfl⟩

def Proc.claims (p : Slot) (q : Proc) : Multiset (Owner × Nat) :=
  if q.state = .UNUSED then 0
  else tagged (.kstack p) (stackPages q.kstack) + q.pgdir.elim 0 (PageDir.claims (some p))

theorem Proc.map_snd_claims (p : Slot) (q : Proc) : (q.claims p).map Prod.snd = q.pages := by
  unfold claims Proc.pages
  split
  · rfl
  · rw [Multiset.map_add, map_snd_tagged]
    cases q.pgdir with
    | none => rfl
    | some d => simp only [Option.elim_some, PageDir.map_snd_claims, spacePages]

namespace Kernel

/-- Every page with an owner, with its owner. -/
def claims (κ : Kernel) : Multiset (Owner × Nat) :=
  κ.kpgdir.claims none + listClaims .cpuStack κ.cpuStacks + ∑ p, (κ.proc p).claims p +
    listClaims .pipe (κ.pipes.map Pipe.page)

theorem map_snd_claims (κ : Kernel) : κ.claims.map Prod.snd = κ.pages := by
  simp only [claims, Multiset.map_add, PageDir.map_snd_claims, map_snd_listClaims, map_snd_sum,
    Proc.map_snd_claims]
  rfl

theorem mem_claims {o : Owner} : (o, pa) ∈ κ.claims ↔ κ.Owns o pa := by
  have hproc (p : Slot) : (o, pa) ∈ (κ.proc p).claims p ↔
      (o = .kstack p ∧ (κ.proc p).state ≠ .UNUSED ∧ (κ.proc p).kstack = some pa) ∨
        ∃ d, κ.space (some p) = some d ∧ d.Claims (some p) o pa := by
    unfold Proc.claims space
    split
    · next hstate => simp [hstate]
    · next hstate =>
      simp only [hstate, if_false]
      cases (κ.proc p).pgdir <;> cases (κ.proc p).kstack <;>
        simp [hstate, stackPages, PageDir.mem_claims, eq_comm]
  simp only [claims, Multiset.mem_add, Multiset.mem_sum, mem_univ, true_and, hproc,
    PageDir.mem_claims, mem_listClaims]
  cases o with
  | kstack p => simp [PageDir.Claims, Owns]
  | pgdir s => cases s <;> simp [PageDir.Claims, Owns]
  | pageTable s i => cases s <;> simp [PageDir.Claims, Owns, and_left_comm]
  | user s v => cases s <;> simp [PageDir.Claims, Owns, and_left_comm]
  | pipe i => simp [PageDir.Claims, Owns]
  | cpuStack i => simp [PageDir.Claims, Owns]

/-- In a state that satisfies the invariant, a page that was handed out is
free or has one owner. -/
theorem Inv.free_or_owned {pages : List Nat} (h : Inv L pages κ)
    (hnodup : pages.Nodup) (hpa : pa ∈ pages) :
    (κ.kmem.freelist.count pa = 1 ∧ ∀ o, ¬ κ.Owns o pa) ∨
      (pa ∉ κ.kmem.freelist ∧ ∃! o, κ.Owns o pa) := by
  have hsplit : (κ.kmem.free + κ.pages).Nodup := by
    rw [h.pages]
    exact hnodup
  obtain ⟨hfree, hpages, hdisj⟩ := Multiset.nodup_add.mp hsplit
  rw [← map_snd_claims] at hpages hdisj
  have hmem : pa ∈ κ.kmem.free + κ.pages := by
    rw [h.pages]
    exact hpa
  rcases Multiset.mem_add.mp hmem with hin | hin
  · refine .inl ⟨List.count_eq_one_of_mem hfree hin, fun o ho => ?_⟩
    exact Multiset.disjoint_left.mp hdisj hin (Multiset.mem_map_of_mem Prod.snd (mem_claims.mpr ho))
  · rw [← map_snd_claims] at hin
    obtain ⟨⟨o, _⟩, hclaim, rfl⟩ := Multiset.mem_map.mp hin
    refine .inr ⟨fun hfree => Multiset.disjoint_left.mp hdisj hfree hin, o, mem_claims.mp hclaim, ?_⟩
    intro o' ho'
    exact congrArg Prod.fst (Multiset.inj_on_of_nodup_map hpages _ (mem_claims.mpr ho') _ hclaim rfl)

theorem kmapEntry_user {ms : List Kmap} {x : Nat} {e : Pte} (h : kmapEntry ms x = some e) :
    e.u = false := by
  obtain ⟨m, _, rfl⟩ := Option.map_eq_some_iff.mp h
  rfl

theorem Inv.space_kernelHalf {pages : Multiset Nat} (h : Inv L pages κ) {d : PageDir}
    (hd : κ.space s = some d) : d.KernelHalf L := by
  cases s with
  | none =>
    cases hd
    exact h.kernel
  | some p =>
    change (if _ then _ else _) = _ at hd
    split at hd
    · cases hd
    · next hstate =>
      obtain ⟨_, d', _, hd', hhalf⟩ := (h.proc p).space hstate
      cases hd.symm.trans hd'
      exact hhalf

theorem exists_fd_of_refs {f : FileIdx} (h : 0 < κ.refs f) :
    ∃ p fd, (κ.proc p).ofile fd = some f := by
  by_contra hnone
  push Not at hnone
  have hzero : κ.refs f = 0 := sum_eq_zero fun p _ => sum_eq_zero fun fd _ => if_neg (hnone p fd)
  omega

theorem FilesOk.pipe_held (h : κ.FilesOk fun _ => 0) {pipe : Pipe} (hpipe : pipe ∈ κ.pipes) :
    ∃ f p fd w, κ.IsEnd f pipe.page w ∧ (κ.proc p).ofile fd = some f := by
  obtain ⟨w, hopen⟩ := h.pipes.live pipe hpipe
  obtain ⟨f, hend⟩ := (h.pipes.ends pipe.page w).mpr ⟨pipe, hpipe, rfl, hopen⟩
  have href : (κ.file f).ref ≠ 0 := by
    intro hzero
    have htype := h.pipes.closed f hzero
    rw [hend.1] at htype
    cases htype
  have hrefs := h.refs f
  obtain ⟨p, fd, hfd⟩ := exists_fd_of_refs (κ := κ) (f := f) (by omega)
  exact ⟨f, p, fd, w, hend, hfd⟩

/-- Physical pages are conserved: what was handed to the allocator is free or
has one owner, nothing else is, and address spaces share no user page and
have the kernel's own half. A pipe that no descriptor reaches is not an owner. -/
structure Conserved (L : Layout) (κ : Kernel) : Prop where
  free_or_owned : ∀ pa ∈ handed L, (κ.kmem.freelist.count pa = 1 ∧ ∀ o, ¬ κ.Owns o pa) ∨
    (pa ∉ κ.kmem.freelist ∧ ∃! o, κ.Owns o pa)
  only_handed : ∀ pa, (pa ∈ κ.kmem.freelist ∨ ∃ o, κ.Owns o pa) → pa ∈ handed L
  user_disjoint : ∀ p q d d' x y e e', p ≠ q → κ.space p = some d → κ.space q = some d' →
    x < KERNBASE → y < KERNBASE → d.entry x = some e → d'.entry y = some e' → e.addr ≠ e'.addr
  kernel_half : ∀ s d, κ.space s = some d → ∀ x < 2 ^ 32, KERNBASE ≤ x →
    d.entry x = kmapEntry (kmap L) x ∧ ∀ e, d.entry x = some e → e.u = false
  pipe_held : ∀ pipe ∈ κ.pipes, ∃ f p fd w, κ.IsEnd f pipe.page w ∧ (κ.proc p).ofile fd = some f

theorem owns_user {d : PageDir} {x : Nat} {e : Pte}
    (hd : κ.space s = some d) (hx : x < KERNBASE) (he : d.entry x = some e) :
    κ.Owns (.user s (x / PGSIZE)) e.addr := by
  refine ⟨?_, d, e, hd, ?_, rfl⟩
  · unfold userPages PGSIZE KERNBASE at *
    omega
  · rw [← he]
    apply d.entry_congr
    all_goals
      simp only [PGSIZE, KERNBASE] at *
      omega

theorem Inv.conserved (h : Inv L (handed L) κ) : κ.Conserved L := by
  have honly (pa : Nat) (hpa : pa ∈ κ.kmem.freelist ∨ ∃ o, κ.Owns o pa) : pa ∈ handed L := by
    rw [← Multiset.mem_coe, ← h.pages, Multiset.mem_add, ← map_snd_claims]
    refine hpa.imp id fun ⟨o, ho⟩ => ?_
    exact Multiset.mem_map_of_mem Prod.snd (mem_claims.mpr ho)
  refine ⟨fun pa hpa => h.free_or_owned (handed_nodup L) hpa, honly, ?_, ?_, ?_⟩
  · intro p q d d' x y e e' hne hd hd' hx hy he he' heq
    have howner := owns_user hd hx he
    have howner' := owns_user hd' hy he'
    rw [← heq] at howner'
    rcases h.free_or_owned (handed_nodup L) (honly _ (Or.inr ⟨_, howner⟩)) with
      ⟨_, hnone⟩ | ⟨_, o, _, hunique⟩
    · exact hnone _ howner
    · have hsame := (hunique _ howner).trans (hunique _ howner').symm
      rw [Owner.user.injEq] at hsame
      exact hne hsame.1
  · intro s d hd x hx hge
    have hhalf := h.space_kernelHalf hd x hx hge
    refine ⟨hhalf, fun e he => ?_⟩
    rw [hhalf] at he
    exact kmapEntry_user he
  · intro pipe hpipe
    exact h.files.pipe_held hpipe

/-- A call that completes, in a state in which every process is within its
bound. An `exec` that comes to a page without a table is not among them. -/
def BoundedStep (L : Layout) (κ κ' : Kernel) : Prop :=
  κ.Bounded ∧ ∃ a, κ.Enabled a ∧ step L κ a = .ok κ'

theorem inv_of_run {ncpu : Nat} {initcode : List UInt8} {κ0 : Kernel}
    (hboot : boot L ncpu initcode = .ok κ0) (hrun : ReflTransGen (BoundedStep L) κ0 κ) :
    Inv L (handed L) κ := by
  refine invariant_of_run (Inv L (handed L)) hrun (boot_spec hboot).1 ?_
  rintro κ1 κ2 h ⟨hbound, a, henabled, hstep⟩
  exact step_inv h (handed_nodup L) hbound henabled hstep

/-- A small kernel: a page of text, sixteen pages of data. -/
def smallLayout : Layout where
  data := 0x80101000
  kend := 0x80111000
  data_aligned := by decide
  text_nonempty := by decide
  data_le_end := by decide
  end_le := by decide

theorem smallLayout_boots (ncpu : Nat) (hncpu : ncpu ≤ 8) :
    ∃ κ, boot smallLayout ncpu [0xEB, 0xFE] = .ok κ := by
  refine boot_ok _ _ (by decide) ?_
  have hlen : (rangePages smallLayout.kend kinit1End).length = 751 := by
    rw [rangePages, List.length_map, List.length_range]
    decide
  omega

theorem BoundedStep.grow (L : Layout) {p : Slot} {n : BitVec 32} (hbounded : κ.Bounded)
    (hlive : κ.Live p) (hn : 0 < n.toInt) (hsz : addInt (κ.proc p).sz n ≤ KERNBASE) :
    ∃ κ', BoundedStep L κ κ' ∧ κ'.Bounded ∧ κ'.kmem = κ.kmem ∧
      κ'.proc p = { κ.proc p with sz := addInt (κ.proc p).sz n } := by
  refine ⟨_, ⟨hbounded, .sbrk p (some n), hlive, step_sbrk (sysSbrk_pos L _ _ hn)⟩,
    hbounded.setProc hsz, rfl, ?_⟩
  rw [setProc_proc, if_pos rfl]

theorem BoundedStep.touch (L : Layout) {p : Slot} {d : PageDir} (addr : Nat)
    (hbounded : κ.Bounded) (hlive : κ.Live p) (hd : (κ.proc p).pgdir = some d)
    (hlt : addr < (κ.proc p).sz) (hguard : PGROUNDDOWN addr ≠ (κ.proc p).guardPage)
    (habsent : d.entry addr = none) (hfree : 2 ≤ κ.kmem.freelist.length) :
    ∃ κ' d' e, BoundedStep L κ κ' ∧ κ'.space (some p) = some d' ∧ d'.entry addr = some e := by
  have hsz := hbounded p hlive
  have haddr : addr < 2 ^ 32 := lt_32_of_user (hlt.trans_le hsz)
  obtain ⟨d', k, hfault⟩ := pageFault_ok L hd hlt hsz hguard habsent hfree
  obtain ⟨e, he⟩ : ∃ e, d'.entry addr = some e := by
    rcases pageFault_spec hfault hd hsz with ⟨hr, _⟩ | ⟨hr, _⟩ |
      ⟨_, _, d1, _, ⟨hr, _⟩ | ⟨_, hd1, _, mem, hnew, _⟩⟩
    iterate 3 cases hr
    cases hd1
    exact ⟨_, (hnew addr haddr).trans (if_pos rfl)⟩
  refine ⟨_, d', e, ⟨hbounded, .fault p addr true, ⟨hlive, haddr, ?_⟩, step_fault_mapped hfault⟩,
    ?_, he⟩
  · intro d1 e1 hd1 he1
    cases hd.symm.trans hd1
    rw [habsent] at he1
    cases he1
  · simp only [space, setProc_proc, if_true, if_neg (live_ne hlive).1]

end Kernel

end Xv6.Vm

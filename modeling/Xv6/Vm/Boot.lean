import Xv6.Vm.Ownership

/-!
The start of the system. `freerange` hands the pages between the end of the
kernel and `PHYSTOP` to the allocator, in two parts; `main` takes the kernel
page directory and the processors' stacks from the first part, `userinit` the
first process from both. The state it leaves satisfies the ownership
invariant, and with enough memory behind the kernel it is reached.
-/

namespace Xv6.Vm

open Finset Lib Function List Multiset
open Sched (Slot ProcState)

/-- The end of what `entrypgdir` maps, where `kinit1` stops. -/
def kinit1End : Nat := KERNBASE + 0x400000

/-- The pages that `kinit1` and `kinit2` hand to the allocator. -/
def handed (L : Layout) : List Nat :=
  rangePages L.kend kinit1End ++ rangePages kinit1End (KERNBASE + PHYSTOP)

variable {ncpu vend vstart : Nat} {L : Layout} {κ : Kernel} {p : Slot} {d : PageDir} {k : Kmem}
variable {initcode : List UInt8}

theorem mem_rangePages {pa : Nat} :
    pa ∈ rangePages vstart vend ↔ ∃ i < (vend - PGROUNDUP vstart) / PGSIZE,
      PGROUNDUP vstart + i * PGSIZE - KERNBASE = pa := by
  simp [rangePages]

theorem PGROUNDUP_low (hlow : vstart ≤ kinit1End) :
    PGROUNDUP vstart = (vstart + 4095) / 4096 * 4096 := by
  unfold kinit1End KERNBASE at hlow
  unfold PGROUNDUP u32 PGSIZE
  omega

theorem rangePages_bounds {pa : Nat} (hpa : pa ∈ rangePages vstart vend)
    (hkend : L.kend ≤ vstart) (hstart : KERNBASE ≤ vstart) (hlow : vstart ≤ kinit1End)
    (hend : vend ≤ KERNBASE + PHYSTOP) :
    L.PageOk pa ∧ vstart ≤ pa + KERNBASE ∧ pa + KERNBASE < vend := by
  obtain ⟨i, hi, rfl⟩ := mem_rangePages.mp hpa
  rw [PGROUNDUP_low hlow] at *
  clear hlow hpa
  simp only [Layout.PageOk, P2V, u32, PGSIZE, KERNBASE, PHYSTOP] at *
  omega

theorem rangePages_nodup (hstart : KERNBASE ≤ vstart)
    (hlow : vstart ≤ kinit1End) : (rangePages vstart vend).Nodup := by
  refine List.nodup_range.map_on ?_
  intro i hi j hj hij
  rw [PGROUNDUP_low hlow] at hij
  unfold KERNBASE PGSIZE at *
  omega

theorem kernbase_le_kend (L : Layout) : KERNBASE ≤ L.kend := by
  have htext := L.text_nonempty
  have hdata := L.data_le_end
  unfold KERNLINK at htext
  omega

theorem first_range_bounds (L : Layout) :
    ∀ pa ∈ rangePages L.kend kinit1End, L.PageOk pa ∧ pa + KERNBASE < kinit1End := by
  intro pa hpa
  obtain ⟨hok, _, hlt⟩ := rangePages_bounds (L := L) hpa le_rfl (kernbase_le_kend L) L.end_le
    (by decide)
  exact ⟨hok, hlt⟩

theorem second_range_bounds (L : Layout) :
    ∀ pa ∈ rangePages kinit1End (KERNBASE + PHYSTOP), L.PageOk pa ∧ kinit1End ≤ pa + KERNBASE := by
  intro pa hpa
  obtain ⟨hok, hle, _⟩ := rangePages_bounds (L := L) hpa L.end_le (by decide) le_rfl le_rfl
  exact ⟨hok, hle⟩

theorem handed_nodup (L : Layout) : (handed L).Nodup := by
  refine List.Nodup.append (rangePages_nodup (kernbase_le_kend L) L.end_le)
    (rangePages_nodup (by decide) le_rfl) ?_
  intro pa hfirst hsecond
  have hlt := (first_range_bounds L pa hfirst).2
  have hle := (second_range_bounds L pa hsecond).2
  omega

theorem handed_pageOk (L : Layout) : ∀ pa ∈ handed L, L.PageOk pa := by
  intro pa hpa
  rcases mem_append.mp hpa with hpa | hpa
  · exact (first_range_bounds L pa hpa).1
  · exact (second_range_bounds L pa hpa).1

theorem kfree_list {pages : List Nat} (hok : ∀ pa ∈ pages, L.PageOk pa) (k : Kmem) :
    ∃ k', pages.foldlM (kfree L) k = .ok k' ∧ k'.free = pages + k.free := by
  induction pages generalizing k with
  | nil => exact ⟨k, rfl, by simp⟩
  | cons pa rest ih =>
    obtain ⟨k1, hfree⟩ := kfree_of_pageOk (hok pa (by simp)) k
    obtain ⟨k', hrest, hpages⟩ := ih (fun pa hpa => hok pa (List.mem_cons_of_mem _ hpa)) k1
    refine ⟨k', ?_, ?_⟩
    · rw [foldlM_cons, hfree]
      exact hrest
    · rw [hpages, (kfree_ok hfree).2.1, ← cons_coe, ← Multiset.singleton_add]
      abel

theorem freerange_first (L : Layout) (k : Kmem) : ∃ k', freerange L k L.kend kinit1End = .ok k' ∧
      k'.free = rangePages L.kend kinit1End + k.free :=
  kfree_list (fun pa hpa => (first_range_bounds L pa hpa).1) k

theorem freerange_second (L : Layout) (k : Kmem) :
    ∃ k', freerange L k kinit1End (KERNBASE + PHYSTOP) = .ok k' ∧
      k'.free = rangePages kinit1End (KERNBASE + PHYSTOP) + k.free :=
  kfree_list (fun pa hpa => (second_range_bounds L pa hpa).1) k

theorem Kernel.Inv.space_le {pages : Multiset Nat} (h : κ.Inv L pages) (hlive : κ.Live p)
    (hd : (κ.proc p).pgdir = some d) :
    d.pages + κ.kmem.free ≤ pages := by
  obtain ⟨kstack, _, hk, _⟩ := h.space hlive
  have hproc : d.pages ≤ (κ.proc p).pages := by
    rw [Proc.pages_eq (Kernel.live_ne hlive).1 hk hd]
    exact Multiset.le_add_left _ _
  have hprocs : (κ.proc p).pages ≤ κ.procPages :=
    single_le_sum (fun _ _ => Multiset.zero_le _) (mem_univ p)
  have hall : κ.procPages ≤ κ.pages := by
    unfold Kernel.pages
    exact (Multiset.le_add_left _ _).trans (Multiset.le_add_right _ _)
  rw [← h.pages, add_comm]
  exact add_le_add le_rfl ((hproc.trans hprocs).trans hall)

theorem Kernel.Inv.pages_ok (h : κ.Inv L (handed L)) (hlive : κ.Live p)
    (hd : (κ.proc p).pgdir = some d) :
    ∀ f ∈ d.pages, L.PageOk f := by
  intro f hf
  apply handed_pageOk L
  rw [← Multiset.mem_coe]
  exact mem_of_le (h.space_le hlive hd) (Multiset.mem_add.mpr (Or.inl hf))

theorem Kernel.Inv.userFrames_ok (h : κ.Inv L (handed L)) (hlive : κ.Live p)
    (hd : (κ.proc p).pgdir = some d) :
    ∀ f ∈ d.userFrames, L.PageOk f := by
  intro f hf
  exact h.pages_ok hlive hd f (Multiset.mem_add.mpr (Or.inr hf))

theorem cpuStacks_spec {n : List Nat} {k' : Kmem} {cpuStacks : List Nat}
    (h : n.foldlM (fun (cpuStacks, k) _ =>
      match kalloc k with
      | none => Except.error Halt.nullPointer
      | some (stack, k) => .ok (stack :: cpuStacks, k)) ([], k) = .ok (cpuStacks, k')) :
    (cpuStacks : Multiset Nat) + k'.free = k.free := by
  refine foldlM_ok (fun _ (s : List Nat × Kmem) => (s.1 : Multiset Nat) + s.2.free = k.free) ?_
    (by simp) h
  rintro i rest ⟨l, k1⟩ ⟨l', k2⟩ hpages hstep
  simp only at hstep hpages ⊢
  split at hstep
  · cases hstep
  · next halloc =>
    cases hstep
    rw [← hpages, (kalloc_some halloc).1, ← cons_coe, ← Multiset.singleton_add]
    abel

theorem cpuStacks_ok {n : List Nat} (cpuStacks : List Nat) (h : n.length ≤ k.freelist.length) :
    ∃ s, n.foldlM (fun (cpuStacks, k) _ =>
      match kalloc k with
      | none => Except.error Halt.nullPointer
      | some (stack, k) => .ok (stack :: cpuStacks, k)) (cpuStacks, k) = .ok s := by
  induction n generalizing k cpuStacks with
  | nil => exact ⟨_, rfl⟩
  | cons i rest ih =>
    rw [length_cons] at h
    obtain ⟨r, k1, halloc, hlen⟩ := kalloc_ok (k := k) (by omega)
    obtain ⟨s, hs⟩ := ih (k := k1) (r :: cpuStacks) (by omega)
    refine ⟨s, ?_⟩
    rw [foldlM_cons]
    simp only [halloc]
    exact hs

theorem second_range_length : (rangePages kinit1End (KERNBASE + PHYSTOP)).length = 56320 := by
  rw [rangePages, length_map, length_range]
  decide

theorem length_freelist (k : Kmem) : k.freelist.length = k.free.card := rfl

theorem inituvm_spec {k' : Kmem} {d' : PageDir} {init : List UInt8}
    (h : inituvm k d init = .ok (d', k')) (hempty : ∀ x < KERNBASE, d.entry x = none)
    (hfree : 2 ≤ k.freelist.length) :
    d'.pages + k'.free = d.pages + k.free ∧ k.freelist.length ≤ k'.freelist.length + 2 ∧
      ∃ mem, ∀ x < 2 ^ 32,
        d'.entry x = if x < PGSIZE then some ⟨mem, true, true⟩ else d.entry x := by
  unfold inituvm at h
  split at h
  · cases h
  obtain ⟨mem, k1, halloc, hlen⟩ := kalloc_ok (k := k) (by omega)
  simp only [halloc] at h
  have hmissing := d.missing_le_one 0
  have hzero : (k1.zero mem).freelist.length = k1.freelist.length := rfl
  obtain ⟨d1, k2, hmap, hlen2⟩ := mappages_page_ok true true (k := k1.zero mem) (d := d) 0 mem
    rfl (by decide) (hempty 0 (by decide)) (by omega)
  rw [hmap] at h
  cases h
  refine ⟨?_, ?_, mem, ?_⟩
  · rw [Kmem.write_free, mappages_pages hmap rfl (by decide), (kalloc_some halloc).1]
    simp only [if_true, Kmem.zero_free]
    abel
  · change _ ≤ k2.freelist.length + 2
    omega
  · intro x hx
    rw [(mappages_page hmap rfl (by decide)).2.2 x hx]
    congr 1
    simp only [PGSIZE, eq_iff_iff, true_and]
    omega

theorem inituvm_ok (init : List UInt8) (hinit : init.length < PGSIZE)
    (hempty : ∀ x < KERNBASE, d.entry x = none) (hfree : 2 ≤ k.freelist.length) :
    ∃ r, inituvm k d init = .ok r := by
  obtain ⟨mem, k1, halloc, hlen⟩ := kalloc_ok (k := k) (by omega)
  have hmissing := d.missing_le_one 0
  have hzero : (k1.zero mem).freelist.length = k1.freelist.length := rfl
  obtain ⟨d1, k2, hmap, _⟩ := mappages_page_ok true true (k := k1.zero mem) (d := d) 0 mem rfl
    (by decide) (hempty 0 (by decide)) (by omega)
  unfold inituvm
  rw [if_neg (by omega)]
  simp only [halloc, hmap]
  exact ⟨_, rfl⟩

def firstProcess (kstack : Nat) (pgdir : PageDir) : Proc :=
  { Proc.zero with
    state := .RUNNABLE, pid := 1, kstack := some kstack, pgdir := some pgdir
    sz := PGSIZE, eip := 0, esp := PGSIZE }

def firstSlot : Slot := ⟨0, NPROC_pos⟩

namespace Kernel

/-- The state behind `userinit`, with the first process in its slot. -/
def initial (k : Kmem) (kpgdir : PageDir) (cpuStacks : List Nat) (kstack : Nat) (pgdir : PageDir) :
    Kernel where
  kmem := k
  kpgdir := kpgdir
  cpuStacks := cpuStacks
  proc := update (fun _ => Proc.zero) firstSlot (firstProcess kstack pgdir)
  nextpid := 2
  initproc := firstSlot
  file := fun _ => ⟨.FD_NONE, 0, false, false, 0⟩
  pipes := []

theorem initial_inv {pages : Multiset Nat} {kpgdir pgdir : PageDir}
    {cpuStacks : List Nat} {kstack : Nat}
    (hpages : k.free + (kpgdir.pages + (cpuStacks : Multiset Nat) + ({kstack} + pgdir.pages)) = pages)
    (hkernel : kpgdir.KernelHalf L) (hkuser : ∀ x < KERNBASE, kpgdir.entry x = none)
    (hpgdir : pgdir.KernelHalf L) : Inv L pages (initial k kpgdir cpuStacks kstack pgdir) := by
  have hofile (p : Slot) :
      ((initial k kpgdir cpuStacks kstack pgdir).proc p).ofile = fun _ => none := by
    by_cases hp : p = firstSlot
    · subst hp
      simp [initial, firstProcess, Proc.zero]
    · simp [initial, hp, Proc.zero]
  refine ⟨?_, ⟨⟨fun _ _ => rfl, ?_, ?_, ?_, nodup_nil⟩, ?_⟩, hkernel, hkuser, ?_⟩
  · have hsum : (initial k kpgdir cpuStacks kstack pgdir).procPages = {kstack} + pgdir.pages := by
      unfold procPages
      rw [sum_eq_single firstSlot]
      · simp only [initial, update_self]
        exact Proc.pages_eq (by simp [firstProcess]) rfl rfl
      · intro p _ hp
        simp [initial, hp, Proc.pages, Proc.zero]
      · simp
    unfold Kernel.pages
    rw [hsum, ← hpages]
    simp [initial, pipePages]
  · intro pa w
    simp [IsEnd, initial]
  · rintro f g pa w ⟨htype, _⟩
    cases htype
  · simp [initial]
  · intro f
    simp only [Kernel.refs, fdRefs, hofile]
    simp [initial]
  · intro p
    by_cases hp : p = firstSlot
    · subst hp
      simp only [initial, update_self]
      refine ⟨fun _ => ⟨kstack, pgdir, rfl, rfl, hpgdir⟩, fun hz => ?_, fun _ _ => rfl⟩
      cases hz
    · simp only [initial, update_of_ne hp]
      refine ⟨fun hne => absurd rfl hne, fun hz => ?_, fun _ _ => rfl⟩
      cases hz

end Kernel

/-- What `boot` leaves: the ownership invariant, and one process with one page,
and most pages free. -/
theorem boot_spec (h : boot L ncpu initcode = .ok κ) :
    κ.Inv L (handed L) ∧ ∃ k kpgdir cpuStacks kstack pgdir mem,
      κ = Kernel.initial k kpgdir cpuStacks kstack pgdir ∧
        (∀ x < KERNBASE, pgdir.entry x = if x < PGSIZE then some ⟨mem, true, true⟩ else none) ∧
          56000 ≤ k.freelist.length := by
  obtain ⟨k1, hfirst, h⟩ := bind_eq_ok.mp h
  obtain ⟨⟨r, k2⟩, hkvm, h⟩ := bind_eq_ok.mp h
  cases r with
  | none => cases h
  | some kpgdir =>
  obtain ⟨⟨cpuStacks, k3⟩, hcpu, h⟩ := bind_eq_ok.mp h
  obtain ⟨k4, hsecond, h⟩ := bind_eq_ok.mp h
  obtain ⟨_, hfirst', hfree1⟩ := freerange_first L ⟨[], fun _ _ => 0⟩
  obtain ⟨_, hsecond', hfree4⟩ := freerange_second L k3
  cases hfirst'.symm.trans hfirst
  cases hsecond'.symm.trans hsecond
  obtain ⟨hfree2, hkuser, hkernel, _⟩ := (setupkvm_spec hkvm).2 kpgdir rfl
  have hfree3 := cpuStacks_spec hcpu
  have hmany : 56320 ≤ k4.freelist.length := by
    rw [length_freelist, hfree4, card_add, coe_card, second_range_length]
    omega
  obtain ⟨kstack, k5, halloc, hlen5⟩ := kalloc_ok (k := k4) (by omega)
  simp only [halloc] at h
  obtain ⟨pgdir0, k6, huvm, hlen6⟩ := setupkvm_ok L (k := k5) (by omega)
  obtain ⟨_, huvm', h⟩ := bind_eq_ok.mp h
  cases huvm.symm.trans huvm'
  obtain ⟨⟨pgdir, k7⟩, hinit, h⟩ := bind_eq_ok.mp h
  cases h
  obtain ⟨hfree6, huser, hhalf, _⟩ := (setupkvm_spec huvm).2 pgdir0 rfl
  obtain ⟨hpages, hlen7, mem, hentry⟩ := inituvm_spec (k := k6) hinit huser (by omega)
  refine ⟨Kernel.initial_inv ?_ hkernel hkuser ?_, k7, kpgdir, cpuStacks, kstack, pgdir, mem, rfl,
    ?_, by omega⟩
  · calc k7.free + (kpgdir.pages + (cpuStacks : Multiset Nat) + ({kstack} + pgdir.pages))
        = kpgdir.pages + cpuStacks + ({kstack} + (pgdir.pages + k7.free)) := by abel
      _ = kpgdir.pages + cpuStacks + k4.free := by
          rw [hpages, hfree6, (kalloc_some halloc).1]
      _ = rangePages kinit1End (KERNBASE + PHYSTOP) + (kpgdir.pages + (cpuStacks + k3.free)) := by
          rw [hfree4]
          abel
      _ = handed L := by
          rw [hfree3, hfree2, hfree1, handed, ← Multiset.coe_add, add_comm]
          simp [Kmem.free]
  · intro x hx hge
    rw [hentry x hx, if_neg, hhalf x hx hge]
    simp only [PGSIZE, KERNBASE] at *
    omega
  · intro x hx
    rw [hentry x (by simp only [KERNBASE] at hx; omega), huser x hx]

theorem boot_first (h : boot L ncpu initcode = .ok κ) :
    ∃ kstack d mem, κ.proc κ.initproc = firstProcess kstack d ∧
      (∀ x < KERNBASE, d.entry x = if x < PGSIZE then some ⟨mem, true, true⟩ else none) ∧
      56000 ≤ κ.kmem.freelist.length ∧ ∀ p ≠ κ.initproc, κ.proc p = Proc.zero := by
  obtain ⟨_, k, kpgdir, cpuStacks, kstack, d, mem, rfl, hentry, hfree⟩ := boot_spec h
  refine ⟨kstack, d, mem, by simp [Kernel.initial], hentry, hfree, ?_⟩
  intro p hp
  simp only [Kernel.initial] at hp ⊢
  rw [update_of_ne hp]

theorem boot_bounded (h : boot L ncpu initcode = .ok κ) : κ.Bounded := by
  obtain ⟨kstack, d, mem, hproc, _, _, hothers⟩ := boot_first h
  intro p _
  by_cases hp : p = κ.initproc
  · rw [hp, hproc]
    change PGSIZE ≤ KERNBASE
    decide
  · rw [hothers p hp]
    exact Nat.zero_le _

/-- With 67 pages below four megabytes for the kernel directory, and one for
the stack of each other processor, the system starts. -/
theorem boot_ok (L : Layout) (ncpu : Nat) (hinit : initcode.length < PGSIZE)
    (hfree : 67 + (ncpu - 1) ≤ (rangePages L.kend kinit1End).length) :
    ∃ κ, boot L ncpu initcode = .ok κ := by
  obtain ⟨k1, hfirst, hfree1⟩ := freerange_first L ⟨[], fun _ _ => 0⟩
  have hlen1 : k1.freelist.length = (rangePages L.kend kinit1End).length := by
    rw [length_freelist, hfree1]
    simp [Kmem.free]
  obtain ⟨kpgdir, k2, hkvm, hlen2⟩ := setupkvm_ok L (k := k1) (by omega)
  obtain ⟨⟨cpuStacks, k3⟩, hcpu⟩ := cpuStacks_ok (n := List.range (ncpu - 1)) (k := k2) []
    (by rw [length_range]; omega)
  obtain ⟨k4, hsecond, hfree4⟩ := freerange_second L k3
  have hmany : 56320 ≤ k4.freelist.length := by
    rw [length_freelist, hfree4, card_add, coe_card, second_range_length]
    omega
  obtain ⟨kstack, k5, halloc, hlen5⟩ := kalloc_ok (k := k4) (by omega)
  obtain ⟨pgdir0, k6, huvm, hlen6⟩ := setupkvm_ok L (k := k5) (by omega)
  obtain ⟨_, huser, _⟩ := (setupkvm_spec huvm).2 pgdir0 rfl
  obtain ⟨d, hd⟩ := inituvm_ok (k := k6) initcode hinit huser (by omega)
  refine ⟨Kernel.initial d.2 kpgdir cpuStacks kstack d.1, bind_eq_ok.mpr ⟨_, hfirst,
    bind_eq_ok.mpr ⟨_, hkvm, bind_eq_ok.mpr ⟨_, hcpu, bind_eq_ok.mpr ⟨_, hsecond, ?_⟩⟩⟩⟩⟩
  simp only [halloc]
  exact bind_eq_ok.mpr ⟨_, huvm, bind_eq_ok.mpr ⟨_, hd, rfl⟩⟩

end Xv6.Vm

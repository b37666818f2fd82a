import Xv6.Vm.Mapping

/-!
Whole address spaces: `freevm` gives every page back, `setupkvm` builds the
kernel half that `kmap` describes, `copyuvm` clones the user half.
-/

namespace Xv6.Vm

open Finset Lib List Multiset PageDir

variable {i sz : Nat} {L : Layout} {k k' : Kmem}

namespace PageDir

/-- The pages of the directory and of its tables. -/
def frames (d : PageDir) : Multiset Nat := {d.frame} + d.tableFrames

theorem pages_eq (d : PageDir) : d.pages = d.frames + d.userFrames := rfl

theorem tableFrames_eq (d : PageDir) :
    d.tableFrames = ((List.range NPDENTRIES).map fun i => tableFrame (d.pde i)).sum := by
  unfold tableFrames
  rw [← sum_toFinset _ List.nodup_range, List.toFinset_range]

theorem frame_mem_tableFrames {d : PageDir} {t : PageTable} (hi : i < NPDENTRIES)
    (ht : d.pde i = some t) : t.frame ∈ d.tableFrames := by
  refine mem_sum.mpr ⟨i, List.mem_range.mpr hi, ?_⟩
  rw [ht, tableFrame_some]
  exact Multiset.mem_singleton_self _

end PageDir

theorem freeTables_spec {d : PageDir}
    (h : freeTables L d k = .ok k') : k'.free = d.frames + k.free := by
  obtain ⟨k1, hloop, hfree⟩ := bind_eq_ok.mp h
  obtain ⟨_, hpage, _⟩ := kfree_ok hfree
  -- over the entries still to come
  have hpages := foldlM_ok (fun rest (κ : Kmem) =>
      κ.free + (rest.map fun i => tableFrame (d.pde i)).sum = k.free + d.tableFrames)
    (by
      intro i rest a b hpages hstep
      rw [List.map_cons, List.sum_cons] at hpages
      split at hstep
      · next t ht =>
        obtain ⟨_, hfreed, _⟩ := kfree_ok hstep
        rw [ht, tableFrame_some] at hpages
        rw [hfreed, ← hpages]
        abel
      · next hnone =>
        cases hstep
        rw [hnone, tableFrame_none, zero_add] at hpages
        exact hpages)
    (by rw [tableFrames_eq]) hloop
  simp only [map_nil, sum_nil, add_zero] at hpages
  rw [hpage, hpages]
  unfold PageDir.frames
  abel

theorem freeTables_confined {d : PageDir}
    (h : freeTables L d k = .ok k') : Confined d.frames k k' := by
  obtain ⟨k1, hloop, hfree⟩ := bind_eq_ok.mp h
  have htables := foldlM_ok (fun rest κ => (∀ i ∈ rest, i < NPDENTRIES) ∧ Confined d.frames k κ)
    (by
      rintro i rest a b ⟨hrange, hconfined⟩ hstep
      refine ⟨fun j hj => hrange j (List.mem_cons_of_mem i hj), ?_⟩
      split at hstep
      · next t ht =>
        have hframe := frame_mem_tableFrames (hrange i (by simp)) ht
        exact hconfined.trans (Confined.kfree hstep (Multiset.mem_add.mpr (Or.inr hframe)))
      · cases hstep
        exact hconfined)
    ⟨fun i hi => List.mem_range.mp hi, Confined.refl _ _⟩ hloop
  exact htables.2.trans (Confined.kfree hfree (by simp [PageDir.frames]))

theorem Unmapped.frames {d d' : PageDir} {gone : Nat → Prop}
    (h : Unmapped k d k' d' gone) : d'.frames = d.frames := by
  unfold PageDir.frames
  rw [h.frame, tableFrames_congr h.tables]

theorem deallocuvm_all {d d' : PageDir} {r : Nat}
    (h : deallocuvm L k d KERNBASE 0 = .ok (r, d', k')) :
    (∀ x < KERNBASE, d'.entry x = none) ∧ d'.frames = d.frames ∧
      k'.free = d.userFrames + k.free ∧ ∀ x < 2 ^ 32, KERNBASE ≤ x → d'.entry x = d.entry x := by
  have hunmapped := (deallocuvm_spec h le_rfl).2
  have hempty (x : Nat) (hx : x < KERNBASE) : d'.entry x = none := by
    apply hunmapped.absent x
    all_goals
      simp only [PGROUNDUP, PGROUNDDOWN, u32, PGSIZE, KERNBASE] at *
      omega
  refine ⟨hempty, hunmapped.frames, ?_, ?_⟩
  · rw [← hunmapped.user, userFrames_eq_zero hempty, zero_add]
  · intro x hx hge
    apply hunmapped.kept x hx
    simp only [PGROUNDUP, PGROUNDDOWN, u32, PGSIZE, KERNBASE] at *
    omega

theorem freevm_spec {d : PageDir} (h : freevm L k d true = .ok k') :
    k'.free = d.pages + k.free := by
  unfold freevm at h
  rw [if_pos rfl] at h
  obtain ⟨⟨r, d1, k1⟩, hdealloc, htables⟩ := bind_eq_ok.mp h
  obtain ⟨_, hframes, hfree, _⟩ := deallocuvm_all hdealloc
  rw [freeTables_spec htables, hframes, hfree, PageDir.pages_eq]
  abel

theorem freevm_tables {d : PageDir} (h : freevm L k d false = .ok k') :
    k'.free = d.frames + k.free := by
  unfold freevm at h
  exact freeTables_spec h

theorem freevm_confined {d : PageDir} {b : Bool}
    (h : freevm L k d b = .ok k') : Confined (d.pages + k.free) k k' := by
  have hframes : d.frames ⊆ d.pages + k.free := by
    rw [PageDir.pages_eq, add_assoc]
    exact Multiset.subset_of_le (Multiset.le_add_right _ _)
  cases b with
  | false => exact (freeTables_confined h).mono hframes
  | true =>
    unfold freevm at h
    rw [if_pos rfl] at h
    obtain ⟨⟨r, d1, k1⟩, hdealloc, htables⟩ := bind_eq_ok.mp h
    have hconfined := freeTables_confined htables
    rw [(deallocuvm_all hdealloc).2.1] at hconfined
    exact (deallocuvm_spec hdealloc le_rfl).2.confined.trans (hconfined.mono hframes)

def Kmap.size (m : Kmap) : Nat := sub32 m.physEnd m.physStart

/-- A range of whole pages in the kernel half. -/
structure Kmap.Ok (m : Kmap) : Prop where
  kernel : KERNBASE ≤ m.virt
  virt : m.virt % PGSIZE = 0
  size : m.size % PGSIZE = 0
  pos : 0 < m.size
  virt_le : m.virt + m.size ≤ 2 ^ 32
  phys_le : m.physStart + m.size ≤ 2 ^ 32

theorem kmap_ok (L : Layout) : ∀ m ∈ kmap L, m.Ok := by
  have haligned := L.data_aligned
  have htext := L.text_nonempty
  have hdata := L.data_le_end
  have hend := L.end_le
  intro m hm
  simp only [kmap, List.mem_cons, not_mem_nil, or_false] at hm
  obtain rfl | rfl | rfl | rfl := hm
  all_goals
    constructor
    all_goals
      simp only [Kmap.size, sub32, u32, KERNLINK, KERNBASE, EXTMEM, PHYSTOP, DEVSPACE, PGSIZE] at *
    all_goals omega

def kmapEntry (ms : List Kmap) (x : Nat) : Option Pte :=
  (ms.find? fun m => m.virt ≤ x && x < m.virt + m.size).map fun m =>
    ⟨m.physStart + (PGROUNDDOWN x - m.virt), m.w, false⟩

/-- The kernel half of a directory is the mapping of `kmap`. -/
def PageDir.KernelHalf (L : Layout) (d : PageDir) : Prop :=
  ∀ x < 2 ^ 32, KERNBASE ≤ x → d.entry x = kmapEntry (kmap L) x

theorem mappages_range {w u b : Bool} {d d' : PageDir} {va size pa : Nat}
    (h : mappages k d va size pa w u = .ok (b, d', k')) (hva : va % PGSIZE = 0)
    (hsize : size % PGSIZE = 0) (hpos : 0 < size) (hend : va + size ≤ 2 ^ 32)
    (hpa : pa + size ≤ 2 ^ 32) :
    Mapped k d k' d' ∧ (∀ x < va, d'.entry x = d.entry x) ∧
      (b = true → ∀ x < 2 ^ 32, (va ≤ x ∧ x < va + size → d.entry x = none) ∧
        d'.entry x = if va ≤ x ∧ x < va + size
          then some ⟨pa + (PGROUNDDOWN x - va), w, u⟩ else d.entry x) := by
  rw [mappages_eq hva hsize hpos hend] at h
  obtain ⟨hmapped, m, htrue, _, habsent, hentry⟩ := mappagesLoop_spec h hva
    (by simp only [PGSIZE] at *; omega) (by simp only [PGSIZE] at *; omega)
  refine ⟨hmapped, ?_, ?_⟩
  · intro x hx
    rw [hentry x (by omega), if_neg (by omega)]
  · intro hb x hx
    have hm : m * PGSIZE = size := by
      rw [htrue hb]
      simp only [PGSIZE] at *
      omega
    rw [hm] at habsent hentry
    exact ⟨fun hin => habsent x hin.1 hin.2, hentry x hx⟩

theorem kmapEntry_cons (m : Kmap) (rest : List Kmap) (x : Nat) :
    kmapEntry (m :: rest) x = if m.virt ≤ x ∧ x < m.virt + m.size
      then some ⟨m.physStart + (PGROUNDDOWN x - m.virt), m.w, false⟩ else kmapEntry rest x := by
  unfold kmapEntry
  by_cases hin : m.virt ≤ x ∧ x < m.virt + m.size
  · rw [if_pos hin, List.find?_cons_of_pos (by simpa using hin)]
    rfl
  · rw [if_neg hin, List.find?_cons_of_neg (by simpa using hin)]

theorem Mapped.frames {d d' : PageDir} (h : Mapped k d k' d') :
    d'.frames + k'.free = d.frames + k.free := by
  unfold PageDir.frames
  rw [h.frame, add_assoc, h.tables, add_assoc]

/-- The loop of `setupkvm`. A range that is already mapped panics, so the
ranges of a loop that ends are disjoint. -/
theorem setupLoop_spec {ms : List Kmap} {d : PageDir}
    {r : Option PageDir} (h : setupLoop L ms k d = .ok (r, k')) (hok : ∀ m ∈ ms, m.Ok) :
    (r = none → k'.free = d.frames + k.free) ∧
      ∀ d', r = some d' → Mapped k d k' d' ∧ (∀ x < KERNBASE, d'.entry x = d.entry x) ∧
        ∀ x < 2 ^ 32, ((kmapEntry ms x).isSome → d.entry x = none) ∧
          d'.entry x = (kmapEntry ms x).or (d.entry x) := by
  induction ms generalizing k d with
  | nil =>
    cases h
    refine ⟨by simp, ?_⟩
    rintro d' hd'
    cases hd'
    exact ⟨Mapped.refl _ _, fun _ _ => rfl, fun x _ => by simp [kmapEntry]⟩
  | cons m rest ih =>
    unfold setupLoop at h
    obtain ⟨⟨b, d1, k1⟩, hmap, h⟩ := bind_eq_ok.mp h
    have hm : m.Ok := hok m (by simp)
    change mappages k d m.virt m.size m.physStart m.w false = _ at hmap
    obtain ⟨hmapped, hbelow, hentry⟩ :=
      mappages_range hmap hm.virt hm.size hm.pos hm.virt_le hm.phys_le
    cases b with
    | false =>
      simp only [Bool.false_eq_true, if_false] at h
      obtain ⟨k2, hfree, h⟩ := bind_eq_ok.mp h
      cases h
      refine ⟨fun _ => ?_, by simp⟩
      rw [freevm_tables hfree, hmapped.frames]
    | true =>
      simp only [if_true] at h
      obtain ⟨hnone, hsome⟩ := ih h fun m' hm' => hok m' (List.mem_cons_of_mem m hm')
      refine ⟨fun hr => by rw [hnone hr, hmapped.frames], ?_⟩
      intro d' hd'
      obtain ⟨hmapped', hbelow', hentry'⟩ := hsome d' hd'
      refine ⟨hmapped.trans hmapped', ?_, ?_⟩
      · intro x hx
        rw [hbelow' x hx, hbelow x (hx.trans_le hm.kernel)]
      · intro x hx
        obtain ⟨habsent, hfirst⟩ := hentry rfl x hx
        obtain ⟨hdisjoint, hrest⟩ := hentry' x hx
        rw [kmapEntry_cons, hrest]
        by_cases hin : m.virt ≤ x ∧ x < m.virt + m.size
        · rw [if_pos hin] at hfirst ⊢
          refine ⟨fun _ => habsent hin, ?_⟩
          cases hfound : kmapEntry rest x with
          | none => exact hfirst
          | some e =>
            rw [hdisjoint (by simp [hfound])] at hfirst
            cases hfirst
        · have hsame : d1.entry x = d.entry x := by
            rw [hfirst]
            exact if_neg hin
          rw [if_neg hin, ← hsame]
          exact ⟨hdisjoint, rfl⟩

theorem Mapped.confined {d d' : PageDir} (h : Mapped k d k' d') :
    Confined (d.frames + k.free) k k' :=
  Confined.mono h.mem (Multiset.subset_of_le (Multiset.le_add_left _ _))

theorem setupLoop_confined {ms : List Kmap} {d : PageDir}
    {r : Option PageDir} (h : setupLoop L ms k d = .ok (r, k')) (hok : ∀ m ∈ ms, m.Ok) :
    Confined (d.frames + k.free) k k' := by
  induction ms generalizing k d with
  | nil =>
    cases h
    exact Confined.refl _ _
  | cons m rest ih =>
    unfold setupLoop at h
    obtain ⟨⟨b, d1, k1⟩, hmap, h⟩ := bind_eq_ok.mp h
    have hm : m.Ok := hok m (by simp)
    change mappages k d m.virt m.size m.physStart m.w false = _ at hmap
    have hmapped := (mappages_range hmap hm.virt hm.size hm.pos hm.virt_le hm.phys_le).1
    refine hmapped.confined.trans ?_
    rw [← hmapped.frames]
    cases b with
    | false =>
      obtain ⟨k2, hfree, h⟩ := bind_eq_ok.mp h
      cases h
      exact (freeTables_confined hfree).mono (Multiset.subset_of_le (Multiset.le_add_right _ _))
    | true => exact ih h fun m' hm' => hok m' (List.mem_cons_of_mem m hm')

theorem setupkvm_confined {r : Option PageDir}
    (h : setupkvm L k = .ok (r, k')) : Confined k.free k k' := by
  unfold setupkvm at h
  split at h
  · cases h
    exact Confined.refl _ _
  · next pgdir k1 halloc =>
    obtain ⟨hfree, hmem⟩ := kalloc_some halloc
    have hloop := setupLoop_confined h (kmap_ok L)
    have hempty : (PageDir.empty pgdir).frames = {pgdir} := by
      simp [PageDir.frames, PageDir.tableFrames, PageDir.empty]
    rw [hempty, Kmem.zero_free, ← hfree] at hloop
    intro f hf
    have hne : f ≠ pgdir := fun h => hf (by rw [hfree, h]; simp)
    rw [hloop f hf, Kmem.zero_mem k1 pgdir f hne, hmem]

/-- `setupkvm` builds exactly the kernel half, from the free list. -/
theorem setupkvm_spec {r : Option PageDir} (h : setupkvm L k = .ok (r, k')) :
    (r = none → k'.free = k.free) ∧ ∀ d, r = some d → d.pages + k'.free = k.free ∧
      (∀ x < KERNBASE, d.entry x = none) ∧ d.KernelHalf L ∧ k'.free ≤ k.free := by
  unfold setupkvm at h
  split at h
  · cases h
    exact ⟨fun _ => rfl, by simp⟩
  · next pgdir k1 halloc =>
    obtain ⟨hfree, _⟩ := kalloc_some halloc
    obtain ⟨hnone, hsome⟩ := setupLoop_spec h (kmap_ok L)
    have hempty : (PageDir.empty pgdir).frames = {pgdir} := by
      simp [PageDir.frames, PageDir.tableFrames, PageDir.empty]
    refine ⟨fun hr => by rw [hnone hr, hempty, Kmem.zero_free, hfree], ?_⟩
    intro d hd
    obtain ⟨hmapped, hbelow, hentry⟩ := hsome d hd
    have huser (x : Nat) (hx : x < KERNBASE) : d.entry x = none := by
      rw [hbelow x hx]
      rfl
    refine ⟨?_, huser, ?_, ?_⟩
    · rw [PageDir.pages_eq, userFrames_eq_zero huser, add_zero, hmapped.frames, hempty,
        Kmem.zero_free, hfree]
    · intro x hx _
      rw [(hentry x hx).2]
      exact Option.or_none
    · exact hmapped.free_le.trans (by rw [Kmem.zero_free, hfree]; exact Multiset.le_add_left _ _)

def Pte.flags (e : Pte) : Bool × Bool := (e.w, e.u)

theorem copyLoop_page {src d : PageDir} {n : Nat}
    {r : Option PageDir} (h : copyLoop L src sz (n + 1) k d i = .ok (r, k')) (hi : i % PGSIZE = 0)
    (hlt : i < sz) (hsz : sz ≤ KERNBASE) :
    (src.entry i = none ∧ copyLoop L src sz n k d (i + PGSIZE) = .ok (r, k')) ∨
      ∃ e, src.entry i = some e ∧
        ((r = none ∧ k'.free = d.pages + k.free ∧ Confined (d.pages + k.free) k k') ∨
        ∃ mem d1 k1, d1.pages + k1.free = d.pages + k.free ∧ k1.free ≤ k.free ∧
          Confined k.free k k1 ∧
          (k.free.Nodup → mem ∉ k1.free ∧ k1.mem mem = k.mem e.addr) ∧
          (∀ x < 2 ^ 32, d1.entry x = if x / PGSIZE = i / PGSIZE
            then some ⟨mem, e.w, e.u⟩ else d.entry x) ∧
          copyLoop L src sz n k1 d1 (i + PGSIZE) = .ok (r, k')) := by
  have hnext : u32 (i + PGSIZE) = i + PGSIZE := u32_next (by omega)
  unfold copyLoop at h
  rw [if_pos hlt, hnext, walkpgdir_lookup] at h
  unfold PageDir.entry
  cases ht : src.pde (PDX i) with
  | none =>
    rw [ht] at h
    exact .inl ⟨rfl, h⟩
  | some t =>
    rw [ht] at h
    simp only [Option.map_some, Option.bind_some] at h ⊢
    cases hpte : t.pte (PTX i) with
    | none =>
      rw [hpte] at h
      exact .inl ⟨rfl, h⟩
    | some e =>
      rw [hpte] at h
      refine .inr ⟨e, rfl, ?_⟩
      simp only at h
      split at h
      · obtain ⟨k1, hfree, h⟩ := bind_eq_ok.mp h
        cases h
        exact .inl ⟨rfl, freevm_spec hfree, freevm_confined hfree⟩
      · next mem k1 halloc =>
        obtain ⟨⟨b, d1, k2⟩, hmap, h⟩ := bind_eq_ok.mp h
        obtain ⟨_, hle, hmem, hpages, _, hentry⟩ := allocPage halloc
          (k1.copyPage_free mem e.addr) (k1.copyPage_mem mem e.addr) hmap hi (hlt.trans_le hsz)
        cases b with
        | true =>
          simp only [if_true, add_zero, true_and] at h hpages hentry
          refine .inr ⟨mem, d1, k2, hpages, hle, hmem, ?_, hentry, h⟩
          intro hnodup
          obtain ⟨hfree, hmem1⟩ := kalloc_some halloc
          have hmapped := (mappages_page hmap hi (lt_32_of_user (hlt.trans_le hsz))).1
          have hfresh : mem ∉ k1.free := by
            rw [hfree, Multiset.singleton_add, Multiset.nodup_cons] at hnodup
            exact hnodup.1
          refine ⟨fun hin => hfresh (mem_of_le hmapped.free_le hin), ?_⟩
          rw [hmapped.mem mem hfresh, ← hmem1]
          simp only [Kmem.copyPage, Function.update_self]
        | false =>
          simp only [Bool.false_eq_true, if_false] at h hpages
          obtain ⟨k3, hkfree, h⟩ := bind_eq_ok.mp h
          obtain ⟨k4, hfree, h⟩ := bind_eq_ok.mp h
          cases h
          have hfreed := (kfree_ok hkfree).2.1
          have hall : d1.pages + k3.free = d.pages + k.free := by
            rw [hfreed, ← hpages]
            abel
          refine .inl ⟨rfl, by rw [freevm_spec hfree, hall], ?_⟩
          have hown : k.free ⊆ d.pages + k.free := Multiset.subset_of_le (Multiset.le_add_left _ _)
          have hlast := freevm_confined hfree
          rw [hall] at hlast
          refine (Confined.mono hmem hown).trans ((Confined.kfree hkfree ?_).trans hlast)
          rw [← hall, hfreed]
          simp

/-- What `copyuvm` makes of the pages of `[lo, hi)`. -/
structure Copied (src d d' : PageDir) (lo hi : Nat) : Prop where
  kept : ∀ x < 2 ^ 32, ¬ (lo ≤ x ∧ PGROUNDDOWN x < hi) → d'.entry x = d.entry x
  flags : ∀ x < 2 ^ 32, lo ≤ x → PGROUNDDOWN x < hi →
    (d'.entry x).map Pte.flags = (src.entry x).map Pte.flags

theorem Copied.done (src d : PageDir) (hi : i % PGSIZE = 0) (hstop : ¬ i < sz) :
    Copied src d d i sz where
  kept _ _ _ := rfl
  flags x _ hge hin := by
    simp only [PGROUNDDOWN, PGSIZE] at *
    omega

theorem Copied.page {src d d1 d' : PageDir} (hi : i % PGSIZE = 0) (hlt : i < sz)
    (hsz : sz ≤ KERNBASE) (hrest : Copied src d1 d' (i + PGSIZE) sz)
    (hsame : ∀ x < 2 ^ 32, x / PGSIZE ≠ i / PGSIZE → d1.entry x = d.entry x)
    (hpage : (d1.entry i).map Pte.flags = (src.entry i).map Pte.flags) : Copied src d d' i sz := by
  have hi32 : i < 2 ^ 32 := by
    simp only [KERNBASE] at hsz
    omega
  have hin (x : Nat) (hx : x / PGSIZE = i / PGSIZE) :
      i ≤ x ∧ PGROUNDDOWN x < sz ∧ ¬ i + PGSIZE ≤ x := by
    simp only [PGROUNDDOWN, PGSIZE] at *
    omega
  constructor
  · intro x hx hout
    have hne : x / PGSIZE ≠ i / PGSIZE := fun h => hout ⟨(hin x h).1, (hin x h).2.1⟩
    rw [hrest.kept x hx fun h => hout ⟨by omega, h.2⟩, hsame x hx hne]
  · intro x hx hge hlow
    by_cases hpg : x / PGSIZE = i / PGSIZE
    · rw [hrest.kept x hx fun h => (hin x hpg).2.2 h.1, d1.entry_congr hx hi32 hpg, hpage,
        src.entry_congr hx hi32 hpg]
    · refine hrest.flags x hx ?_ hlow
      simp only [PGSIZE] at *
      omega

/-- What `copyuvm` hands out: an address space, or every page back. -/
def CopyResult (src d : PageDir) (k k' : Kmem) (lo hi : Nat) : Option PageDir → Prop
  | none => k'.free = d.pages + k.free
  | some d' => d'.pages + k'.free = d.pages + k.free ∧ Copied src d d' lo hi

theorem copyLoop_spec {src d : PageDir} {n : Nat}
    {r : Option PageDir} (h : copyLoop L src sz n k d i = .ok (r, k')) (hi : i % PGSIZE = 0)
    (hsz : sz ≤ KERNBASE) (hnew : ∀ x < 2 ^ 32, i ≤ x → PGROUNDDOWN x < sz → d.entry x = none) :
    CopyResult src d k k' i sz r := by
  induction n generalizing k d i with
  | zero =>
    unfold copyLoop at h
    split at h
    · cases h
    · next hstop =>
      cases h
      exact ⟨rfl, Copied.done src d hi hstop⟩
  | succ n ih =>
    by_cases hlt : i < sz
    · have hi' : (i + PGSIZE) % PGSIZE = 0 := by rw [Nat.add_mod_right, hi]
      have hi32 : i < 2 ^ 32 := by
        simp only [KERNBASE] at hsz
        omega
      have hrest {k1 : Kmem} {d1 : PageDir} (hpages : d1.pages + k1.free = d.pages + k.free)
          (hsame : ∀ x < 2 ^ 32, x / PGSIZE ≠ i / PGSIZE → d1.entry x = d.entry x)
          (hpage : (d1.entry i).map Pte.flags = (src.entry i).map Pte.flags)
          (hloop : copyLoop L src sz n k1 d1 (i + PGSIZE) = .ok (r, k')) :
          CopyResult src d k k' i sz r := by
        have hres := ih hloop hi' (by
          intro x hx hge hin
          have hne : x / PGSIZE ≠ i / PGSIZE := by
            simp only [PGSIZE] at *
            omega
          rw [hsame x hx hne]
          exact hnew x hx (by omega) hin)
        cases r with
        | none => exact hres.trans hpages
        | some d' => exact ⟨hres.1.trans hpages, hres.2.page hi hlt hsz hsame hpage⟩
      obtain ⟨habsent, hloop⟩ | ⟨e, hpte, ⟨rfl, hfree, _⟩ |
          ⟨mem, d1, k1, hpages, _, _, _, hentry, hloop⟩⟩ := copyLoop_page h hi hlt hsz
      · refine hrest rfl (fun _ _ _ => rfl) ?_ hloop
        rw [habsent, hnew i hi32 le_rfl]
        simp only [PGROUNDDOWN, PGSIZE] at *
        omega
      · exact hfree
      · refine hrest hpages ?_ ?_ hloop
        · intro x hx hne
          rw [hentry x hx, if_neg hne]
        · rw [hentry i hi32, if_pos rfl, hpte]
          rfl
    · unfold copyLoop at h
      rw [if_neg hlt] at h
      cases h
      exact ⟨rfl, Copied.done src d hi hlt⟩

/-- The user half of `d` has the pages of `src` below `sz`, with their
permissions, and no others. -/
def UserCopy (src d : PageDir) (sz : Nat) : Prop :=
  ∀ x < KERNBASE, if PGROUNDDOWN x < sz then (d.entry x).map Pte.flags = (src.entry x).map Pte.flags
    else d.entry x = none

theorem copyuvm_spec {src : PageDir} {r : Option PageDir}
    (h : copyuvm L k src sz = .ok (r, k')) (hsz : sz ≤ KERNBASE) :
    (r = none → k'.free = k.free) ∧ ∀ d, r = some d →
      d.pages + k'.free = k.free ∧ d.KernelHalf L ∧ UserCopy src d sz := by
  obtain ⟨⟨d0, k0⟩, hsetup, h⟩ := bind_eq_ok.mp h
  obtain ⟨hnone, hsome⟩ := setupkvm_spec hsetup
  cases d0 with
  | none =>
    cases h
    exact ⟨fun _ => hnone rfl, by simp⟩
  | some d0 =>
    obtain ⟨hpages, huser, hkernel, _⟩ := hsome d0 rfl
    have hlow (x : Nat) (hin : PGROUNDDOWN x < sz) : x < KERNBASE := by
      simp only [PGROUNDDOWN, PGSIZE, KERNBASE] at *
      omega
    have hres := copyLoop_spec h rfl hsz fun x _ _ hin => huser x (hlow x hin)
    cases r with
    | none => exact ⟨fun _ => hres.trans hpages, by simp⟩
    | some d =>
      refine ⟨by simp, ?_⟩
      rintro d' hd'
      cases hd'
      refine ⟨hres.1.trans hpages, ?_, ?_⟩
      · intro x hx hge
        rw [hres.2.kept x hx fun hin => absurd (hlow x hin.2) (by omega)]
        exact hkernel x hx hge
      · intro x hx
        have hx32 : x < 2 ^ 32 := by
          simp only [KERNBASE] at hx
          omega
        split
        · next hin => exact hres.2.flags x hx32 (Nat.zero_le x) hin
        · next hout => rw [hres.2.kept x hx32 fun hin => hout hin.2, huser x hx]

end Xv6.Vm

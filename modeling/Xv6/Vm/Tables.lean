import Xv6.Vm.ExecOk

/-!
The page tables of the directories that the kernel builds: `setupkvm` makes
those of `kmap`, `allocuvm` and the loader of `exec` those of the user half.
Between the direct mapping and the devices there are none.
-/

namespace Xv6.Vm

open Lib

section

variable {k k' : Kmem} {d d' : PageDir} {i : Nat}

theorem PageDir.setPte_pde (d : PageDir) {a : Nat} (e : Option Pte) (hi : i ≠ PDX a) :
    (d.setPte a e).pde i = d.pde i := by
  unfold setPte
  split
  · exact Function.update_of_ne hi _ _
  · rfl

theorem walkpgdir_pde {a : Nat} {e : Option Pte} (h : walkpgdir k d a true = some (e, d', k'))
    (hi : i ≠ PDX a) : d'.pde i = d.pde i := by
  unfold walkpgdir at h
  split at h
  · cases h
    rfl
  · rw [if_pos rfl] at h
    split at h
    · cases h
    · cases h
      exact Function.update_of_ne hi _ _

theorem mappagesLoop_pde {w u b : Bool} {n a pa : Nat}
    (h : mappagesLoop w u n k d a pa = .ok (b, d', k')) (hend : a + n * PGSIZE < 2 ^ 32)
    (hi : i < PDX a ∨ PDX (a + n * PGSIZE) < i) : d'.pde i = d.pde i := by
  induction n generalizing k d a pa with
  | zero =>
    rw [zero_mul, add_zero] at hi
    unfold mappagesLoop at h
    split at h
    · cases h
      rfl
    · cases h
    · next d1 k1 hwalk =>
      cases h
      rw [d1.setPte_pde _ (by omega), walkpgdir_pde hwalk (by omega)]
  | succ n ih =>
    have hlast : a + PGSIZE + n * PGSIZE = a + (n + 1) * PGSIZE := by ring
    have hnext : u32 (a + PGSIZE) = a + PGSIZE := by
      simp only [u32, PGSIZE] at *
      omega
    have hmono : PDX a ≤ PDX (a + PGSIZE) ∧ PDX a ≤ PDX (a + (n + 1) * PGSIZE) := by
      rw [PDX_eq_div hend, PDX_eq_div (by simp only [PGSIZE] at *; omega), PDX_eq_div (by omega)]
      simp only [PGSIZE] at *
      omega
    unfold mappagesLoop at h
    split at h
    · cases h
      rfl
    · cases h
    · next d1 k1 hwalk =>
      simp only [hnext] at h
      rw [ih h (by rw [hlast]; exact hend) (by rw [hlast]; omega), d1.setPte_pde _ (by omega),
        walkpgdir_pde hwalk (by omega)]

theorem mappages_pde {w u b : Bool} {va size pa : Nat}
    (h : mappages k d va size pa w u = .ok (b, d', k')) (hva : va % PGSIZE = 0)
    (hsize : size % PGSIZE = 0) (hpos : 0 < size) (hend : va + size ≤ 2 ^ 32)
    (hi : i < PDX va ∨ PDX (va + size - PGSIZE) < i) : d'.pde i = d.pde i := by
  have hlast : va + (size / PGSIZE - 1) * PGSIZE = va + size - PGSIZE := by
    simp only [PGSIZE] at *
    omega
  rw [mappages_eq hva hsize hpos hend] at h
  apply mappagesLoop_pde h
  · simp only [PGSIZE] at *
    omega
  · rw [hlast]
    exact hi

theorem setupLoop_pde {L : Layout} {ms : List Kmap} (hok : ∀ m ∈ ms, m.Ok)
    (h : setupLoop L ms k d = .ok (some d', k'))
    (hi : ∀ m ∈ ms, i < PDX m.virt ∨ PDX (m.virt + m.size - PGSIZE) < i) : d'.pde i = d.pde i := by
  induction ms generalizing k d with
  | nil =>
    cases h
    rfl
  | cons m rest ih =>
    unfold setupLoop at h
    obtain ⟨⟨b, d1, k1⟩, hmap, h⟩ := bind_eq_ok.mp h
    have hm : m.Ok := hok m (by simp)
    change mappages k d m.virt m.size m.physStart m.w false = _ at hmap
    have hfirst := mappages_pde hmap hm.virt hm.size hm.pos hm.virt_le (hi m (by simp))
    cases b with
    | false =>
      obtain ⟨k2, _, h⟩ := bind_eq_ok.mp h
      cases h
    | true =>
      rw [ih (fun m' hm' => hok m' (List.mem_cons_of_mem m hm')) h
        fun m' hm' => hi m' (List.mem_cons_of_mem m hm'), hfirst]

theorem setupkvm_pde {L : Layout} (h : setupkvm L k = .ok (some d, k')) (hlo : 568 ≤ i)
    (hhi : i < 1016) : d.pde i = none := by
  unfold setupkvm at h
  split at h
  · cases h
  · have htext := L.text_nonempty
    have hdata := L.data_le_end
    have hend := L.end_le
    have haligned := L.data_aligned
    rw [setupLoop_pde (kmap_ok L) h]
    · rfl
    · intro m hm
      simp only [kmap, List.mem_cons, List.not_mem_nil, or_false] at hm
      obtain rfl | rfl | rfl | rfl := hm
      all_goals
        simp only [Kmap.size, sub32, u32, PDX, KERNLINK, KERNBASE, EXTMEM, PHYSTOP, DEVSPACE,
          PGSIZE] at *
        omega

theorem allocLoop_pde {L : Layout} {oldsz newsz n a r : Nat}
    (h : allocLoop L oldsz newsz n k d a = .ok (r, d', k')) (hr : r ≠ 0) (ha : a % PGSIZE = 0)
    (hend : a + n * PGSIZE ≤ KERNBASE) (hi : 512 ≤ i) : d'.pde i = d.pde i := by
  induction n generalizing k d a with
  | zero =>
    cases h
    rfl
  | succ n ih =>
    have hlt : a < KERNBASE := by
      simp only [PGSIZE] at hend
      omega
    unfold allocLoop at h
    split at h
    · obtain ⟨⟨_, _, _⟩, _, h⟩ := bind_eq_ok.mp h
      cases h
      exact absurd rfl hr
    · obtain ⟨⟨b, d1, k1⟩, hmap, h⟩ := bind_eq_ok.mp h
      have hpdx := PDX_of_lt_KERNBASE hlt
      have hfirst := mappages_pde hmap (i := i) ha (by decide) (by decide)
        (by simp only [PGSIZE, KERNBASE] at *; omega) (by rw [Nat.add_sub_cancel]; omega)
      cases b with
      | false =>
        obtain ⟨⟨_, _, _⟩, _, h⟩ := bind_eq_ok.mp h
        obtain ⟨_, _, h⟩ := bind_eq_ok.mp h
        cases h
        exact absurd rfl hr
      | true =>
        have hnext : u32 (a + PGSIZE) = a + PGSIZE := u32_next (by omega)
        simp only [if_true, hnext] at h
        rw [ih h (by simp only [PGSIZE] at *; omega) (by simp only [PGSIZE] at *; omega), hfirst]

theorem allocuvm_pde {L : Layout} {oldsz newsz r : Nat}
    (h : allocuvm L k d oldsz newsz = .ok (r, d', k')) (hr : r ≠ 0) (hi : 512 ≤ i) :
    d'.pde i = d.pde i := by
  unfold allocuvm at h
  split at h
  · cases h
    exact absurd rfl hr
  split at h
  · cases h
    rfl
  · refine allocLoop_pde h hr (Nat.mul_mod_left _ _) ?_ hi
    simp only [pagesBetween, PGROUNDUP, u32, PGSIZE, KERNBASE] at *
    omega

theorem clearpteu_pde {uva : Nat} (h : clearpteu d uva = .ok d') (huva : uva < KERNBASE)
    (hi : 512 ≤ i) : d'.pde i = d.pde i := by
  have hpdx := PDX_of_lt_KERNBASE huva
  unfold clearpteu at h
  split at h
  · cases h
  · cases h
    exact d.setPte_pde _ (by omega)

end

/-- The directories that `setupkvm` makes, `allocuvm` grows from free pages and
`clearpteu` closes pages of. -/
inductive Built (L : Layout) : PageDir → Prop
  | setup {k k' : Kmem} {d : PageDir} (hfree : k.free.Nodup)
      (h : setupkvm L k = .ok (some d, k')) : Built L d
  | alloc {k k' : Kmem} {d d' : PageDir} {oldsz newsz r : Nat} (hd : Built L d)
      (hfree : (d.pages + k.free).Nodup) (h : allocuvm L k d oldsz newsz = .ok (r, d', k')) :
      Built L d'
  | clear {d d' : PageDir} {uva : Nat} (hd : Built L d) (huva : uva < KERNBASE)
      (h : clearpteu d uva = .ok d') : Built L d'

namespace Built

variable {L : Layout} {d : PageDir}

theorem pages_nodup (h : Built L d) : d.pages.Nodup := by
  induction h with
  | setup hfree h =>
    have hpages := ((setupkvm_spec h).2 _ rfl).1
    exact Multiset.nodup_of_le (hpages ▸ Multiset.le_add_right _ _) hfree
  | alloc _ hfree h _ =>
    rw [← allocuvm_pages h] at hfree
    exact Multiset.nodup_of_le (Multiset.le_add_right _ _) hfree
  | clear _ huva h ih =>
    rw [(clearpteu_spec h (lt_32_of_user huva)).1]
    exact ih

theorem userFrames_nodup (h : Built L d) : d.userFrames.Nodup := by
  have hpages := h.pages_nodup
  rw [PageDir.pages_eq] at hpages
  exact Multiset.nodup_of_le (Multiset.le_add_left _ _) hpages

theorem kernelHalf (h : Built L d) : d.KernelHalf L := by
  induction h with
  | setup _ h => exact ((setupkvm_spec h).2 _ rfl).2.2.1
  | alloc _ _ h ih => exact (allocuvm_sameKernel h).kernelHalf ih
  | clear _ huva h ih =>
    intro x hx hge
    rw [(clearpteu_spec h (lt_32_of_user huva)).2 x hx, if_neg, ih x hx hge]
    simp only [PGSIZE, KERNBASE] at *
    omega

end Built

theorem segmentLoop_built {L : Layout} {ip : List UInt8} {n off sz sz' : Nat} {k k' : Kmem}
    {d d' : PageDir} (h : segmentLoop L ip n off k d sz = .ok (some sz', d', k'))
    (hdense : Dense d sz) (hsz : sz < KERNBASE) (hd : Built L d)
    (hnodup : (d.pages + k.free).Nodup) :
    Built L d' ∧ ∀ i, 512 ≤ i → d'.pde i = d.pde i := by
  induction n generalizing off k d sz with
  | zero =>
    cases h
    exact ⟨hd, fun _ _ => rfl⟩
  | succ n ih =>
    obtain ⟨hnone, _⟩ | ⟨b, _, ⟨_, h⟩ | ⟨d1, k1, k2, sz1, _, hseg, halloc, hload, h⟩⟩ :=
      segmentLoop_cases h hdense hsz
    · cases hnone
    · exact ih h hdense hsz hd hnodup
    · have hnodup1 : (d1.pages + k2.free).Nodup := by
        rw [loaduvm_free hload, allocuvm_pages halloc]
        exact hnodup
      obtain ⟨hbuilt, htables⟩ := ih h hseg.dense hseg.lt (hd.alloc hnodup halloc) hnodup1
      have hne : sz1 ≠ 0 := by
        have hpos := hseg.loadable.2
        have hle := hseg.le
        omega
      exact ⟨hbuilt, fun i hi => (htables i hi).trans (allocuvm_pde halloc hne hi)⟩

theorem execLoad_built {L : Layout} {ip : List UInt8} {k k' : Kmem} {elf : Loaded}
    (h : execLoad L k ip = .ok (some elf, k')) (hnodup : k.free.Nodup) :
    Built L elf.pgdir ∧ ∀ i, 568 ≤ i → i < 1016 → elf.pgdir.pde i = none := by
  obtain ⟨b, pgdir, k1, _, hsetup, hload⟩ := execLoad_some h
  have hpages := ((setupkvm_spec hsetup).2 pgdir rfl).1
  obtain ⟨hbuilt, htables⟩ := segmentLoop_built hload (setupkvm_dense hsetup) (by decide)
    (.setup hnodup hsetup) (hpages ▸ hnodup)
  refine ⟨hbuilt, fun i hlo hhi => ?_⟩
  rw [htables i (by omega), setupkvm_pde hsetup hlo hhi]

end Xv6.Vm

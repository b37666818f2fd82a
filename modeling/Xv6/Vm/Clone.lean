import Xv6.Vm.Dealloc

/-!
`copyuvm` clones an address space. The pages of the clone come from the free
list, so that copying never touches a page in use: the source keeps its
contents, and what has been copied keeps its own.
-/

namespace Xv6.Vm

open Finset Lib Kernel PageDir

/-- The page of `x` in the clone, beside the page of `x` in the source. -/
def SamePage (src d : PageDir) (k k' : Kmem) (x : Nat) : Prop :=
  match src.entry x with
  | none => d.entry x = none
  | some e => ∃ f, d.entry x = some ⟨f, e.w, e.u⟩ ∧ k'.mem f = k.mem e.addr

variable {L : Layout} {d src : PageDir} {sz : Nat} {k k' : Kmem}

/-- The loop of `copyuvm` from page `i`, if it succeeds: it writes to free pages
only, and the pages from `i` on are copies. -/
theorem copyLoop_cloned {d' : PageDir} {n i : Nat}
    (h : copyLoop L src sz n k d i = .ok (some d', k')) (hi : i % PGSIZE = 0)
    (hsz : sz ≤ KERNBASE) (hnew : ∀ x < 2 ^ 32, i ≤ x → PGROUNDDOWN x < sz → d.entry x = none)
    (hnodup : k.free.Nodup) (hsrc : ∀ f ∈ src.userFrames, f ∉ k.free) :
    Confined k.free k k' ∧ ∀ x < KERNBASE, i ≤ x → PGROUNDDOWN x < sz → SamePage src d' k k' x := by
  induction n generalizing k d i with
  | zero =>
    unfold copyLoop at h
    split at h
    · cases h
    · next hstop =>
      cases h
      refine ⟨Confined.refl _ _, fun x _ hge hin => ?_⟩
      simp only [PGROUNDDOWN, PGSIZE] at *
      omega
  | succ n ih =>
    by_cases hlt : i < sz
    · have hi' : (i + PGSIZE) % PGSIZE = 0 := by rw [Nat.add_mod_right, hi]
      have hi32 : i < 2 ^ 32 := lt_32_of_user (hlt.trans_le hsz)
      have hpage (x : Nat) (hge : i ≤ x) : x / PGSIZE = i / PGSIZE ∨ i + PGSIZE ≤ x := by
        simp only [PGSIZE] at *
        omega
      have hnot (x : Nat) (hin : x / PGSIZE = i / PGSIZE) : ¬ i + PGSIZE ≤ x := by
        simp only [PGSIZE] at *
        omega
      obtain ⟨habsent, hloop⟩ | ⟨e, hpte, ⟨hnone, _⟩ |
          ⟨mem, d1, k1, _, hle, hfirst, hmem, hentry, hloop⟩⟩ := copyLoop_page h hi hlt hsz
      · have hnew' : ∀ x < 2 ^ 32, i + PGSIZE ≤ x → PGROUNDDOWN x < sz → d.entry x = none :=
          fun x hx hge hin => hnew x hx (by omega) hin
        obtain ⟨hconfined, hrest⟩ := ih hloop hi' hnew' hnodup hsrc
        refine ⟨hconfined, fun x hx hge hin => ?_⟩
        rcases hpage x hge with hsame | hlater
        · have hkept := (copyLoop_spec hloop hi' hsz hnew').2.kept x (lt_32_of_user hx)
            fun hlater => hnot x hsame hlater.1
          unfold SamePage
          rw [src.entry_congr (lt_32_of_user hx) hi32 hsame, habsent]
          exact hkept.trans (hnew x (lt_32_of_user hx) hge hin)
        · exact hrest x hx hlater hin
      · cases hnone
      · obtain ⟨hfresh, hcopy⟩ := hmem hnodup
        have hnew' : ∀ x < 2 ^ 32, i + PGSIZE ≤ x → PGROUNDDOWN x < sz → d1.entry x = none := by
          intro x hx hge hin
          rw [hentry x hx, if_neg fun hsame => hnot x hsame hge]
          exact hnew x hx (by omega) hin
        obtain ⟨hconfined, hrest⟩ := ih hloop hi' hnew' (Multiset.nodup_of_le hle hnodup)
          fun f hf hmem => hsrc f hf (Multiset.mem_of_le hle hmem)
        refine ⟨hfirst.trans (hconfined.mono (Multiset.subset_of_le hle)), ?_⟩
        intro x hx hge hin
        rcases hpage x hge with hsame | hlater
        · have hkept := (copyLoop_spec hloop hi' hsz hnew').2.kept x (lt_32_of_user hx)
            fun hlater => hnot x hsame hlater.1
          unfold SamePage
          rw [src.entry_congr (lt_32_of_user hx) hi32 hsame, hpte]
          refine ⟨mem, ?_, ?_⟩
          · rw [hkept, hentry x (lt_32_of_user hx), if_pos hsame]
          · rw [hconfined mem hfresh, hcopy]
        · have hcloned := hrest x hx hlater hin
          unfold SamePage at hcloned ⊢
          cases he : src.entry x with
          | none =>
            rw [he] at hcloned
            exact hcloned
          | some e' =>
            rw [he] at hcloned
            obtain ⟨f, hf, hbytes⟩ := hcloned
            refine ⟨f, hf, ?_⟩
            rw [hbytes, hfirst e'.addr]
            exact hsrc _ (mem_userFrames.mpr ⟨x, hx, e', he, rfl⟩)
    · unfold copyLoop at h
      rw [if_neg hlt] at h
      cases h
      refine ⟨Confined.refl _ _, fun x _ hge hin => ?_⟩
      simp only [PGROUNDDOWN, PGSIZE] at *
      omega

theorem copyLoop_confined {n i : Nat}
    {r : Option PageDir} (h : copyLoop L src sz n k d i = .ok (r, k')) (hi : i % PGSIZE = 0)
    (hsz : sz ≤ KERNBASE) : Confined (d.pages + k.free) k k' := by
  induction n generalizing k d i with
  | zero =>
    unfold copyLoop at h
    split at h
    · cases h
    · cases h
      exact Confined.refl _ _
  | succ n ih =>
    by_cases hlt : i < sz
    · have hi' : (i + PGSIZE) % PGSIZE = 0 := by rw [Nat.add_mod_right, hi]
      obtain ⟨_, hloop⟩ | ⟨e, _, ⟨_, _, hconfined⟩ |
          ⟨mem, d1, k1, hpages, _, hfirst, _, _, hloop⟩⟩ := copyLoop_page h hi hlt hsz
      · exact ih hloop hi'
      · exact hconfined
      · have hrest := ih hloop hi'
        rw [hpages] at hrest
        exact (hfirst.mono (Multiset.subset_of_le (Multiset.le_add_left _ _))).trans hrest
    · unfold copyLoop at h
      rw [if_neg hlt] at h
      cases h
      exact Confined.refl _ _

theorem copyuvm_confined {r : Option PageDir} (h : copyuvm L k src sz = .ok (r, k'))
    (hsz : sz ≤ KERNBASE) :
    Confined k.free k k' := by
  obtain ⟨⟨d0, k0⟩, hsetup, h⟩ := bind_eq_ok.mp h
  have hconfined := setupkvm_confined hsetup
  cases d0 with
  | none =>
    cases h
    exact hconfined
  | some d0 =>
    have hloop := copyLoop_confined h rfl hsz
    rw [((setupkvm_spec hsetup).2 d0 rfl).1] at hloop
    exact hconfined.trans hloop

/-- A clone of the pages of `src` below `sz`: each in a page of its own that was
free before, with the same permissions and contents, and no other user page. -/
structure Cloned (L : Layout) (src d : PageDir) (sz : Nat) (k k' : Kmem) : Prop where
  page : ∀ x < KERNBASE, PGROUNDDOWN x < sz → SamePage src d k k' x
  absent : ∀ x < KERNBASE, ¬ PGROUNDDOWN x < sz → d.entry x = none
  kernel : d.KernelHalf L
  pages : d.pages + k'.free = k.free
  distinct : d.pages.Nodup

theorem copyuvm_cloned (h : copyuvm L k src sz = .ok (some d, k')) (hsz : sz ≤ KERNBASE)
    (hnodup : k.free.Nodup) (hsrc : ∀ f ∈ src.userFrames, f ∉ k.free) : Cloned L src d sz k k' := by
  obtain ⟨hpages, hkernel, hcopy⟩ := (copyuvm_spec h hsz).2 d rfl
  obtain ⟨⟨d0, k0⟩, hsetup, h⟩ := bind_eq_ok.mp h
  cases d0 with
  | none => cases h
  | some d0 =>
    obtain ⟨hpages0, huser, _, hle⟩ := (setupkvm_spec hsetup).2 d0 rfl
    have hlow (x : Nat) (hin : PGROUNDDOWN x < sz) : x < KERNBASE := by
      simp only [PGROUNDDOWN, PGSIZE, KERNBASE] at *
      omega
    have hcloned := (copyLoop_cloned h rfl hsz (fun x _ _ hin => huser x (hlow x hin))
      (Multiset.nodup_of_le hle hnodup)
      fun f hf hmem => hsrc f hf (Multiset.mem_of_le hle hmem)).2
    refine ⟨fun x hx hin => ?_, fun x hx hout => ?_, hkernel, hpages, ?_⟩
    · have hpage := hcloned x hx (Nat.zero_le x) hin
      unfold SamePage at hpage ⊢
      cases he : src.entry x with
      | none =>
        rw [he] at hpage
        exact hpage
      | some e =>
        rw [he] at hpage
        obtain ⟨f, hf, hbytes⟩ := hpage
        refine ⟨f, hf, ?_⟩
        rw [hbytes, setupkvm_confined hsetup e.addr]
        exact hsrc _ (mem_userFrames.mpr ⟨x, hx, e, he, rfl⟩)
    · have hnone := hcopy x hx
      rw [if_neg hout] at hnone
      exact hnone
    · exact Multiset.nodup_of_le (hpages ▸ Multiset.le_add_right _ _) hnodup

/-- `copyuvm` returns; it clones the pages below `sz` into pages that were free,
or it fails and every page is free again. Pages in use keep their contents. -/
theorem copyuvm_clones (L : Layout) (src : PageDir) (sz : Nat) (k : Kmem) (hsz : sz ≤ KERNBASE)
    (hok : ∀ f ∈ k.free, L.PageOk f) (hnodup : k.free.Nodup)
    (hsrc : ∀ f ∈ src.userFrames, f ∉ k.free) :
    ∃ r k', copyuvm L k src sz = .ok (r, k') ∧ (∀ f, f ∉ k.free → k'.mem f = k.mem f) ∧
      (r = none → k'.free = k.free) ∧ ∀ d, r = some d → Cloned L src d sz k k' := by
  obtain ⟨r, k', h⟩ := copyuvm_total src hok hsz
  refine ⟨r, k', h, copyuvm_confined h hsz, (copyuvm_spec h hsz).1, ?_⟩
  rintro d rfl
  exact copyuvm_cloned h hsz hnodup hsrc

-- irreducible: elaboration would otherwise evaluate the free list
/-- The memory above four megabytes, free and zeroed but for one page. -/
@[irreducible]
def highMem : Kmem where
  freelist := rangePages kinit1End (KERNBASE + PHYSTOP)
  mem f _ := if f = 0x302000 then 42 else 0

theorem highMem_free : highMem.free = rangePages kinit1End (KERNBASE + PHYSTOP) := by
  unfold Kmem.free highMem
  dsimp only

theorem highMem_page (i : Nat) : highMem.mem 0x302000 i = 42 := by
  unfold highMem
  simp only [if_true]

theorem highMem_bounds (L : Layout) {f : Nat} (hf : f ∈ highMem.free) :
    L.PageOk f ∧ kinit1End ≤ f + KERNBASE := by
  rw [highMem_free, Multiset.mem_coe] at hf
  exact second_range_bounds L f hf

theorem highMem_nodup : highMem.free.Nodup := by
  rw [highMem_free, Multiset.coe_nodup]
  exact rangePages_nodup (by decide) le_rfl

theorem sparseDir_used : ∀ f ∈ sparseDir.userFrames, f ∉ highMem.free := by
  intro f hf hmem
  have hge := (highMem_bounds smallLayout hmem).2
  rw [sparseDir_frame f hf] at hge
  exact absurd hge (by decide)

/-- The page behind the missing table is cloned with what it holds. -/
theorem copyuvm_clones_sparse : ∃ d k' f,
    copyuvm smallLayout highMem sparseDir 0x401000 = .ok (some d, k') ∧ d.entry 0 = none ∧
      d.entry 0x400000 = some ⟨f, true, true⟩ ∧ f ≠ 0x302000 ∧ k'.mem f 7 = 42 := by
  obtain ⟨r, k', h, _, _, hcloned⟩ := copyuvm_clones smallLayout sparseDir 0x401000 highMem
    (by decide) (fun f hf => (highMem_bounds _ hf).1) highMem_nodup sparseDir_used
  have hroom : 67 + 2 * pagesBetween 0 0x401000 ≤ highMem.freelist.length := by
    rw [length_freelist, highMem_free, Multiset.coe_card, second_range_length]
    decide
  obtain ⟨d, k1, hok, _⟩ := copyuvm_ok smallLayout sparseDir (by decide) hroom
  cases h.symm.trans hok
  have hclone := hcloned d rfl
  obtain ⟨f, hf, hbytes⟩ : SamePage sparseDir d highMem k' 0x400000 :=
    hclone.page 0x400000 (by decide) (by decide)
  have hzero : SamePage sparseDir d highMem k' 0 := hclone.page 0 (by decide) (by decide)
  refine ⟨d, k', f, h, hzero, hf, ?_, by rw [hbytes]; exact highMem_page 7⟩
  have hmem : f ∈ d.userFrames := mem_userFrames.mpr ⟨0x400000, by decide, _, hf, rfl⟩
  have hfree : f ∈ highMem.free := by
    rw [← hclone.pages, PageDir.pages_eq]
    simp [hmem]
  intro hsame
  rw [hsame] at hfree
  exact sparseDir_used _ (mem_userFrames.mpr ⟨0x400000, by decide, _, rfl, rfl⟩) hfree

end Xv6.Vm

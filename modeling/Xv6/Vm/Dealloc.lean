import Xv6.Vm.Owners

/-!
`deallocuvm` against the loop it abbreviates. The code jumps over the rest of
a missing page table; here every page of the range is visited one by one. Both
give the same result for every directory, panics included.
-/

namespace Xv6.Vm

open Finset Lib Kernel List

def pageAddrs (lo hi : Nat) : List Nat :=
  (List.range (pagesBetween lo hi)).map fun i => lo + i * PGSIZE

/-- One page of the plain loop: a present page is freed and its entry cleared. -/
def deallocPage (L : Layout) (s : PageDir × Kmem) (a : Nat) : Except Halt (PageDir × Kmem) :=
  match s.1.entry a with
  | none => .ok s
  | some e =>
    if e.addr = 0 then .error .kfree
    else do
      let k ← kfree L s.2 e.addr
      return (s.1.setPte a none, k)

/-- `deallocuvm` without the jumps. -/
def plainDealloc (L : Layout) (k : Kmem) (d : PageDir) (oldsz newsz : Nat) :
    Except Halt (Nat × PageDir × Kmem) :=
  if newsz ≥ oldsz then .ok (oldsz, d, k)
  else do
    let (d, k) ← (pageAddrs (PGROUNDUP newsz) oldsz).foldlM (deallocPage L) (d, k)
    return (newsz, d, k)

variable {a hi lo oldsz : Nat} {L : Layout} {k : Kmem}

theorem pageAddrs_nil (h : hi ≤ lo) : pageAddrs lo hi = [] := by
  have hzero : pagesBetween lo hi = 0 := by
    simp only [pagesBetween, PGSIZE]
    omega
  rw [pageAddrs, hzero]
  rfl

theorem pageAddrs_cons (h : lo < hi) : pageAddrs lo hi = lo :: pageAddrs (lo + PGSIZE) hi := by
  have hsucc : pagesBetween lo hi = pagesBetween (lo + PGSIZE) hi + 1 := by
    simp only [pagesBetween, PGSIZE]
    omega
  rw [pageAddrs, hsucc, range_succ_eq_map, List.map_cons, List.map_map, zero_mul, add_zero]
  congr 1
  apply map_congr_left
  intro i _
  simp only [Function.comp_apply, PGSIZE]
  omega

theorem deallocPage_absent {d : PageDir}
    (h : d.entry a = none) : deallocPage L (d, k) a = .ok (d, k) := by
  simp only [deallocPage, h]

theorem plainLoop_skip {d : PageDir} {m : Nat}
    (h : ∀ x, a ≤ x → x < a + m * PGSIZE → d.entry x = none) :
    (pageAddrs a hi).foldlM (deallocPage L) (d, k) =
      (pageAddrs (a + m * PGSIZE) hi).foldlM (deallocPage L) (d, k) := by
  induction m generalizing a with
  | zero => rw [zero_mul, add_zero]
  | succ m ih =>
    have hnext : a + (m + 1) * PGSIZE = a + PGSIZE + m * PGSIZE := by ring
    by_cases hlt : a < hi
    · have hpage := h a le_rfl (by simp only [PGSIZE]; omega)
      rw [pageAddrs_cons hlt, foldlM_cons, deallocPage_absent hpage, hnext, ok_bind]
      exact ih fun x hlo hhi => h x (by omega) (by omega)
    · rw [pageAddrs_nil (by omega), pageAddrs_nil (by omega)]

/-- The loop with its jumps is the plain loop. -/
theorem deallocLoop_eq_plain {n : Nat} {d : PageDir}
    (ha : a % PGSIZE = 0) (hold : oldsz ≤ KERNBASE) (hn : pagesBetween a oldsz ≤ n) :
    deallocLoop L oldsz n k d a = (pageAddrs a oldsz).foldlM (deallocPage L) (d, k) := by
  induction n generalizing k d a with
  | zero =>
    have hstop : oldsz ≤ a := by
      simp only [pagesBetween, PGSIZE] at hn
      omega
    unfold deallocLoop
    rw [pageAddrs_nil hstop, if_neg (by omega)]
    rfl
  | succ n ih =>
    unfold deallocLoop
    by_cases hlt : a < oldsz
    · have hnext : u32 (a + PGSIZE) = a + PGSIZE := u32_next (by omega)
      have hrest (k1 : Kmem) (d1 : PageDir) : deallocLoop L oldsz n k1 d1 (u32 (a + PGSIZE)) =
          (pageAddrs (a + PGSIZE) oldsz).foldlM (deallocPage L) (d1, k1) := by
        rw [hnext]
        apply ih
        all_goals
          simp only [pagesBetween, PGSIZE] at *
          omega
      rw [if_pos hlt, walkpgdir_lookup]
      cases ht : d.pde (PDX a) with
      | none =>
        -- the pages up to the next table have no entry either
        obtain ⟨m, hm⟩ : ∃ m, (a / 2 ^ 22 + 1) * 2 ^ 22 = a + m * PGSIZE :=
          ⟨((a / 2 ^ 22 + 1) * 2 ^ 22 - a) / PGSIZE, by simp only [PGSIZE] at *; omega⟩
        have hskip : u32 (sub32 (PGADDR (PDX a + 1) 0 0) PGSIZE + PGSIZE) = a + m * PGSIZE := by
          rw [← hm]
          simp only [u32, sub32, PGADDR, PDX, PGSIZE, KERNBASE] at *
          omega
        have hgap (x : Nat) (hlo : a ≤ x) (hhi : x < a + m * PGSIZE) : d.entry x = none := by
          have hpdx : PDX x = PDX a := by
            rw [← hm] at hhi
            simp only [PDX]
            omega
          simp [PageDir.entry, hpdx, ht]
        have hpos : 0 < m := by
          rcases Nat.eq_zero_or_pos m with rfl | hpos
          · omega
          · exact hpos
        simp only [Option.map_none, hskip]
        rw [plainLoop_skip hgap]
        apply ih
        all_goals
          simp only [pagesBetween, PGSIZE] at *
          omega
      | some t =>
        have hentry : d.entry a = t.pte (PTX a) := by simp [PageDir.entry, ht]
        rw [pageAddrs_cons hlt, foldlM_cons]
        simp only [Option.map_some]
        cases he : t.pte (PTX a) with
        | none =>
          rw [deallocPage_absent (hentry.trans he), ok_bind]
          exact hrest k d
        | some e =>
          simp only [deallocPage, hentry, he]
          split
          · rfl
          · cases hfree : kfree L k e.addr with
            | error err => rfl
            | ok k1 =>
              simp only [ok_bind, pure_bind]
              exact hrest k1 (d.setPte a none)
    · rw [if_neg hlt, pageAddrs_nil (by omega)]
      rfl

theorem deallocuvm_eq_plain (L : Layout) (k : Kmem) (d : PageDir) (newsz : Nat)
    (hold : oldsz ≤ KERNBASE) :
    deallocuvm L k d oldsz newsz = plainDealloc L k d oldsz newsz := by
  unfold deallocuvm plainDealloc
  split
  · rfl
  · have ha : PGROUNDUP newsz % PGSIZE = 0 := Nat.mul_mod_left _ _
    dsimp only
    rw [deallocLoop_eq_plain ha hold le_rfl]

/-- The pages behind the entries of `[lo, hi)`, one for each present entry. -/
def PageDir.rangeFrames (d : PageDir) (lo hi : Nat) : Multiset Nat :=
  ((pageAddrs lo hi).map fun a => pteFrame (d.entry a)).sum

/-- The effect of freeing the pages of `[lo, hi)`. -/
structure Freed (k : Kmem) (d : PageDir) (k' : Kmem) (d' : PageDir) (lo hi : Nat) : Prop where
  free : k'.free = d.rangeFrames lo hi + k.free
  mem : ∀ f, f ∉ d.rangeFrames lo hi → k'.mem f = k.mem f
  frame : d'.frame = d.frame
  tables : ∀ i, tableFrame (d'.pde i) = tableFrame (d.pde i)
  entry : ∀ x < 2 ^ 32, d'.entry x = if lo ≤ x ∧ PGROUNDDOWN x < hi then none else d.entry x

theorem mem_pageAddrs {x : Nat} (h : x ∈ pageAddrs lo hi) : lo ≤ x ∧ x < hi := by
  obtain ⟨i, hi, rfl⟩ := List.mem_map.mp h
  rw [List.mem_range] at hi
  simp only [pagesBetween, PGSIZE] at *
  omega

/-- The plain loop frees the page of each present entry once. -/
theorem plainLoop_freed {k' : Kmem} {d d' : PageDir} {n : Nat}
    (hn : n = pagesBetween a hi) (ha : a % PGSIZE = 0) (hhi : hi ≤ KERNBASE)
    (h : (pageAddrs a hi).foldlM (deallocPage L) (d, k) = .ok (d', k')) : Freed k d k' d' a hi := by
  induction n generalizing k d a with
  | zero =>
    have hstop : hi ≤ a := by
      simp only [pagesBetween, PGSIZE] at hn
      omega
    rw [pageAddrs_nil hstop] at h
    cases h
    have hnone : d'.rangeFrames a hi = 0 := by
      rw [PageDir.rangeFrames, pageAddrs_nil hstop]
      rfl
    refine ⟨by rw [hnone, zero_add], fun _ _ => rfl, rfl, fun _ => rfl, ?_⟩
    intro x _
    rw [if_neg]
    simp only [PGROUNDDOWN, PGSIZE] at *
    omega
  | succ n ih =>
    have hlt : a < hi := by
      simp only [pagesBetween, PGSIZE] at hn
      omega
    have hlt32 : a < 2 ^ 32 := lt_32_of_user (hlt.trans_le hhi)
    rw [pageAddrs_cons hlt, foldlM_cons] at h
    obtain ⟨⟨d1, k1⟩, hpage, h⟩ := bind_eq_ok.mp h
    have hrest := ih (by simp only [pagesBetween, PGSIZE] at *; omega)
      (by simp only [PGSIZE] at *; omega) h
    have hsplit : d.rangeFrames a hi = pteFrame (d.entry a) + d.rangeFrames (a + PGSIZE) hi := by
      rw [PageDir.rangeFrames, pageAddrs_cons hlt, List.map_cons, List.sum_cons]
      rfl
    have hrange (x : Nat) : (a ≤ x ∧ PGROUNDDOWN x < hi) ↔
        x / PGSIZE = a / PGSIZE ∨ (a + PGSIZE ≤ x ∧ PGROUNDDOWN x < hi) := by
      simp only [PGROUNDDOWN, PGSIZE] at *
      omega
    unfold deallocPage at hpage
    dsimp only at hpage
    split at hpage
    · next hnone =>
      cases hpage
      rw [hnone, pteFrame_none, zero_add] at hsplit
      refine ⟨hsplit ▸ hrest.free, hsplit ▸ hrest.mem, hrest.frame, hrest.tables, ?_⟩
      intro x hx
      rw [hrest.entry x hx]
      by_cases hin : x / PGSIZE = a / PGSIZE
      · rw [if_pos ((hrange x).mpr (Or.inl hin)), d.entry_congr hx hlt32 hin, hnone, ite_self]
      · simp only [hrange x, hin, false_or]
    · next e he =>
      split at hpage
      · cases hpage
      · obtain ⟨k2, hfree, hpage⟩ := bind_eq_ok.mp hpage
        cases hpage
        obtain ⟨_, hfreed, hmem⟩ := kfree_ok hfree
        have hunmapped := Unmapped.page he hfree (hlt.trans_le hhi)
        have hlater : (d.setPte a none).rangeFrames (a + PGSIZE) hi =
            d.rangeFrames (a + PGSIZE) hi := by
          unfold PageDir.rangeFrames
          congr 1
          apply map_congr_left
          intro x hx
          obtain ⟨hge, hlt'⟩ := mem_pageAddrs hx
          rw [hunmapped.kept x (lt_32_of_user (hlt'.trans_le hhi))]
          simp only [PGSIZE] at *
          omega
        rw [he, pteFrame_some] at hsplit
        refine ⟨?_, ?_, hrest.frame.trans hunmapped.frame,
          fun i => (hrest.tables i).trans (hunmapped.tables i), ?_⟩
        · rw [hrest.free, hlater, hfreed, hsplit]
          abel
        · intro f hf
          rw [hsplit, Multiset.mem_add, Multiset.mem_singleton, not_or] at hf
          rw [hrest.mem f (by rw [hlater]; exact hf.2), hmem, Function.update_of_ne hf.1]
        · intro x hx
          rw [hrest.entry x hx]
          by_cases hin : x / PGSIZE = a / PGSIZE
          · rw [if_pos ((hrange x).mpr (Or.inl hin)), hunmapped.absent x hx hin, ite_self]
          · simp only [hrange x, hin, false_or, hunmapped.kept x hx hin]

theorem deallocPage_not_hang (L : Layout) (s : PageDir × Kmem) (a : Nat) :
    Errs (· ≠ .hang) (deallocPage L s a) := by
  unfold deallocPage
  split
  · exact errs_ok _
  · split
    · exact errs_error.mpr (by decide)
    · refine Errs.bind ?_ fun _ _ => errs_pure _
      unfold kfree
      split
      · exact errs_ok _
      · exact errs_error.mpr (by decide)

theorem deallocuvm_not_hang (L : Layout) (k : Kmem) (d : PageDir) (newsz : Nat)
    (hold : oldsz ≤ KERNBASE) : deallocuvm L k d oldsz newsz ≠ .error .hang := by
  have herrs : Errs (· ≠ .hang) (plainDealloc L k d oldsz newsz) := by
    unfold plainDealloc
    split
    · exact errs_ok _
    · refine Errs.bind ?_ fun _ _ => errs_pure _
      exact (foldlM_spec (fun _ _ => True)
        (fun a _ s _ => ⟨deallocPage_not_hang L s a, fun _ _ => trivial⟩) trivial).1
  rw [deallocuvm_eq_plain L k d newsz hold]
  intro h
  exact herrs _ h rfl

/-- `deallocuvm` is the plain loop over the pages of `[PGROUNDUP(newsz), oldsz)`:
it ends, it frees each present page of the range once, clears its entry and
touches nothing else. It returns whenever the pages it meets may be freed. -/
theorem deallocuvm_plain (L : Layout) (k : Kmem) (d : PageDir) (oldsz newsz : Nat)
    (hold : oldsz ≤ KERNBASE) :
    deallocuvm L k d oldsz newsz = plainDealloc L k d oldsz newsz ∧
      deallocuvm L k d oldsz newsz ≠ .error .hang ∧
      ((∀ f ∈ d.userFrames, L.PageOk f) →
        ∃ d' k', deallocuvm L k d oldsz newsz = .ok (min oldsz newsz, d', k')) ∧
      ∀ r d' k', deallocuvm L k d oldsz newsz = .ok (r, d', k') →
        if newsz < oldsz then Freed k d k' d' (PGROUNDUP newsz) oldsz else d' = d ∧ k' = k := by
  refine ⟨deallocuvm_eq_plain L k d newsz hold, deallocuvm_not_hang L k d newsz hold, ?_, ?_⟩
  · intro hok
    obtain ⟨r, d', k', h⟩ := deallocuvm_ok k newsz hok hold
    exact ⟨d', k', (deallocuvm_spec h hold).1 ▸ h⟩
  · intro r d' k' h
    rw [deallocuvm_eq_plain L k d newsz hold] at h
    unfold plainDealloc at h
    split at h
    · next hge =>
      cases h
      rw [if_neg (by omega)]
      exact ⟨rfl, rfl⟩
    · next hlt =>
      obtain ⟨⟨d1, k1⟩, hloop, h⟩ := bind_eq_ok.mp h
      cases h
      rw [if_pos (by omega)]
      exact plainLoop_freed rfl (Nat.mul_mod_left _ _) hold hloop

def sparseDir : PageDir where
  frame := 0x300000
  pde i := if i = 1 then some ⟨0x301000, fun j => if j = 0 then some ⟨0x302000, true, true⟩ else none⟩
    else none

theorem sparseDir_frame : ∀ f ∈ sparseDir.userFrames, f = 0x302000 := by
  intro f hf
  obtain ⟨x, _, e, he, rfl⟩ := PageDir.mem_userFrames.mp hf
  unfold PageDir.entry sparseDir at he
  dsimp only at he
  split at he
  · rw [Option.bind_some] at he
    dsimp only at he
    split at he
    · cases he
      rfl
    · cases he
  · cases he

theorem sparseDir_pageOk : ∀ f ∈ sparseDir.userFrames, smallLayout.PageOk f := by
  intro f hf
  rw [sparseDir_frame f hf]
  decide

theorem deallocuvm_plain_sparse : ∃ d' k',
    deallocuvm smallLayout ⟨[], fun _ _ => 0⟩ sparseDir 0x401000 1 = .ok (1, d', k') ∧
      Freed ⟨[], fun _ _ => 0⟩ sparseDir k' d' 0x1000 0x401000 := by
  obtain ⟨_, _, hreturns, heffect⟩ :=
    deallocuvm_plain smallLayout ⟨[], fun _ _ => 0⟩ sparseDir 0x401000 1 (by decide)
  obtain ⟨d', k', h⟩ := hreturns sparseDir_pageOk
  exact ⟨d', k', h, heffect _ d' k' h⟩

end Xv6.Vm

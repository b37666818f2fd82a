import Xv6.Lib.Ledger
import Xv6.Vm.PageDir

/-!
The physical pages that a page directory holds: its own page, the pages of
its tables, and the pages its user half maps.
-/

namespace Xv6.Vm

open Finset Lib

def pteFrame (e : Option Pte) : Multiset Nat := e.elim 0 fun e => {e.addr}

def tableFrame (t : Option PageTable) : Multiset Nat := t.elim 0 fun t => {t.frame}

@[simp] theorem pteFrame_none : pteFrame none = 0 := rfl

@[simp] theorem pteFrame_some (e : Pte) : pteFrame (some e) = {e.addr} := rfl

@[simp] theorem tableFrame_none : tableFrame none = 0 := rfl

@[simp] theorem tableFrame_some (t : PageTable) : tableFrame (some t) = {t.frame} := rfl

@[irreducible]
def userPages : Nat := KERNBASE / PGSIZE

namespace PageDir

def tableFrames (d : PageDir) : Multiset Nat := ∑ i ∈ range NPDENTRIES, tableFrame (d.pde i)

def userFrames (d : PageDir) : Multiset Nat :=
  ∑ v ∈ range userPages, pteFrame (d.entry (v * PGSIZE))

def pages (d : PageDir) : Multiset Nat := {d.frame} + d.tableFrames + d.userFrames

theorem entry_congr (d : PageDir) {x y : Nat} (hx : x < 2 ^ 32) (hy : y < 2 ^ 32)
    (h : x / PGSIZE = y / PGSIZE) : d.entry x = d.entry y := by
  obtain ⟨hpdx, hptx⟩ := (page_eq_iff hx hy).mpr h
  unfold entry
  rw [hpdx, hptx]

theorem entry_setPte (d : PageDir) {a x : Nat} (e : Option Pte) (ha : a < 2 ^ 32)
    (hx : x < 2 ^ 32) (htable : (d.pde (PDX a)).isSome) :
    (d.setPte a e).entry x = if x / PGSIZE = a / PGSIZE then e else d.entry x := by
  obtain ⟨t, ht⟩ := Option.isSome_iff_exists.mp htable
  unfold entry setPte
  rw [ht]
  by_cases hpdx : PDX x = PDX a
  · by_cases hptx : PTX x = PTX a
    · rw [if_pos ((page_eq_iff hx ha).mp ⟨hpdx, hptx⟩)]
      simp [setPde, hpdx, hptx]
    · rw [if_neg fun h => hptx ((page_eq_iff hx ha).mpr h).2]
      simp [setPde, hpdx, hptx, ht]
  · rw [if_neg fun h => hpdx ((page_eq_iff hx ha).mpr h).1]
    simp [setPde, hpdx]

theorem setPte_frame (d : PageDir) (a : Nat) (e : Option Pte) : (d.setPte a e).frame = d.frame := by
  unfold setPte
  split <;> rfl

theorem tableFrame_setPte (d : PageDir) (a : Nat) (e : Option Pte) (i : Nat) :
    tableFrame ((d.setPte a e).pde i) = tableFrame (d.pde i) := by
  unfold setPte
  split
  · next t ht =>
    by_cases hi : i = PDX a
    · subst hi
      simp [setPde, ht]
    · simp [setPde, hi]
  · rfl

theorem tableFrames_congr {d d' : PageDir}
    (h : ∀ i, tableFrame (d'.pde i) = tableFrame (d.pde i)) : d'.tableFrames = d.tableFrames := by
  unfold tableFrames
  exact sum_congr rfl fun i _ => h i

theorem user_page_lt {v : Nat} (hv : v ∈ range userPages) : v * PGSIZE < KERNBASE := by
  rw [mem_range] at hv
  unfold userPages KERNBASE PGSIZE at *
  omega

theorem userFrames_congr {d d' : PageDir}
    (h : ∀ x < KERNBASE, pteFrame (d'.entry x) = pteFrame (d.entry x)) :
    d'.userFrames = d.userFrames := by
  unfold userFrames
  exact sum_congr rfl fun v hv => h _ (user_page_lt hv)

theorem userFrames_point (d d' : PageDir) {a : Nat} (ha : a < KERNBASE)
    (h : ∀ x < KERNBASE, x / PGSIZE ≠ a / PGSIZE → d'.entry x = d.entry x) :
    d'.userFrames + pteFrame (d.entry a) = d.userFrames + pteFrame (d'.entry a) := by
  have hmem : a / PGSIZE ∈ range userPages := by
    rw [mem_range]
    unfold userPages KERNBASE PGSIZE at *
    omega
  have hpage (c : PageDir) : c.entry (a / PGSIZE * PGSIZE) = c.entry a := by
    apply entry_congr
    all_goals
      unfold KERNBASE PGSIZE at *
      omega
  have hsum := sum_add_of_eq_off (f := fun v => pteFrame (d.entry (v * PGSIZE)))
    (g := fun v => pteFrame (d'.entry (v * PGSIZE))) hmem (by
      intro v hv hne
      rw [h _ (user_page_lt hv)]
      rwa [Nat.mul_div_cancel _ (by decide : 0 < PGSIZE)])
  simp only [hpage] at hsum
  unfold userFrames
  exact hsum

theorem userFrames_eq_zero {d : PageDir} (h : ∀ x < KERNBASE, d.entry x = none) :
    d.userFrames = 0 := by
  unfold userFrames
  refine sum_eq_zero fun v hv => ?_
  rw [h _ (user_page_lt hv), pteFrame_none]

theorem mem_userFrames {d : PageDir} {f : Nat} :
    f ∈ d.userFrames ↔ ∃ x < KERNBASE, ∃ e, d.entry x = some e ∧ e.addr = f := by
  simp only [userFrames, Multiset.mem_sum]
  constructor
  · rintro ⟨v, hv, hmem⟩
    cases he : d.entry (v * PGSIZE) with
    | none => simp [he] at hmem
    | some e =>
      rw [he, pteFrame_some, Multiset.mem_singleton] at hmem
      exact ⟨v * PGSIZE, user_page_lt hv, e, he, hmem.symm⟩
  · rintro ⟨x, hx, e, he, rfl⟩
    refine ⟨x / PGSIZE, ?_, ?_⟩
    · rw [mem_range]
      unfold userPages KERNBASE PGSIZE at *
      omega
    · rw [d.entry_congr (y := x), he]
      · simp
      all_goals
        simp only [KERNBASE, PGSIZE] at *
        omega

end PageDir

end Xv6.Vm

import Mathlib.Algebra.Order.BigOperators.Group.Finset
import Mathlib.Tactic.Abel

/-!
Ledgers of resources. Finitely many accounts each hold an amount or a multiset
of resources. Changing one account moves what it gains or loses into the total,
and when no resource occurs twice in the total, each has exactly one account.
-/

namespace Xv6.Lib

open Finset

variable {ι α : Type*}

theorem sum_add_of_eq_off {M : Type*} [AddCommMonoid M] {s : Finset ι} {f g : ι → M} {i : ι}
    (hi : i ∈ s) (h : ∀ j ∈ s, j ≠ i → g j = f j) : ∑ j ∈ s, g j + f i = ∑ j ∈ s, f j + g i := by
  classical
  have hrest : ∑ j ∈ s.erase i, g j = ∑ j ∈ s.erase i, f j :=
    sum_congr rfl fun j hj => h j (mem_of_mem_erase hj) (ne_of_mem_erase hj)
  rw [← add_sum_erase s g hi, ← add_sum_erase s f hi, hrest]
  abel

/-- In a total without repetition a resource has at most one account. -/
theorem owner_unique {s : Finset ι} {f : ι → Multiset α} (h : (∑ j ∈ s, f j).Nodup) {a : α}
    {i j : ι} (hi : i ∈ s) (hj : j ∈ s) (hai : a ∈ f i) (haj : a ∈ f j) : i = j := by
  classical
  by_contra hne
  have htwo : f i + f j ≤ ∑ l ∈ s, f l := by
    rw [← sum_pair hne]
    exact sum_le_sum_of_subset (by simp [insert_subset_iff, hi, hj])
  have hdisj := (Multiset.nodup_add.mp (Multiset.nodup_of_le htwo h)).2.2
  exact Multiset.disjoint_left.mp hdisj hai haj

end Xv6.Lib

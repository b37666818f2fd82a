import Mathlib.Tactic.Common

/-!
Numbers handed out one after the other. A table holds numbers, with 0 for none;
those from `lo` up to `hi` are in it, each once. With a free list instead of a
counter the numbers in the table are any set.
-/

namespace Xv6.Lib

structure Handed {ι : Type*} (lo hi : Nat) (num : ι → Nat) : Prop where
  range : ∀ i, num i ≠ 0 → lo ≤ num i ∧ num i < hi
  inj : ∀ i j, num i ≠ 0 → num i = num j → i = j
  onto : ∀ b, lo ≤ b → b < hi → ∃ i, num i = b

variable {ι : Type*} {lo hi : Nat} {num num' : ι → Nat} {i : ι}

theorem Handed.next (h : Handed lo hi num) (hlo : 0 < lo) (hle : lo ≤ hi) (hfree : num i = 0)
    (hi' : num' i = hi) (hothers : ∀ j, j ≠ i → num' j = num j) : Handed lo (hi + 1) num' where
  range j hj := by
    by_cases hji : j = i
    · rw [hji, hi']
      omega
    · rw [hothers j hji] at hj ⊢
      have := h.range j hj
      omega
  inj j k hj hjk := by
    by_cases hji : j = i
    · by_cases hki : k = i
      · rw [hji, hki]
      · rw [hji, hi', hothers k hki] at hjk
        have := h.range k (by omega)
        omega
    · rw [hothers j hji] at hj hjk
      by_cases hki : k = i
      · rw [hki, hi'] at hjk
        have := h.range j hj
        omega
      · rw [hothers k hki] at hjk
        exact h.inj j k hj hjk
  onto b hb hlt := by
    by_cases hbi : b = hi
    · exact ⟨i, hi'.trans hbi.symm⟩
    · obtain ⟨j, hj⟩ := h.onto b hb (by omega)
      have hji : j ≠ i := by
        rintro rfl
        omega
      exact ⟨j, (hothers j hji).trans hj⟩

theorem handed_empty (lo : Nat) (h : ∀ i, num i = 0) : Handed lo lo num where
  range i hi := absurd (h i) hi
  inj i _ hi := absurd (h i) hi
  onto _ hb hlt := absurd hlt (Nat.not_lt.mpr hb)

/-- A table in which each number of `Own` is once. -/
structure Owners {ι : Type*} (Own : Nat → Prop) (num : ι → Nat) : Prop where
  zero : ¬ Own 0
  range : ∀ i, num i ≠ 0 → Own (num i)
  inj : ∀ i j, num i ≠ 0 → num i = num j → i = j
  onto : ∀ b, Own b → ∃ i, num i = b

namespace Owners

variable {Own Own' : Nat → Prop} {b : Nat}

theorem congr (h : Owners Own num) (hown : ∀ b, Own' b ↔ Own b) (hnum : ∀ i, num' i = num i) :
    Owners Own' num' := by
  obtain rfl : num' = num := funext hnum
  exact ⟨fun hb => h.zero ((hown 0).mp hb), fun i hi => (hown _).mpr (h.range i hi), h.inj,
    fun b hb => h.onto b ((hown b).mp hb)⟩

theorem take (h : Owners Own num) (hb : b ≠ 0) (hfree : ¬ Own b) (hnone : num i = 0)
    (hself : num' i = b) (hothers : ∀ j, j ≠ i → num' j = num j)
    (hown : ∀ c, Own' c ↔ c = b ∨ Own c) : Owners Own' num' where
  zero hzero := ((hown 0).mp hzero).elim (fun heq => hb heq.symm) h.zero
  range j hj := by
    rw [hown]
    by_cases hji : j = i
    · exact .inl (hji ▸ hself)
    · rw [hothers j hji] at hj ⊢
      exact .inr (h.range j hj)
  inj j k hj hjk := by
    have hnot (l : ι) (hl : l ≠ i) : num' l ≠ b := by
      rw [hothers l hl]
      rintro rfl
      exact hfree (h.range l hb)
    by_cases hji : j = i
    · by_cases hki : k = i
      · rw [hji, hki]
      · subst hji
        exact absurd (hjk.symm.trans hself) (hnot k hki)
    · by_cases hki : k = i
      · subst hki
        exact absurd (hjk.trans hself) (hnot j hji)
      · rw [hothers j hji] at hj hjk
        rw [hothers k hki] at hjk
        exact h.inj j k hj hjk
  onto c hc := by
    rcases (hown c).mp hc with rfl | hc
    · exact ⟨i, hself⟩
    · obtain ⟨j, rfl⟩ := h.onto c hc
      have hji : j ≠ i := by
        rintro rfl
        rw [hnone] at hc
        exact h.zero hc
      exact ⟨j, hothers j hji⟩

/-- Some entries give their numbers back. -/
theorem drop (h : Owners Own num) {D : ι → Prop} (hdrop : ∀ i, D i → num' i = 0)
    (hkeep : ∀ i, ¬ D i → num' i = num i)
    (hown : ∀ b, Own' b ↔ Own b ∧ ∀ i, D i → num i ≠ b) : Owners Own' num' := by
  have hsame (i : ι) (hi : num' i ≠ 0) : num' i = num i := hkeep i fun hd => hi (hdrop i hd)
  refine ⟨fun hzero => h.zero ((hown 0).mp hzero).1, ?_, ?_, ?_⟩
  · intro i hi
    have hi' : num i ≠ 0 := hsame i hi ▸ hi
    rw [hsame i hi, hown]
    refine ⟨h.range i hi', fun j hj heq => hi ?_⟩
    rw [h.inj i j hi' heq.symm]
    exact hdrop j hj
  · intro i j hi heq
    apply h.inj i j
    · rw [← hsame i hi]
      exact hi
    · rw [← hsame i hi, heq, hsame j (heq ▸ hi)]
  · intro b hb
    obtain ⟨i, rfl⟩ := h.onto b ((hown b).mp hb).1
    exact ⟨i, hkeep i fun hd => ((hown _).mp hb).2 i hd rfl⟩

end Owners

end Xv6.Lib

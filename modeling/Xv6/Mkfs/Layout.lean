import Xv6.Lib.Numbering
import Xv6.Mkfs.Main

/-!
Where the bytes of the files are. `mkfs` hands out the blocks from `nmeta` on one
after the other; each belongs to one file, as a block of its contents or as its
indirect block, and the blocks behind them are zero.
-/

namespace Xv6.Mkfs

open Lib Fs Function

/-- The inodes `ino` hold the numbers of the blocks `Has`, which have the bytes `data`. -/
structure Layout (block : Nat → Bytes) (hi : Nat) (ino : Nat → Dinode)
    (data : Nat → List UInt8) (Has : Nat → Nat → Prop) : Prop where
  handed : Handed nmeta hi fun ij : Nat × Nat => (ino ij.1).num block ij.2
  has : ∀ i j, (ino i).num block j ≠ 0 ↔ Has i j
  covers : ∀ i m, m < (data i).length → m / BSIZE < MAXFILE ∧ Has i (m / BSIZE)
  bytes : ∀ i m, m < (data i).length →
    block ((ino i).num block (m / BSIZE)) (m % BSIZE) = (data i).getD m 0
  clear : ∀ b, hi ≤ b → block b = zeroes
  lower : nmeta ≤ hi

theorem nmeta_pos : 0 < nmeta := by decide

namespace Layout

variable {block block' : Nat → Bytes} {hi : Nat} {ino ino' : Nat → Dinode}
  {data : Nat → List UInt8} {Has : Nat → Nat → Prop} {i j : Nat}

theorem inj (h : Layout block hi ino data Has) {k l : Nat} (hne : (ino i).num block j ≠ 0)
    (heq : (ino i).num block j = (ino k).num block l) : i = k ∧ j = l :=
  Prod.mk.inj (h.handed.inj (i, j) (k, l) hne heq)

theorem num_lt (h : Layout block hi ino data Has) (hne : (ino i).num block j ≠ 0) :
    nmeta ≤ (ino i).num block j ∧ (ino i).num block j < hi := h.handed.range (i, j) hne

theorem frame (h : Layout block hi ino data Has) (hblock : ∀ b, nmeta ≤ b → block' b = block b)
    (haddrs : ∀ i, (ino' i).addrs = (ino i).addrs) : Layout block' hi ino' data Has := by
  have hnum (i j : Nat) : (ino' i).num block' j = (ino i).num block j := by
    have hsame : (ino' i).num block' j = (ino i).num block' j := by
      unfold Dinode.num
      rw [haddrs]
    rw [hsame]
    exact num_congr fun hne => hblock _ (h.num_lt (i := i) (j := MAXFILE) hne).1
  refine ⟨?_, fun i j => ?_, h.covers, fun i m hm => ?_, fun b hb => ?_, h.lower⟩
  · simp only [hnum]
    exact h.handed
  · rw [hnum]
    exact h.has i j
  · rw [hnum, hblock _ (h.num_lt ((h.has i _).mpr (h.covers i m hm).2)).1]
    exact h.bytes i m hm
  · rw [hblock b (Nat.le_trans h.lower hb)]
    exact h.clear b hb

theorem alloc (h : Layout block hi ino data Has) (hnone : (ino i).num block j = 0)
    (hself : (ino' i).num block' j = hi)
    (hothers : ∀ i' j', (i', j') ≠ (i, j) → (ino' i').num block' j' = (ino i').num block j')
    (hblock : ∀ i' j', j' < MAXFILE → (ino i').num block j' ≠ 0 →
      block' ((ino i').num block j') = block ((ino i').num block j'))
    (hclear : ∀ b, hi < b → block' b = zeroes) :
    Layout block' (hi + 1) ino' data fun i' j' => (i', j') = (i, j) ∨ Has i' j' where
  handed := h.handed.next nmeta_pos h.lower (i := (i, j)) hnone hself fun ij hne => hothers _ _ hne
  has i' j' := by
    by_cases heq : (i', j') = (i, j)
    · obtain ⟨rfl, rfl⟩ := Prod.mk.inj heq
      have hpos := nmeta_pos
      have hlower := h.lower
      exact ⟨fun _ => .inl rfl, fun _ => by rw [hself]; omega⟩
    · rw [hothers i' j' heq, h.has]
      exact ⟨.inr, fun hor => hor.resolve_left heq⟩
  covers i' m hm := ⟨(h.covers i' m hm).1, .inr (h.covers i' m hm).2⟩
  bytes i' m hm := by
    obtain ⟨hlt, hhas⟩ := h.covers i' m hm
    have hne := (h.has i' _).mpr hhas
    have hother : (i', m / BSIZE) ≠ (i, j) := by
      intro heq
      obtain ⟨rfl, rfl⟩ := Prod.mk.inj heq
      exact hne hnone
    rw [hothers _ _ hother, hblock _ _ hlt hne]
    exact h.bytes i' m hm
  clear b hb := hclear b hb
  lower := Nat.le_succ_of_le h.lower

theorem allocDirect (h : Layout block hi ino data Has) (hj : j < NDIRECT)
    (hnone : (ino i).addrs j = 0) :
    Layout block (hi + 1)
      (update ino i { ino i with addrs := update (ino i).addrs j hi }) data
      fun i' j' => (i', j') = (i, j) ∨ Has i' j' := by
  refine h.alloc ((num_direct hj).trans hnone) ?_ (fun i' j' hne => ?_) (fun _ _ _ _ => rfl)
    fun b hb => h.clear b (Nat.le_of_lt hb)
  · rw [update_self, num_direct hj]
    change update (ino i).addrs j hi j = hi
    rw [update_self]
  · by_cases hi' : i' = i
    · subst hi'
      rw [update_self]
      exact num_setAddr hj fun heq => hne (by rw [heq])
    · rw [update_of_ne hi']

theorem allocIndirect (h : Layout block hi ino data Has) (hnone : (ino i).addrs NDIRECT = 0) :
    Layout block (hi + 1)
      (update ino i { ino i with addrs := update (ino i).addrs NDIRECT hi }) data
      fun i' j' => (i', j') = (i, MAXFILE) ∨ Has i' j' := by
  refine h.alloc (num_indirect.trans hnone) ?_ (fun i' j' hne => ?_) (fun _ _ _ _ => rfl)
    fun b hb => h.clear b (Nat.le_of_lt hb)
  · rw [update_self, num_indirect]
    change update (ino i).addrs NDIRECT hi NDIRECT = hi
    rw [update_self]
  · by_cases hi' : i' = i
    · subst hi'
      rw [update_self]
      exact num_setIndirect hnone (h.clear hi (Nat.le_refl _)) fun heq => hne (by rw [heq])
    · rw [update_of_ne hi']

theorem allocWord (h : Layout block hi ino data Has) (hj : NDIRECT ≤ j) (hlt : j < MAXFILE)
    (hind : (ino i).addrs NDIRECT ≠ 0) (hnone : (ino i).num block j = 0)
    (hsmall : hi < 4294967296) :
    Layout (update block ((ino i).addrs NDIRECT)
      (overlay (block ((ino i).addrs NDIRECT)) (4 * (j - NDIRECT)) 4 (leByte hi))) (hi + 1) ino data
      fun i' j' => (i', j') = (i, j) ∨ Has i' j' := by
  -- another inode has another indirect block
  have hapart {i' : Nat} (hi' : i' ≠ i) (hne : (ino i').addrs NDIRECT ≠ 0) :
      (ino i').addrs NDIRECT ≠ (ino i).addrs NDIRECT := fun heq =>
    hi' (h.inj (j := MAXFILE) (l := MAXFILE) hne heq).1
  have hlower := h.num_lt (i := i) (j := MAXFILE) hind
  refine h.alloc hnone ?_ (fun i' j' hne => ?_) (fun i' j' hj' hne => ?_) fun b hb => ?_
  · rw [num_word hj hlt hind, update_self, indirectWord_overlay _ hsmall, if_pos rfl]
  · by_cases hi' : i' = i
    · subst hi'
      by_cases hin : NDIRECT ≤ j' ∧ j' < MAXFILE
      · rw [num_word hin.1 hin.2 hind, num_word hin.1 hin.2 hind, update_self,
          indirectWord_overlay _ hsmall, if_neg]
        intro heq
        exact hne (by rw [show j' = j by omega])
      · unfold Dinode.num
        split
        · rfl
        · have hnot : ¬ j' < MAXFILE := by omega
          rw [if_neg hnot, if_neg hnot]
    · refine num_congr fun hne' => update_of_ne (hapart hi' hne') _ _
  · refine update_of_ne (fun heq => ?_) _ _
    exact Nat.ne_of_lt hj' (h.inj (l := MAXFILE) hne heq).2
  · rw [num_indirect] at hlower
    rw [update_of_ne (by omega)]
    exact h.clear b (Nat.le_of_lt hb)

theorem write (h : Layout block hi ino data Has) (hj : j < MAXFILE)
    (hne : (ino i).num block j ≠ 0) {o n : Nat} {p : List UInt8}
    (hlen : (data i).length = j * BSIZE + o) (hfit : o + n ≤ BSIZE) (hn : n ≤ p.length) :
    Layout (update block ((ino i).num block j)
        (overlay (block ((ino i).num block j)) o n fun k => p.getD k 0)) hi ino
      (update data i (data i ++ p.take n)) Has := by
  have hnum (i' j' : Nat) : (ino i').num (update block ((ino i).num block j)
      (overlay (block ((ino i).num block j)) o n fun k => p.getD k 0)) j' =
      (ino i').num block j' := by
    refine num_congr fun hne' => update_of_ne (fun heq => ?_) _ _
    exact Nat.ne_of_gt hj (h.inj (i := i') (j := MAXFILE) hne' heq).2
  have hlower := h.num_lt hne
  have htake : (p.take n).length = n := by rw [List.length_take, Nat.min_eq_left hn]
  have hbsize : 0 < BSIZE := by decide
  -- the new bytes of the file are in the block at `o`
  have hnew {m : Nat} (hm : m < ((data i) ++ p.take n).length) (hge : (data i).length ≤ m) :
      m / BSIZE = j ∧ m % BSIZE = o + (m - (data i).length) ∧ m - (data i).length < n := by
    rw [List.length_append, htake] at hm
    rw [hlen] at hm hge ⊢
    unfold BSIZE at *
    omega
  refine ⟨?_, fun i' j' => ?_, fun i' m hm => ?_, fun i' m hm => ?_, fun b hb => ?_, h.lower⟩
  · simp only [hnum]
    exact h.handed
  · rw [hnum]
    exact h.has i' j'
  · by_cases hi' : i' = i
    · subst hi'
      rw [update_self] at hm
      by_cases hold : m < (data i').length
      · exact h.covers i' m hold
      · rw [(hnew hm (Nat.not_lt.mp hold)).1]
        exact ⟨hj, (h.has i' j).mp hne⟩
    · rw [update_of_ne hi'] at hm
      exact h.covers i' m hm
  · rw [hnum]
    by_cases hi' : i' = i
    · subst hi'
      rw [update_self] at hm ⊢
      by_cases hold : m < (data i').length
      · rw [List.getD_append _ _ _ _ hold, ← h.bytes i' m hold]
        by_cases hblock : m / BSIZE = j
        · rw [hblock, update_self]
          refine overlay_outside (Or.inl ?_)
          rw [hlen] at hold
          unfold BSIZE at *
          omega
        · have hne' := (h.has i' _).mpr (h.covers i' m hold).2
          rw [update_of_ne fun heq => hblock (h.inj hne' heq).2]
      · have hge := Nat.not_lt.mp hold
        obtain ⟨hdiv, hmod, hlt⟩ := hnew hm hge
        rw [hdiv, hmod, update_self, overlay_inside hlt, List.getD_append_right _ _ _ _ hge]
        simp [List.getD_eq_getElem?_getD, hlt]
    · rw [update_of_ne hi'] at hm ⊢
      have hne' := (h.has i' _).mpr (h.covers i' m hm).2
      rw [update_of_ne fun heq => hi' (h.inj hne' heq).1]
      exact h.bytes i' m hm
  · rw [update_of_ne (by omega)]
    exact h.clear b hb

end Layout

end Xv6.Mkfs

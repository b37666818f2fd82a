import Mathlib.Data.BitVec
import Mathlib.Data.List.Range
import Mathlib.Tactic.Ring

/-!
Ring buffers with free-running counters. A ring of `N` cells is read and
written through two counters of `w` bits that are only ever incremented and
wrap around; a counter is turned into a cell by taking it modulo `N`. When `N`
divides `2 ^ w` the wrap-around is invisible: writing appends to the contents
and reading takes from their front.
-/

namespace Xv6.Lib

open List BitVec

structure Ring (α : Type*) (w N : Nat) where
  data : Nat → α
  nread : BitVec w
  nwrite : BitVec w

namespace Ring

variable {α : Type*} {w N : Nat}

/-- The number of elements, as long as it is at most `N`. -/
def count (r : Ring α w N) : Nat := (r.nwrite - r.nread).toNat

/-- The elements from the oldest to the newest. -/
def contents (r : Ring α w N) : List α :=
  (List.range r.count).map fun i => r.data ((r.nread.toNat + i) % N)

def push (r : Ring α w N) (x : α) : Ring α w N :=
  { r with data := Function.update r.data (r.nwrite.toNat % N) x, nwrite := r.nwrite + 1 }

def front (r : Ring α w N) : α := r.data (r.nread.toNat % N)

def pop (r : Ring α w N) : Ring α w N := { r with nread := r.nread + 1 }

@[simp] theorem length_contents (r : Ring α w N) : r.contents.length = r.count := by
  simp [contents]

theorem count_lt (r : Ring α w N) : r.count < 2 ^ w := (r.nwrite - r.nread).isLt

theorem empty_iff (r : Ring α w N) : r.nread = r.nwrite ↔ r.count = 0 := by
  unfold count
  rw [toNat_eq, toNat_sub]
  have hread := r.nread.isLt
  have hwrite := r.nwrite.isLt
  constructor
  · intro heq
    rw [heq, Nat.sub_add_cancel hwrite.le, Nat.mod_self]
  · intro hzero
    rcases Nat.lt_or_ge r.nwrite.toNat r.nread.toNat with hlt | hge
    · rw [Nat.mod_eq_of_lt (by omega)] at hzero
      omega
    · have hsum : 2 ^ w - r.nread.toNat + r.nwrite.toNat =
          2 ^ w + (r.nwrite.toNat - r.nread.toNat) := by
        omega
      rw [hsum, Nat.add_mod_left, Nat.mod_eq_of_lt (by omega)] at hzero
      omega

theorem full_iff (r : Ring α w N) (hN : N < 2 ^ w) :
    r.nwrite = r.nread + BitVec.ofNat w N ↔ r.count = N := by
  unfold count
  constructor
  · intro heq
    rw [heq, BitVec.add_comm, BitVec.add_sub_cancel, toNat_ofNat, Nat.mod_eq_of_lt hN]
  · intro hcount
    have hsub : r.nwrite - r.nread = BitVec.ofNat w N := by
      apply eq_of_toNat_eq
      rw [hcount, toNat_ofNat, Nat.mod_eq_of_lt hN]
    rw [← hsub, BitVec.add_comm, BitVec.sub_add_cancel]

theorem toNat_succ (c : BitVec w) : (c + 1).toNat = (c.toNat + 1) % 2 ^ w := by
  rw [toNat_add]
  simp

theorem count_push (r : Ring α w N) (x : α) (h : r.count + 1 < 2 ^ w) :
    (r.push x).count = r.count + 1 := by
  have hsub : r.nwrite + 1 - r.nread = (r.nwrite - r.nread) + 1 := by ring
  unfold count at h ⊢
  change (r.nwrite + 1 - r.nread).toNat = _
  rw [hsub, toNat_succ, Nat.mod_eq_of_lt h]

theorem count_pop (r : Ring α w N) (h : 0 < r.count) : r.count = r.pop.count + 1 := by
  have hnext := (r.nwrite - (r.nread + 1)).isLt
  have hpush : r.nwrite - r.nread = (r.nwrite - (r.nread + 1)) + 1 := by ring
  unfold count at h ⊢
  change _ = (r.nwrite - (r.nread + 1)).toNat + 1
  rw [hpush, toNat_succ] at h ⊢
  rcases Nat.lt_or_ge ((r.nwrite - (r.nread + 1)).toNat + 1) (2 ^ w) with hsmall | hbig
  · exact Nat.mod_eq_of_lt hsmall
  · have hall : (r.nwrite - (r.nread + 1)).toNat + 1 = 2 ^ w := by omega
    rw [hall, Nat.mod_self] at h
    omega

theorem cell_eq (hdvd : N ∣ 2 ^ w) {a b : Nat} (h : a % 2 ^ w = b % 2 ^ w) : a % N = b % N := by
  rw [← Nat.mod_mod_of_dvd a hdvd, h, Nat.mod_mod_of_dvd b hdvd]

theorem nwrite_toNat (r : Ring α w N) : r.nwrite.toNat = (r.nread.toNat + r.count) % 2 ^ w := by
  have hadd : r.nwrite = r.nread + (r.nwrite - r.nread) := by
    rw [BitVec.add_comm, BitVec.sub_add_cancel]
  calc r.nwrite.toNat = (r.nread + (r.nwrite - r.nread)).toNat := by rw [← hadd]
    _ = (r.nread.toNat + r.count) % 2 ^ w := toNat_add _ _

theorem contents_write (r : Ring α w N) (x : α) {k : Nat} (hk : r.count ≤ k) (hkN : k < N) :
    contents (N := N) { r with data := Function.update r.data ((r.nread.toNat + k) % N) x } =
      r.contents := by
  apply map_congr_left
  intro i hi
  have hlt : i < r.count := mem_range.mp hi
  have hne : (r.nread.toNat + i) % N ≠ (r.nread.toNat + k) % N := by
    intro heq
    have hmod := (Nat.ModEq.add_left_cancel' _ heq : i ≡ k [MOD N])
    unfold Nat.ModEq at hmod
    rw [Nat.mod_eq_of_lt (by omega), Nat.mod_eq_of_lt hkN] at hmod
    omega
  exact Function.update_of_ne hne x r.data

theorem nwrite_cell (r : Ring α w N) (hdvd : N ∣ 2 ^ w) :
    r.nwrite.toNat % N = (r.nread.toNat + r.count) % N := by
  apply cell_eq hdvd
  rw [Nat.mod_eq_of_lt r.nwrite.isLt, nwrite_toNat]

theorem contents_push (r : Ring α w N) (x : α) (hdvd : N ∣ 2 ^ w) (h : r.count < N)
    (hN : N < 2 ^ w) : (r.push x).contents = r.contents ++ [x] := by
  have hkept := r.contents_write x (Nat.le_refl _) h
  have hcell := r.nwrite_cell hdvd
  unfold contents at hkept ⊢
  rw [count_push r x (by omega), range_succ, map_append]
  congr 1
  · rw [← hkept]
    simp only [push, hcell]
    rfl
  · simp [push, hcell]

theorem contents_pop (r : Ring α w N) (hdvd : N ∣ 2 ^ w) (h : 0 < r.count) :
    r.contents = r.front :: r.pop.contents := by
  unfold contents
  rw [r.count_pop h, range_succ_eq_map, map_cons, map_map]
  congr 1
  apply map_congr_left
  intro i _
  simp only [Function.comp, pop]
  congr 1
  apply cell_eq hdvd
  rw [toNat_succ, Nat.mod_add_mod]
  congr 1
  omega

/-- Taking back what was written last. -/
def unpush (r : Ring α w N) : Ring α w N := { r with nwrite := r.nwrite - 1 }

theorem count_unpush (r : Ring α w N) (h : 0 < r.count) : r.count = r.unpush.count + 1 := by
  have hnext := r.unpush.count_lt
  have hback : r.nwrite - r.nread = (r.nwrite - 1 - r.nread) + 1 := by ring
  change 0 < (r.nwrite - r.nread).toNat at h
  change (r.nwrite - r.nread).toNat = (r.nwrite - 1 - r.nread).toNat + 1
  rw [hback, toNat_succ] at h ⊢
  rcases Nat.lt_or_ge ((r.nwrite - 1 - r.nread).toNat + 1) (2 ^ w) with hsmall | hbig
  · exact Nat.mod_eq_of_lt hsmall
  · have hall : (r.nwrite - 1 - r.nread).toNat + 1 = 2 ^ w := by
      change (r.nwrite - 1 - r.nread).toNat < 2 ^ w at hnext
      omega
    rw [hall, Nat.mod_self] at h
    omega

theorem contents_unpush (r : Ring α w N) (hdvd : N ∣ 2 ^ w) (h : 0 < r.count) :
    r.contents = r.unpush.contents ++ [r.data (r.unpush.nwrite.toNat % N)] := by
  have hcell := r.unpush.nwrite_cell hdvd
  unfold contents
  rw [hcell, r.count_unpush h, range_succ, map_append]
  rfl

theorem count_cut (data : Nat → α) (a b c : BitVec w)
    (h : count (N := N) ⟨data, a, b⟩ + count (N := N) ⟨data, b, c⟩ < 2 ^ w) :
    count (N := N) ⟨data, a, c⟩ = count (N := N) ⟨data, a, b⟩ + count (N := N) ⟨data, b, c⟩ := by
  have hsum : c - a = (b - a) + (c - b) := by ring
  unfold count at h ⊢
  change (c - a).toNat = (b - a).toNat + (c - b).toNat
  rw [hsum, toNat_add, Nat.mod_eq_of_lt h]

theorem contents_cut (data : Nat → α) (a b c : BitVec w) (hdvd : N ∣ 2 ^ w)
    (h : count (N := N) ⟨data, a, b⟩ + count (N := N) ⟨data, b, c⟩ < 2 ^ w) :
    contents (N := N) ⟨data, a, c⟩ =
      contents (N := N) ⟨data, a, b⟩ ++ contents (N := N) ⟨data, b, c⟩ := by
  have hb := nwrite_toNat (⟨data, a, b⟩ : Ring α w N)
  unfold contents
  rw [count_cut data a b c h, range_add, map_append, map_map]
  congr 1
  apply map_congr_left
  intro i _
  simp only [Function.comp]
  congr 1
  apply cell_eq hdvd
  rw [show b.toNat = _ from hb, Nat.mod_add_mod, Nat.add_assoc]

end Ring

end Xv6.Lib

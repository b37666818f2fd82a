import Xv6.Lib.Bytes

/-!
The two functions called `memmove`: the kernel's goes down where the destination lies
behind the source and overlaps it, the one of the user library always goes up. Addresses
have 32 bits.
-/

namespace Xv6.Strings

open Lib Function

/-- `while(n-- > 0) *d++ = *s++;` -/
def copyUp (mem : Bytes) (d s : Nat) : Nat → Bytes
  | 0 => mem
  | n + 1 =>
    copyUp (update mem d (mem s)) ((d + 1) % 2 ^ 32) ((s + 1) % 2 ^ 32) n

/-- `while(n-- > 0) *--d = *--s;` -/
def copyDown (mem : Bytes) (d s : Nat) : Nat → Bytes
  | 0 => mem
  | n + 1 =>
    let d := (d + (2 ^ 32 - 1)) % 2 ^ 32
    let s := (s + (2 ^ 32 - 1)) % 2 ^ 32
    copyDown (update mem d (mem s)) d s n

/-- `memmove` of `string.c`. -/
def memmove (mem : Bytes) (dst src n : Nat) : Bytes :=
  if src < dst ∧ (src + n) % 2 ^ 32 > dst then
    copyDown mem ((dst + n) % 2 ^ 32) ((src + n) % 2 ^ 32) n
  else copyUp mem dst src n

/-- `memmove` of `ulib.c`, where the number of bytes is an `int`. -/
def ulibMemmove (mem : Bytes) (vdst vsrc : Nat) (n : Int) : Bytes :=
  copyUp mem vdst vsrc n.toNat

variable {mem : Bytes} {d s n : Nat}

/-- Where the byte comes from that `copyUp` writes at place `i`: once the copy has reached
its own destination, it goes round in what lies between. -/
def origin (d s i : Nat) : Nat := if s < d then s + i % (d - s) else s + i

theorem origin_zero (d s : Nat) : origin d s 0 = s := by
  unfold origin
  split
  · rw [Nat.zero_mod, Nat.add_zero]
  · rfl

/-- The next byte comes from the next place, or from the byte that was just written. -/
theorem origin_succ (d s i : Nat) : (origin (d + 1) (s + 1) i = d ∧ origin d s (i + 1) = s) ∨
      (origin (d + 1) (s + 1) i ≠ d ∧ origin d s (i + 1) = origin (d + 1) (s + 1) i) := by
  unfold origin
  by_cases hlt : s < d
  · have hmod := Nat.mod_lt i (Nat.sub_pos_of_lt hlt)
    have hnext : (i + 1) % (d - s) = (i % (d - s) + 1) % (d - s) := (Nat.mod_add_mod i _ 1).symm
    rw [if_pos hlt, if_pos (Nat.succ_lt_succ hlt), Nat.add_sub_add_right, hnext]
    by_cases hlast : i % (d - s) + 1 = d - s
    · rw [hlast, Nat.mod_self]
      omega
    · have hless : i % (d - s) + 1 < d - s := by omega
      rw [Nat.mod_eq_of_lt hless]
      omega
  · rw [if_neg hlt, if_neg (by omega)]
    omega

theorem copyUp_eq (hd : d + n ≤ 2 ^ 32) (hs : s + n ≤ 2 ^ 32) :
    copyUp mem d s n = overlay mem d n fun i => mem (origin d s i) := by
  -- by induction on the number of bytes; the first byte changes the memory for the rest
  induction n generalizing mem d s with
  | zero =>
    funext a
    exact (overlay_outside (by omega)).symm
  | succ n ih =>
    have hrest : copyUp (update mem d (mem s)) ((d + 1) % 2 ^ 32) ((s + 1) % 2 ^ 32) n =
        overlay (update mem d (mem s)) (d + 1) n
          fun i => update mem d (mem s) (origin (d + 1) (s + 1) i) := by
      rcases Nat.eq_zero_or_pos n with rfl | hn
      · funext a
        exact (overlay_outside (by omega)).symm
      · rw [Nat.mod_eq_of_lt (by omega), Nat.mod_eq_of_lt (by omega)]
        exact ih (by omega) (by omega)
    rw [copyUp, hrest]
    funext a
    by_cases hin : d ≤ a ∧ a < d + (n + 1)
    · obtain ⟨i, rfl⟩ := Nat.exists_eq_add_of_le hin.1
      rw [overlay_inside (by omega)]
      cases i with
      | zero => rw [overlay_outside (by omega), origin_zero, Nat.add_zero, update_self]
      | succ i =>
        have hplace : d + (i + 1) = d + 1 + i := by omega
        rw [hplace, overlay_inside (by omega)]
        rcases origin_succ d s i with ⟨hwritten, hfirst⟩ | ⟨hother, hnext⟩
        · rw [hwritten, hfirst, update_self]
        · rw [hnext, update_of_ne hother]
    · rw [overlay_outside (by omega), overlay_outside (by omega), update_of_ne (by omega)]

/-- From the last byte on, a source below the destination is read before it is written. -/
theorem copyDown_eq (hlt : s < d) (hd : d + n ≤ 2 ^ 32) :
    copyDown mem ((d + n) % 2 ^ 32) ((s + n) % 2 ^ 32) n =
      overlay mem d n fun i => mem (s + i) := by
  induction n generalizing mem with
  | zero =>
    funext a
    exact (overlay_outside (by omega)).symm
  | succ n ih =>
    have hback (a : Nat) (ha : a + (n + 1) ≤ 2 ^ 32) :
        ((a + (n + 1)) % 2 ^ 32 + (2 ^ 32 - 1)) % 2 ^ 32 = (a + n) % 2 ^ 32 := by omega
    rw [copyDown, hback d hd, hback s (by omega), ih (by omega), Nat.mod_eq_of_lt (by omega),
      Nat.mod_eq_of_lt (by omega)]
    funext a
    by_cases hin : d ≤ a ∧ a < d + (n + 1)
    · obtain ⟨i, rfl⟩ := Nat.exists_eq_add_of_le hin.1
      rcases Nat.lt_or_ge i n with hi | hi
      · rw [overlay_inside hi, overlay_inside (Nat.lt_succ_of_lt hi), update_of_ne (by omega)]
      · obtain rfl : i = n := by omega
        rw [overlay_outside (by omega), overlay_inside (Nat.lt_succ_self i), update_self]
    · rw [overlay_outside (by omega), overlay_outside (by omega), update_of_ne (by omega)]

theorem memmove_eq {dst src : Nat} (hdst : dst + n ≤ 2 ^ 32) (hsrc : src + n ≤ 2 ^ 32) :
    memmove mem dst src n = overlay mem dst n fun i => mem (src + i) := by
  unfold memmove
  split
  · next hdown => exact copyDown_eq hdown.1 hdst
  · next hup =>
    rw [copyUp_eq hdst hsrc]
    funext a
    by_cases hin : dst ≤ a ∧ a < dst + n
    · obtain ⟨i, rfl⟩ := Nat.exists_eq_add_of_le hin.1
      have hi : i < n := by omega
      have horigin : origin dst src i = src + i := by
        unfold origin
        split
        · next hlt => rw [Nat.mod_eq_of_lt (by omega)]
        · rfl
      rw [overlay_inside hi, overlay_inside hi, horigin]
    · rw [overlay_outside (by omega), overlay_outside (by omega)]

/-- The kernel's function leaves the bytes of the source at the destination and all others as
they were. The user library's agrees with it where the destination does not lie behind the
source within its range, and otherwise only on bytes that repeat at their distance. -/
theorem memmove_agree_iff (mem : Bytes) {dst src : Nat} (hdst : dst + n ≤ 2 ^ 32)
    (hsrc : src + n ≤ 2 ^ 32) :
    (∀ i < n, memmove mem dst src n (dst + i) = mem (src + i)) ∧
    (∀ a, a < dst ∨ dst + n ≤ a → memmove mem dst src n a = mem a) ∧
    (ulibMemmove mem dst src n = memmove mem dst src n ↔
      (src < dst → ∀ i < n, mem (src + i % (dst - src)) = mem (src + i))) := by
  rw [memmove_eq hdst hsrc]
  refine ⟨fun i hi => overlay_inside hi, fun a ha => overlay_outside ha, ?_⟩
  unfold ulibMemmove
  rw [Int.toNat_natCast, copyUp_eq hdst hsrc]
  constructor
  · intro heq hlt i hi
    have hbyte := congrFun heq (dst + i)
    rw [overlay_inside hi, overlay_inside hi] at hbyte
    unfold origin at hbyte
    rwa [if_pos hlt] at hbyte
  · intro hsame
    funext a
    by_cases hin : dst ≤ a ∧ a < dst + n
    · obtain ⟨i, rfl⟩ := Nat.exists_eq_add_of_le hin.1
      have hi : i < n := by omega
      rw [overlay_inside hi, overlay_inside hi]
      unfold origin
      split
      · next hlt => exact hsame hlt i hi
      · rfl
    · rw [overlay_outside (by omega), overlay_outside (by omega)]

/-- Two bytes moved up by one: the first is written over the second before that is read. -/
theorem memmove_differ : memmove (fun a => if a = 0 then 1 else 2) 1 0 2 2 = 2 ∧
    ulibMemmove (fun a => if a = 0 then 1 else 2) 1 0 2 2 = 1 ∧
    ulibMemmove (fun a => if a = 0 then 1 else 2) 1 0 2 ≠
      memmove (fun a => if a = 0 then 1 else 2) 1 0 2 := by
  refine ⟨by decide, by decide, fun heq => ?_⟩
  exact absurd (congrFun heq 2) (by decide)

/-- Two bytes moved down by one. -/
theorem memmove_agree_down : ulibMemmove (fun a => UInt8.ofNat a) 4 5 2 =
    memmove (fun a => UInt8.ofNat a) 4 5 2 :=
  (memmove_agree_iff (fun a => UInt8.ofNat a) (n := 2) (by decide) (by decide)).2.2.mpr
    fun hlt => absurd hlt (by decide)

end Xv6.Strings

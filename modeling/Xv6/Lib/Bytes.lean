import Mathlib.Algebra.Group.Nat.Defs
import Mathlib.Data.List.GetD
import Mathlib.Data.Nat.Init
import Mathlib.Tactic.Common

/-!
Bytes in memory. A piece of memory is a function from offsets to bytes; writes
of structures and of parts of arrays are overlays, and numbers are stored with
the least significant byte first.
-/

namespace Xv6.Lib

open List

abbrev Bytes := Nat → UInt8

def leByte (n k : Nat) : UInt8 := UInt8.ofNat (n / 256 ^ k)

def le16 (x : Bytes) (i : Nat) : Nat := (x i).toNat + 256 * (x (i + 1)).toNat

def le32 (x : Bytes) (i : Nat) : Nat := le16 x i + 65536 * le16 x (i + 2)

/-- `memmove(x + base, p, len)` -/
def overlay (x : Bytes) (base len : Nat) (p : Bytes) : Bytes :=
  fun i => if base ≤ i ∧ i < base + len then p (i - base) else x i

section

variable {x p : Bytes} {base len i : Nat}

theorem overlay_inside (h : i < len) : overlay x base len p (base + i) = p i := by
  unfold overlay
  rw [if_pos ⟨Nat.le_add_right _ _, Nat.add_lt_add_left h _⟩, Nat.add_sub_cancel_left]

theorem overlay_outside (h : i < base ∨ base + len ≤ i) : overlay x base len p i = x i := by
  unfold overlay
  rw [if_neg]
  omega

theorem le16_congr {y : Bytes} {j : Nat} (h : ∀ k < 2, x (i + k) = y (j + k)) :
    le16 x i = le16 y j := by
  have h0 : x i = y j := h 0 (by decide)
  have h1 : x (i + 1) = y (j + 1) := h 1 (by decide)
  unfold le16
  rw [h0, h1]

theorem le32_congr {y : Bytes} {j : Nat} (h : ∀ k < 4, x (i + k) = y (j + k)) :
    le32 x i = le32 y j := by
  have hlow : le16 x i = le16 y j := le16_congr fun k hk => h k (by omega)
  have hhigh : le16 x (i + 2) = le16 y (j + 2) := le16_congr fun k hk => by
    rw [Nat.add_assoc, Nat.add_assoc]
    exact h (2 + k) (by omega)
  unfold le32
  rw [hlow, hhigh]

theorem le16_outside (h : i + 2 ≤ base ∨ base + len ≤ i) :
    le16 (overlay x base len p) i = le16 x i :=
  le16_congr fun k hk => overlay_outside (by omega)

theorem le32_outside (h : i + 4 ≤ base ∨ base + len ≤ i) :
    le32 (overlay x base len p) i = le32 x i :=
  le32_congr fun k hk => overlay_outside (by omega)

theorem le16_inside (h : i + 2 ≤ len) : le16 (overlay x base len p) (base + i) = le16 p i :=
  le16_congr fun k hk => by
    rw [Nat.add_assoc]
    exact overlay_inside (by omega)

theorem le32_inside (h : i + 4 ≤ len) : le32 (overlay x base len p) (base + i) = le32 p i :=
  le32_congr fun k hk => by
    rw [Nat.add_assoc]
    exact overlay_inside (by omega)

theorem overlay_self (x p : Bytes) (base len : Nat) (h : ∀ i < len, p i = x (base + i)) :
    overlay x base len p = x := by
  funext i
  unfold overlay
  split
  · next hi =>
    rw [h (i - base) (by omega)]
    congr 1
    omega
  · rfl

end

/-- `memmove(x + base, buf, len)` of a whole list. -/
def store (x : Bytes) (base : Nat) (buf : List UInt8) : Bytes :=
  overlay x base buf.length fun i => buf.getD i 0

section

variable {x : Bytes} {base i : Nat} {buf : List UInt8}

theorem store_nil (x : Bytes) (base : Nat) : store x base [] = x :=
  funext fun _ => overlay_outside (by simp only [length_nil]; omega)

theorem store_inside (h : i < buf.length) : store x base buf (base + i) = buf.getD i 0 :=
  overlay_inside h

theorem store_outside (h : i < base ∨ base + buf.length ≤ i) : store x base buf i = x i :=
  overlay_outside h

theorem store_congr {y : Bytes} (h : x i = y i) : store x base buf i = store y base buf i := by
  unfold store overlay
  dsimp only
  rw [h]

theorem store_append (x : Bytes) (base : Nat) (buf rest : List UInt8) :
    store x base (buf ++ rest) = store (store x base buf) (base + buf.length) rest := by
  funext i
  unfold store overlay
  dsimp only
  rw [length_append]
  by_cases hlater : base + buf.length ≤ i ∧ i < base + buf.length + rest.length
  · rw [if_pos hlater, if_pos (by omega), getD_append_right _ _ _ _ (by omega), Nat.sub_add_eq]
  · rw [if_neg hlater]
    by_cases hfirst : base ≤ i ∧ i < base + buf.length
    · rw [if_pos hfirst, if_pos (by omega), getD_append _ _ _ _ (by omega)]
    · rw [if_neg hfirst, if_neg (by omega)]

/-- Lists stored one after the other, each with the place it goes to. -/
def storeAll (x : Bytes) (parts : List (Nat × List UInt8)) : Bytes :=
  parts.foldl (fun x part => store x part.1 part.2) x

theorem storeAll_cons (x : Bytes) (part : Nat × List UInt8) (parts : List (Nat × List UInt8)) :
    storeAll x (part :: parts) = storeAll (store x part.1 part.2) parts := rfl

theorem storeAll_append (x : Bytes) (parts parts' : List (Nat × List UInt8)) :
    storeAll x (parts ++ parts') = storeAll (storeAll x parts) parts' :=
  foldl_append

theorem storeAll_congr {y : Bytes} (h : x i = y i) (parts : List (Nat × List UInt8)) :
    storeAll x parts i = storeAll y parts i := by
  induction parts generalizing x y with
  | nil => exact h
  | cons part parts ih => exact ih (store_congr h)

theorem storeAll_outside {parts : List (Nat × List UInt8)}
    (h : ∀ part ∈ parts, i < part.1 ∨ part.1 + part.2.length ≤ i) : storeAll x parts i = x i := by
  induction parts generalizing x with
  | nil => rfl
  | cons part parts ih =>
    rw [storeAll_cons, ih fun part' hmem => h part' (mem_cons_of_mem part hmem),
      store_outside (h part mem_cons_self)]

/-- Of parts that do not overlap every one is found again. -/
theorem storeAll_inside {parts : List (Nat × List UInt8)}
    (happart : parts.Pairwise fun a b => a.1 + a.2.length ≤ b.1 ∨ b.1 + b.2.length ≤ a.1)
    {part : Nat × List UInt8} (hpart : part ∈ parts) (hi : i < part.2.length) :
    storeAll x parts (part.1 + i) = part.2.getD i 0 := by
  induction parts generalizing x with
  | nil => cases hpart
  | cons first parts ih =>
    obtain ⟨hfirst, hrest⟩ := pairwise_cons.mp happart
    rw [storeAll_cons]
    obtain rfl | hmem := mem_cons.mp hpart
    · rw [storeAll_outside, store_inside hi]
      intro other hother
      have hor := hfirst other hother
      omega
    · exact ih hrest hmem

end

theorem toNat_leByte (n k : Nat) : (leByte n k).toNat = n / 256 ^ k % 256 := by
  unfold leByte
  rw [UInt8.toNat_ofNat']

theorem le16_leByte {x : Bytes} {i n : Nat} (h : ∀ k < 2, x (i + k) = leByte n k) :
    le16 x i = n % 65536 := by
  have h0 : x i = leByte n 0 := h 0 (by decide)
  have h1 : x (i + 1) = leByte n 1 := h 1 (by decide)
  unfold le16
  rw [h0, h1, toNat_leByte, toNat_leByte]
  omega

theorem le32_leByte {x : Bytes} {i n : Nat} (h : ∀ k < 4, x (i + k) = leByte n k) :
    le32 x i = n % 4294967296 := by
  have h0 : x i = leByte n 0 := h 0 (by decide)
  have h1 : x (i + 1) = leByte n 1 := h 1 (by decide)
  have h2 : x (i + 2) = leByte n 2 := h 2 (by decide)
  have h3 : x (i + 2 + 1) = leByte n 3 := h 3 (by decide)
  unfold le32 le16
  rw [h0, h1, h2, h3, toNat_leByte, toNat_leByte, toNat_leByte, toNat_leByte]
  omega

theorem le16_lt (x : Bytes) (i : Nat) : le16 x i < 65536 := by
  have h0 := (x i).toNat_lt
  have h1 := (x (i + 1)).toNat_lt
  unfold le16
  omega

theorem le32_lt (x : Bytes) (i : Nat) : le32 x i < 4294967296 := by
  have h0 := le16_lt x i
  have h1 := le16_lt x (i + 2)
  unfold le32
  omega

def WordsAt (x : Bytes) (a : Nat) (words : List Nat) : Prop :=
  ∀ j < words.length, le32 x (a + 4 * j) = words.getD j 0

theorem WordsAt.cons {x : Bytes} {a w : Nat} {words : List Nat} (h : WordsAt x a (w :: words)) :
    le32 x a = w ∧ WordsAt x (a + 4) words := by
  constructor
  · exact h 0 (by simp)
  · intro j hj
    have hnext := h (j + 1) (by simpa using hj)
    rw [getD_cons_succ] at hnext
    rw [← hnext, Nat.mul_succ, Nat.add_assoc, Nat.add_comm 4]

/-- The bytes up to the first zero byte from `a` on, if it is one of the first
`n`. -/
def readString (x : Bytes) : Nat → Nat → Option (List UInt8)
  | 0, _ => none
  | n + 1, a => if x a = 0 then some [] else (readString x n (a + 1)).map fun s => x a :: s

theorem readString_eq {x : Bytes} {s : List UInt8} {n a : Nat} (hs : 0 ∉ s)
    (h : ∀ i < s.length + 1, x (a + i) = (s ++ [0]).getD i 0) (hn : s.length < n) :
    readString x n a = some s := by
  induction n generalizing s a with
  | zero => exact absurd hn (Nat.not_lt_zero _)
  | succ n ih =>
    have hfirst := h 0 (Nat.succ_pos _)
    cases s with
    | nil => exact if_pos hfirst
    | cons b s =>
      have hb : x a = b := hfirst
      have hne : b ≠ 0 := fun hzero => hs (by simp [hzero])
      have hrest : readString x n (a + 1) = some s := by
        refine ih (fun hmem => hs (mem_cons_of_mem b hmem)) (fun i hi => ?_)
          (by simpa using hn)
        have hnext := h (i + 1) (by simpa using hi)
        rw [cons_append, getD_cons_succ] at hnext
        rw [← hnext, Nat.add_assoc, Nat.add_comm 1]
      rw [readString, hb, if_neg hne, hrest]
      rfl

end Xv6.Lib

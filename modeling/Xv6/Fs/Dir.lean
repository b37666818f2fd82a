import Xv6.Fs.Icache
import Xv6.Lib.Slots

/-!
Directories. The contents of a directory are a row of entries; an entry with inode number 0
is free. Names are compared up to their first NUL and up to `DIRSIZ` bytes, so a directory
is a finite map from names of at most `DIRSIZ` bytes to inode numbers.
-/

namespace Xv6.Fs

open Lib List

/-- `strncmp`. The strings end with their lists. -/
def strncmp : List UInt8 → List UInt8 → Nat → Int
  | _, _, 0 => 0
  | p, q, n + 1 =>
    if p.headD 0 ≠ 0 ∧ p.headD 0 = q.headD 0 then strncmp p.tail q.tail n
    else (p.headD 0).toNat - (q.headD 0).toNat

def namecmp (s t : List UInt8) : Int := strncmp s t DIRSIZ

structure Dirent where
  inum : Nat
  name : List UInt8

/-- The structure that `readi` has filled with some bytes. -/
def Dirent.read (bytes : List UInt8) : Dirent where
  inum := (bytes.getD 0 0).toNat + 256 * (bytes.getD 1 0).toNat
  name := bytes.drop 2

/-- The loop of `dirlookup`, up to the inode number that is passed to `iget`. The size of
the directory does not change in the loop. -/
def dirlookupLoop (devsw : Devsw) (name : List UInt8) (size : Nat) (k : Disk) (dp : Dinode)
    (off : Nat) : Except Fault (Option (Nat × Nat) × Dinode × Disk) :=
  if off < size then do
    let (n, bytes, dp, k) ← onDisk (readi devsw k dp off DIRENTSIZE)
    if n ≠ DIRENTSIZE then .error .dirlookupRead
    else
      let de := Dirent.read bytes
      if de.inum = 0 then dirlookupLoop devsw name size k dp (off + DIRENTSIZE)
      else if namecmp name de.name = 0 then .ok (some (de.inum, off), dp, k)
      else dirlookupLoop devsw name size k dp (off + DIRENTSIZE)
  else .ok (none, dp, k)
termination_by size - off
decreasing_by
  all_goals
    unfold DIRENTSIZE DIRSIZ
    omega

/-- `dirlookup` for the directory in entry `d`; the result is an entry and the offset. -/
def dirlookup (devsw : Devsw) (κ : Kern) (d : Nat) (name : List UInt8) :
    Except Fault (Option (Nat × Nat) × Kern) :=
  let dp := (κ.icache d).ip
  if dp.type ≠ T_DIR then .error .dirlookup
  else do
    let (found, dp, k) ← dirlookupLoop devsw name dp.size κ.disk dp 0
    let κ := κ.setInode d dp k
    match found with
    | none => .ok (none, κ)
    | some (inum, off) => do
        let (i, κ) ← iget κ inum
        .ok (some (i, off), κ)

/-- The loop of `dirlink` that looks for a free entry. -/
def dirlinkLoop (devsw : Devsw) (size : Nat) (k : Disk) (dp : Dinode) (off : Nat) :
    Except Fault (Nat × Dinode × Disk) :=
  if off < size then do
    let (n, bytes, dp, k) ← onDisk (readi devsw k dp off DIRENTSIZE)
    if n ≠ DIRENTSIZE then .error .dirlinkRead
    else if (Dirent.read bytes).inum = 0 then .ok (off, dp, k)
    else dirlinkLoop devsw size k dp (off + DIRENTSIZE)
  else .ok (off, dp, k)
termination_by size - off
decreasing_by
  unfold DIRENTSIZE DIRSIZ
  omega

def dirlink (devsw : Devsw) (κ : Kern) (d : Nat) (name : List UInt8) (inum : Nat) :
    Except Fault (Int × Kern) := do
  let (found, κ) ← dirlookup devsw κ d name
  match found with
  | some (i, _) => do
      let κ ← iput κ i
      .ok (-1, κ)
  | none => do
      let dp := (κ.icache d).ip
      let (off, dp, k) ← dirlinkLoop devsw dp.size κ.disk dp 0
      let (n, dp, k) ← onDisk (writei devsw k (κ.icache d).inum dp off (direntBytes inum name))
      if n ≠ DIRENTSIZE then .error .dirlink else .ok (0, κ.setInode d dp k)

/-- The erasure of the entry at `off` in `sys_unlink`. -/
def unlinkEntry (devsw : Devsw) (κ : Kern) (d off : Nat) : Except Fault Kern := do
  let (n, dp, k) ← onDisk (writei devsw κ.disk (κ.icache d).inum (κ.icache d).ip off
    (List.replicate DIRENTSIZE 0))
  if n ≠ DIRENTSIZE then .error .unlink else .ok (κ.setInode d dp k)

/-- The part of a string that names in directories keep. -/
def nameKey (name : List UInt8) : List UInt8 := (name.take DIRSIZ).takeWhile (· ≠ 0)

/-- What an entry of a directory says. -/
def slotOf (de : Dirent) : Option (List UInt8 × Nat) :=
  if de.inum = 0 then none else some (nameKey de.name, de.inum)

def direntAt (bytes : List UInt8) (j : Nat) : Dirent :=
  Dirent.read ((bytes.drop (DIRENTSIZE * j)).take DIRENTSIZE)

/-- The entries of a directory with these contents. -/
def slots (bytes : List UInt8) : List (Option (List UInt8 × Nat)) :=
  (List.range (bytes.length / DIRENTSIZE)).map fun j => slotOf (direntAt bytes j)

section

theorem byte_sub_eq_zero (a b : UInt8) : (a.toNat : Int) - b.toNat = 0 ↔ a = b := by
  rw [← UInt8.toNat_inj]
  omega

theorem chars_succ (p : List UInt8) (n : Nat) : (p.take (n + 1)).takeWhile (· ≠ 0) =
      if p.headD 0 = 0 then [] else p.headD 0 :: (p.tail.take n).takeWhile (· ≠ 0) := by
  cases p with
  | nil => rfl
  | cons a p =>
    rw [take_succ_cons, takeWhile_cons]
    by_cases ha : a = 0
    · simp [ha]
    · simp [ha]

theorem strncmp_eq_zero (p q : List UInt8) (n : Nat) :
    strncmp p q n = 0 ↔ (p.take n).takeWhile (· ≠ 0) = (q.take n).takeWhile (· ≠ 0) := by
  induction n generalizing p q with
  | zero => simp [strncmp]
  | succ n ih =>
    rw [strncmp, chars_succ, chars_succ]
    split
    · next h =>
      rw [if_neg h.1, ← h.2, if_neg h.1, cons_eq_cons, ih]
      exact (and_iff_right rfl).symm
    · next h =>
      rw [byte_sub_eq_zero]
      by_cases hp : p.headD 0 = 0
      · rw [if_pos hp, hp]
        split
        · next hq => exact iff_of_true hq.symm rfl
        · next hq => exact iff_of_false (Ne.symm hq) nofun
      · rw [if_neg hp]
        have hne : p.headD 0 ≠ q.headD 0 := fun heq => h ⟨hp, heq⟩
        split
        · exact iff_of_false hne nofun
        · exact iff_of_false hne fun heq => hne (cons_eq_cons.mp heq).1

theorem namecmp_eq_zero (s t : List UInt8) : namecmp s t = 0 ↔ nameKey s = nameKey t :=
  strncmp_eq_zero s t DIRSIZ

theorem strncpy_chars (t : List UInt8) (n : Nat) :
    ((strncpy t n).take n).takeWhile (· ≠ 0) = (t.take n).takeWhile (· ≠ 0) := by
  induction n generalizing t with
  | zero => simp
  | succ n ih =>
    rw [chars_succ, chars_succ]
    cases t with
    | nil => rfl
    | cons c t =>
      rw [strncpy]
      by_cases hc : c = 0
      · rw [if_pos hc, hc]
        rfl
      · rw [if_neg hc]
        change (if c = 0 then _ else c :: ((strncpy t n).take n).takeWhile (· ≠ 0)) = _
        rw [ih]
        rfl

theorem nameKey_strncpy (name : List UInt8) : nameKey (strncpy name DIRSIZ) = nameKey name :=
  strncpy_chars name DIRSIZ

theorem slotOf_direntBytes {inum : Nat} (hne : inum ≠ 0) (hlt : inum < 65536) (name : List UInt8) :
    slotOf (Dirent.read (direntBytes inum name)) = some (nameKey name, inum) := by
  have hinum : (Dirent.read (direntBytes inum name)).inum = inum := by
    change (leByte inum 0).toNat + 256 * (leByte inum 1).toNat = inum
    unfold leByte
    rw [UInt8.toNat_ofNat', UInt8.toNat_ofNat']
    omega
  unfold slotOf
  rw [hinum, if_neg hne]
  exact congrArg (fun key => some (key, inum)) (nameKey_strncpy name)

theorem slotOf_zero : slotOf (Dirent.read (List.replicate DIRENTSIZE 0)) = none := rfl

end

section

variable {bytes src : List UInt8} {m j : Nat}

theorem slots_length (bytes : List UInt8) : (slots bytes).length = bytes.length / DIRENTSIZE := by
  unfold slots
  rw [length_map, length_range]

theorem slots_get {i : Nat} (hi : i < bytes.length / DIRENTSIZE) :
    (slots bytes)[i]? = some (slotOf (direntAt bytes i)) := by
  unfold slots
  rw [List.getElem?_map, List.getElem?_range hi]
  rfl

theorem write_get (hlength : bytes.length = DIRENTSIZE * m) (hsrc : src.length = DIRENTSIZE)
    (hj : j ≤ m) (p : Nat) :
    (bytes.take (DIRENTSIZE * j) ++ src ++ bytes.drop (DIRENTSIZE * j + src.length))[p]? =
      if DIRENTSIZE * j ≤ p ∧ p < DIRENTSIZE * j + DIRENTSIZE then src[p - DIRENTSIZE * j]?
      else bytes[p]? := by
  have hle : DIRENTSIZE * j ≤ bytes.length := by
    rw [hlength]
    exact Nat.mul_le_mul_left _ hj
  have htake : (bytes.take (DIRENTSIZE * j)).length = DIRENTSIZE * j := by
    rw [length_take]
    omega
  rw [append_assoc, List.getElem?_append, htake]
  split
  · next hlt => rw [if_neg (by omega), List.getElem?_take_of_lt hlt]
  · next hge =>
    rw [List.getElem?_append, hsrc]
    split
    · next hlt => rw [if_pos (by omega)]
    · next hge' =>
      rw [if_neg (by omega), List.getElem?_drop]
      congr 1
      omega

theorem write_length (hlength : bytes.length = DIRENTSIZE * m) (hsrc : src.length = DIRENTSIZE)
    (hj : j ≤ m) :
    (bytes.take (DIRENTSIZE * j) ++ src ++ bytes.drop (DIRENTSIZE * j + src.length)).length =
      DIRENTSIZE * max m (j + 1) := by
  rw [length_append, length_append, length_take, length_drop, hsrc, hlength]
  unfold DIRENTSIZE DIRSIZ
  omega

theorem direntAt_write (hlength : bytes.length = DIRENTSIZE * m)
    (hsrc : src.length = DIRENTSIZE) (hj : j ≤ m) (i : Nat) :
    direntAt (bytes.take (DIRENTSIZE * j) ++ src ++ bytes.drop (DIRENTSIZE * j + src.length)) i =
      if i = j then Dirent.read src else direntAt bytes i := by
  unfold direntAt
  by_cases hi : i = j
  · rw [if_pos hi, hi]
    congr 1
    apply ext_getElem?
    intro t
    rw [List.getElem?_take, List.getElem?_drop, write_get hlength hsrc hj]
    by_cases ht : t < DIRENTSIZE
    · rw [if_pos ht, if_pos (by omega), Nat.add_sub_cancel_left]
    · rw [if_neg ht, List.getElem?_eq_none (by omega)]
  · rw [if_neg hi]
    congr 1
    apply ext_getElem?
    intro t
    rw [List.getElem?_take, List.getElem?_take, List.getElem?_drop, List.getElem?_drop,
      write_get hlength hsrc hj]
    by_cases ht : t < DIRENTSIZE
    · rw [if_pos ht, if_pos ht, if_neg]
      unfold DIRENTSIZE DIRSIZ at *
      omega
    · rw [if_neg ht, if_neg ht]

theorem slots_write (hlength : bytes.length = DIRENTSIZE * m) (hsrc : src.length = DIRENTSIZE)
    (hj : j ≤ m) :
    slots (bytes.take (DIRENTSIZE * j) ++ src ++ bytes.drop (DIRENTSIZE * j + src.length)) =
      if j < (slots bytes).length then (slots bytes).set j (slotOf (Dirent.read src))
      else slots bytes ++ [slotOf (Dirent.read src)] := by
  have hpos : 0 < DIRENTSIZE := by decide
  have hold : (slots bytes).length = m := by
    rw [slots_length, hlength, Nat.mul_div_cancel_left m hpos]
  have hnew : (slots (bytes.take (DIRENTSIZE * j) ++ src ++
      bytes.drop (DIRENTSIZE * j + src.length))).length = max m (j + 1) := by
    rw [slots_length, write_length hlength hsrc hj, Nat.mul_div_cancel_left _ hpos]
  have hget (i : Nat) (hi : i < max m (j + 1)) : (slots (bytes.take (DIRENTSIZE * j) ++ src ++
      bytes.drop (DIRENTSIZE * j + src.length)))[i]? =
        some (slotOf (if i = j then Dirent.read src else direntAt bytes i)) := by
    rw [slots_get (by rw [← slots_length, hnew]; exact hi), direntAt_write hlength hsrc hj]
  apply ext_getElem?
  intro i
  by_cases hlt : j < (slots bytes).length
  · rw [if_pos hlt, List.getElem?_set]
    by_cases hij : j = i
    · rw [if_pos hij, if_pos (by omega), hget i (by omega), if_pos hij.symm]
    · rw [if_neg hij]
      by_cases hi : i < m
      · rw [hget i (by omega), if_neg (Ne.symm hij), slots_get (by rw [← slots_length]; omega)]
      · rw [List.getElem?_eq_none (by omega), List.getElem?_eq_none (by omega)]
  · have hend : j = m := by omega
    rw [if_neg hlt, List.getElem?_append, hold]
    split
    · next hi =>
      rw [hget i (by omega), if_neg (by omega), slots_get (by rw [← slots_length]; omega)]
    · next hi =>
      by_cases hij : i = j
      · rw [hget i (by omega), if_pos hij, hij, hend, Nat.sub_self]
        rfl
      · rw [List.getElem?_eq_none (by omega), List.getElem?_eq_none]
        rw [length_singleton]
        omega

end

section

variable {k : Disk} {dp : Dinode} {m : Nat}

theorem readi_dirent (devsw : Devsw) (htype : dp.type = T_DIR) (hfree : k.HoleFree dp)
    (hsize : dp.size = DIRENTSIZE * m) {j : Nat} (hj : j < m) :
    readi devsw k dp (DIRENTSIZE * j) DIRENTSIZE = .ok ((DIRENTSIZE : Nat),
      ((k.contents dp).drop (DIRENTSIZE * j)).take DIRENTSIZE, dp, k) := by
  have hle := hfree.size
  have hmax : MAXFILE * BSIZE < 1000000 := by decide
  have hfit : DIRENTSIZE * j + DIRENTSIZE ≤ dp.size := by
    rw [hsize]
    exact Nat.mul_le_mul_left DIRENTSIZE hj
  have hsmall : DIRENTSIZE = 16 := rfl
  rw [readi_spec devsw (by rw [htype]; decide) hfree (by omega) (by omega), if_pos (by omega),
    Nat.min_eq_left (by omega)]

theorem slots_full (hsize : dp.size = DIRENTSIZE * m) : (slots (k.contents dp)).length = m := by
  rw [slots_length, contents_length, hsize, Nat.mul_div_cancel_left m (by decide)]

theorem slots_drop (hsize : dp.size = DIRENTSIZE * m) {j : Nat} (hj : j < m) :
    (slots (k.contents dp)).drop j =
      slotOf (direntAt (k.contents dp) j) :: (slots (k.contents dp)).drop (j + 1) := by
  have hlength := slots_full (k := k) hsize
  have hget : (slots (k.contents dp))[j]? = some (slotOf (direntAt (k.contents dp) j)) :=
    slots_get (by rw [← slots_length, hlength]; exact hj)
  obtain ⟨hlt, heq⟩ := List.getElem?_eq_some_iff.mp hget
  rw [drop_eq_getElem_cons hlt, heq]

theorem dirlookupLoop_eq (devsw : Devsw) (name : List UInt8) (htype : dp.type = T_DIR)
    (hfree : k.HoleFree dp) (hsize : dp.size = DIRENTSIZE * m) {j : Nat} (hj : j ≤ m) :
    dirlookupLoop devsw name dp.size k dp (DIRENTSIZE * j) =
      .ok ((Slots.findFrom (nameKey name) j ((slots (k.contents dp)).drop j)).map
        fun found => (found.1, DIRENTSIZE * found.2), dp, k) := by
  induction hj using Nat.decreasingInduction with
  | self =>
    have hlength := slots_full (k := k) hsize
    rw [dirlookupLoop, if_neg (by rw [hsize]; exact Nat.lt_irrefl _), drop_eq_nil_of_le (by omega)]
    rfl
  | of_succ j hlt hnext =>
    have hoff : DIRENTSIZE * j < dp.size := by
      rw [hsize]
      exact Nat.mul_lt_mul_of_pos_left hlt (by decide)
    have hde : Dirent.read (((k.contents dp).drop (DIRENTSIZE * j)).take DIRENTSIZE) =
        direntAt (k.contents dp) j := rfl
    rw [dirlookupLoop, if_pos hoff, readi_dirent devsw htype hfree hsize hlt,
      slots_drop hsize hlt, onDisk, ok_bind]
    dsimp only
    rw [if_neg (not_not_intro rfl), hde]
    generalize direntAt (k.contents dp) j = de
    by_cases hzero : de.inum = 0
    · have hslot : slotOf de = none := if_pos hzero
      rw [if_pos hzero, hslot]
      exact hnext
    · have hslot : slotOf de = some (nameKey de.name, de.inum) := if_neg hzero
      rw [if_neg hzero, hslot, Slots.findFrom]
      by_cases hname : nameKey de.name = nameKey name
      · rw [if_pos ((namecmp_eq_zero _ _).mpr hname.symm), if_pos hname]
        rfl
      · rw [if_neg fun hcmp => hname ((namecmp_eq_zero _ _).mp hcmp).symm, if_neg hname]
        exact hnext

theorem dirlinkLoop_eq (devsw : Devsw) (htype : dp.type = T_DIR) (hfree : k.HoleFree dp)
    (hsize : dp.size = DIRENTSIZE * m) {j : Nat} (hj : j ≤ m) :
    dirlinkLoop devsw dp.size k dp (DIRENTSIZE * j) =
      .ok (DIRENTSIZE * Slots.holeFrom j ((slots (k.contents dp)).drop j), dp, k) := by
  induction hj using Nat.decreasingInduction with
  | self =>
    have hlength := slots_full (k := k) hsize
    rw [dirlinkLoop, if_neg (by rw [hsize]; exact Nat.lt_irrefl _), drop_eq_nil_of_le (by omega)]
    rfl
  | of_succ j hlt hnext =>
    have hoff : DIRENTSIZE * j < dp.size := by
      rw [hsize]
      exact Nat.mul_lt_mul_of_pos_left hlt (by decide)
    have hde : Dirent.read (((k.contents dp).drop (DIRENTSIZE * j)).take DIRENTSIZE) =
        direntAt (k.contents dp) j := rfl
    rw [dirlinkLoop, if_pos hoff, readi_dirent devsw htype hfree hsize hlt,
      slots_drop hsize hlt, onDisk, ok_bind]
    dsimp only
    rw [if_neg (not_not_intro rfl), hde]
    generalize direntAt (k.contents dp) j = de
    by_cases hzero : de.inum = 0
    · have hslot : slotOf de = none := if_pos hzero
      rw [if_pos hzero, hslot]
      rfl
    · have hslot : slotOf de = some (nameKey de.name, de.inum) := if_neg hzero
      rw [if_neg hzero, hslot, Slots.holeFrom]
      exact hnext

end

end Xv6.Fs

import Xv6.Lib.Bytes
import Xv6.Param

/-!
The on-disk format of `fs.h`, which the kernel and `mkfs` share: super block,
inodes, free bitmap and directory entries, as bytes of blocks.
-/

namespace Xv6.Fs

open Lib Function

def T_DIR : Int := 1
def T_FILE : Int := 2
def T_DEV : Int := 3

structure Superblock where
  size : Nat
  nblocks : Nat
  ninodes : Nat
  nlog : Nat
  logstart : Nat
  inodestart : Nat
  bmapstart : Nat
deriving DecidableEq

/-- `struct dinode`; of `addrs` the numbers up to `NDIRECT` are used. -/
structure Dinode where
  type : Int
  major : Int
  minor : Int
  nlink : Int
  size : Nat
  addrs : Nat → Nat

/-- `sizeof(struct dinode)` -/
def DINODESIZE : Nat := 64
def IPB : Nat := BSIZE / DINODESIZE
def BPB : Nat := BSIZE * 8
/-- `sizeof(struct dirent)` -/
def DIRENTSIZE : Nat := 2 + DIRSIZ

def IBLOCK (i : Nat) (sb : Superblock) : Nat := i / IPB + sb.inodestart

/-- Block of the free map containing the bit for block `b`. -/
def BBLOCK (b : Nat) (sb : Superblock) : Nat := b / BPB + sb.bmapstart

def Superblock.word (sb : Superblock) : Nat → Nat
  | 0 => sb.size
  | 1 => sb.nblocks
  | 2 => sb.ninodes
  | 3 => sb.nlog
  | 4 => sb.logstart
  | 5 => sb.inodestart
  | _ => sb.bmapstart

def Superblock.byte (sb : Superblock) : Bytes := fun k => leByte (sb.word (k / 4)) (k % 4)

/-- `sizeof(struct superblock)` -/
def SUPERSIZE : Nat := 28

def Superblock.read (x : Bytes) : Superblock :=
  ⟨le32 x 0, le32 x 4, le32 x 8, le32 x 12, le32 x 16, le32 x 20, le32 x 24⟩

def short (n : Int) : Int := n.bmod 65536

def ushort (n : Int) : Nat := (n % 65536).toNat

def Dinode.byte (d : Dinode) : Bytes := fun k =>
  if k < 2 then leByte (ushort d.type) k
  else if k < 4 then leByte (ushort d.major) (k - 2)
  else if k < 6 then leByte (ushort d.minor) (k - 4)
  else if k < 8 then leByte (ushort d.nlink) (k - 6)
  else if k < 12 then leByte d.size (k - 8)
  else leByte (d.addrs ((k - 12) / 4)) ((k - 12) % 4)

def Dinode.read (x : Bytes) (base : Nat) : Dinode where
  type := short (le16 x base)
  major := short (le16 x (base + 2))
  minor := short (le16 x (base + 4))
  nlink := short (le16 x (base + 6))
  size := le32 x (base + 8)
  addrs k := if k ≤ NDIRECT then le32 x (base + (12 + 4 * k)) else 0

/-- Inode `inum` in the block that contains it. -/
def Dinode.slot (inum : Nat) : Nat := inum % IPB * DINODESIZE

/-- `a[bn]` for `a = (uint*)bp->data` -/
def indirectWord (x : Bytes) (bn : Nat) : Nat := le32 x (4 * bn)

/-- The block numbers of an inode, 0 for none: below `MAXFILE` those of the contents, and
at `MAXFILE` that of the indirect block. -/
def Dinode.num (block : Nat → Bytes) (d : Dinode) (j : Nat) : Nat :=
  if j < NDIRECT then d.addrs j
  else if j < MAXFILE then
    if d.addrs NDIRECT = 0 then 0 else indirectWord (block (d.addrs NDIRECT)) (j - NDIRECT)
  else if j = MAXFILE then d.addrs NDIRECT
  else 0

/-- The bit of block `i`: `data[i/8] & (1 << (i%8))`. -/
def bit (x : Bytes) (i : Nat) : Bool := (x (i / 8)).toNat.testBit (i % 8)

/-- `data[i/8] |= 1 << (i%8)` -/
def setBit (x : Bytes) (i : Nat) : Bytes :=
  update x (i / 8) (UInt8.ofNat ((x (i / 8)).toNat ||| 2 ^ (i % 8)))

/-- `strncpy(s, t, n)`: what is in the array `s` of `n` bytes. -/
def strncpy : List UInt8 → Nat → List UInt8
  | _, 0 => []
  | [], n + 1 => List.replicate (n + 1) 0
  | c :: t, n + 1 => if c = 0 then List.replicate (n + 1) 0 else c :: strncpy t n

def direntBytes (inum : Nat) (name : List UInt8) : List UInt8 :=
  leByte inum 0 :: leByte inum 1 :: strncpy name DIRSIZ

theorem strncpy_length (t : List UInt8) (n : Nat) : (strncpy t n).length = n := by
  induction n generalizing t with
  | zero => cases t <;> rfl
  | succ n ih =>
    cases t with
    | nil => exact List.length_replicate
    | cons c t =>
      rw [strncpy]
      split
      · exact List.length_replicate
      · rw [List.length_cons, ih]

theorem direntBytes_length (inum : Nat) (name : List UInt8) :
    (direntBytes inum name).length = DIRENTSIZE := by
  unfold direntBytes
  rw [List.length_cons, List.length_cons, strncpy_length]
  rfl

/-- An inode whose fields fit the types of the structure. -/
structure Dinode.Fits (d : Dinode) : Prop where
  type : -32768 ≤ d.type ∧ d.type < 32768
  major : -32768 ≤ d.major ∧ d.major < 32768
  minor : -32768 ≤ d.minor ∧ d.minor < 32768
  nlink : -32768 ≤ d.nlink ∧ d.nlink < 32768
  size : d.size < 4294967296
  addrs : ∀ k, d.addrs k < 4294967296
  rest : ∀ k, NDIRECT < k → d.addrs k = 0

theorem short_ushort {n : Int} (h : -32768 ≤ n ∧ n < 32768) :
    short (ushort n % 65536 : Nat) = n := by
  have hcast : ((ushort n % 65536 : Nat) : Int) = n % 65536 := by
    unfold ushort
    omega
  unfold short
  rw [hcast, Int.bmod_def]
  split <;> omega

theorem short_bounds (n : Int) : -32768 ≤ short n ∧ short n < 32768 := by
  unfold short
  rw [Int.bmod_def]
  split <;> omega

theorem Dinode.fits_read (x : Bytes) (base : Nat) : (Dinode.read x base).Fits := by
  have haddrs (k : Nat) : (Dinode.read x base).addrs k < 4294967296 := by
    unfold Dinode.read
    dsimp only
    split
    · exact le32_lt _ _
    · omega
  constructor <;> unfold Dinode.read <;> dsimp only
  · exact short_bounds _
  · exact short_bounds _
  · exact short_bounds _
  · exact short_bounds _
  · exact le32_lt _ _
  · exact haddrs
  · exact fun k hk => if_neg (Nat.not_le.mpr hk)

theorem Dinode.Fits.setSize {d : Dinode} (h : d.Fits) {n : Nat} (hn : n < 4294967296) :
    Dinode.Fits { d with size := n } :=
  ⟨h.type, h.major, h.minor, h.nlink, hn, h.addrs, h.rest⟩

theorem Dinode.read_overlay (x : Bytes) (base : Nat) {d : Dinode} (h : d.Fits) :
    Dinode.read (overlay x base DINODESIZE d.byte) base = d := by
  have h16 {n : Int} {o : Nat} (hn : -32768 ≤ n ∧ n < 32768) (ho : o + 2 ≤ DINODESIZE)
      (hbyte : ∀ k < 2, d.byte (o + k) = leByte (ushort n) k) :
      short (le16 (overlay x base DINODESIZE d.byte) (base + o)) = n := by
    rw [le16_inside ho, le16_leByte hbyte]
    exact short_ushort hn
  have h32 {n o : Nat} (hn : n < 4294967296) (ho : o + 4 ≤ DINODESIZE)
      (hbyte : ∀ k < 4, d.byte (o + k) = leByte n k) :
      le32 (overlay x base DINODESIZE d.byte) (base + o) = n := by
    rw [le32_inside ho, le32_leByte hbyte, Nat.mod_eq_of_lt hn]
  have htype := h16 (o := 0) h.type (by decide) fun k hk => by
    rw [Nat.zero_add, Dinode.byte, if_pos hk]
  have hmajor := h16 (o := 2) h.major (by decide) fun k hk => by
    rw [Dinode.byte, if_neg (by omega), if_pos (by omega), Nat.add_sub_cancel_left]
  have hminor := h16 (o := 4) h.minor (by decide) fun k hk => by
    rw [Dinode.byte, if_neg (by omega), if_neg (by omega), if_pos (by omega),
      Nat.add_sub_cancel_left]
  have hnlink := h16 (o := 6) h.nlink (by decide) fun k hk => by
    rw [Dinode.byte, if_neg (by omega), if_neg (by omega), if_neg (by omega), if_pos (by omega),
      Nat.add_sub_cancel_left]
  have hsize := h32 (o := 8) h.size (by decide) fun k hk => by
    rw [Dinode.byte, if_neg (by omega), if_neg (by omega), if_neg (by omega), if_neg (by omega),
      if_pos (by omega), Nat.add_sub_cancel_left]
  have haddrs (j : Nat) (hj : j ≤ NDIRECT) := h32 (o := 12 + 4 * j) (h.addrs j)
    (by unfold NDIRECT at hj; unfold DINODESIZE; omega) fun k hk => by
      have hdiv : (12 + 4 * j + k - 12) / 4 = j := by omega
      have hmod : (12 + 4 * j + k - 12) % 4 = k := by omega
      rw [Dinode.byte, if_neg (by omega), if_neg (by omega), if_neg (by omega), if_neg (by omega),
        if_neg (by omega), hdiv, hmod]
  have hall : (fun k => if k ≤ NDIRECT then
      le32 (overlay x base DINODESIZE d.byte) (base + (12 + 4 * k)) else 0) = d.addrs := by
    funext k
    split
    · next hk => exact haddrs k hk
    · next hk => exact (h.rest k (Nat.lt_of_not_le hk)).symm
  unfold Dinode.read
  rw [Nat.add_zero] at htype
  rw [htype, hmajor, hminor, hnlink, hsize, hall]

theorem Dinode.read_outside {x p : Bytes} {base len slot : Nat}
    (h : slot + DINODESIZE ≤ base ∨ base + len ≤ slot) :
    Dinode.read (overlay x base len p) slot = Dinode.read x slot := by
  unfold DINODESIZE at h
  have h16 (o : Nat) (ho : o + 2 ≤ 64) :
      le16 (overlay x base len p) (slot + o) = le16 x (slot + o) := le16_outside (by omega)
  have h32 (o : Nat) (ho : o + 4 ≤ 64) :
      le32 (overlay x base len p) (slot + o) = le32 x (slot + o) := le32_outside (by omega)
  have hall : (fun k => if k ≤ NDIRECT then
        le32 (overlay x base len p) (slot + (12 + 4 * k)) else 0) =
      fun k => if k ≤ NDIRECT then le32 x (slot + (12 + 4 * k)) else 0 := by
    funext k
    split
    · next hk => exact h32 _ (by unfold NDIRECT at hk; omega)
    · rfl
  have h0 := h16 0 (by decide)
  rw [Nat.add_zero] at h0
  unfold Dinode.read
  rw [h0, h16 2 (by decide), h16 4 (by decide), h16 6 (by decide), h32 8 (by decide), hall]

section

variable {block : Nat → Bytes} {d : Dinode} {j : Nat}

theorem num_direct (hj : j < NDIRECT) : d.num block j = d.addrs j := if_pos hj

theorem num_word (hj : NDIRECT ≤ j) (hlt : j < MAXFILE) (h : d.addrs NDIRECT ≠ 0) :
    d.num block j = indirectWord (block (d.addrs NDIRECT)) (j - NDIRECT) := by
  unfold Dinode.num
  rw [if_neg (Nat.not_lt.mpr hj), if_pos hlt, if_neg h]

theorem num_word_none (hj : NDIRECT ≤ j) (hlt : j < MAXFILE) (h : d.addrs NDIRECT = 0) :
    d.num block j = 0 := by
  unfold Dinode.num
  rw [if_neg (Nat.not_lt.mpr hj), if_pos hlt, if_pos h]

theorem num_indirect : d.num block MAXFILE = d.addrs NDIRECT := rfl

/-- The numbers depend on the contents of the indirect block only. -/
theorem num_congr {block' : Nat → Bytes}
    (h : d.addrs NDIRECT ≠ 0 → block' (d.addrs NDIRECT) = block (d.addrs NDIRECT)) :
    d.num block' j = d.num block j := by
  unfold Dinode.num
  by_cases hzero : d.addrs NDIRECT = 0
  · rw [if_pos hzero, if_pos hzero]
  · rw [h hzero]

theorem num_setAddr {k v : Nat} (hk : k < NDIRECT) (hne : j ≠ k) :
    Dinode.num block { d with addrs := update d.addrs k v } j = d.num block j := by
  have hind : update d.addrs k v NDIRECT = d.addrs NDIRECT :=
    update_of_ne (Nat.ne_of_gt hk) v d.addrs
  simp only [Dinode.num, update_of_ne hne, hind]

theorem num_setIndirect {v : Nat} (hnone : d.addrs NDIRECT = 0) (hv : block v = fun _ => 0)
    (hne : j ≠ MAXFILE) :
    Dinode.num block { d with addrs := update d.addrs NDIRECT v } j = d.num block j := by
  by_cases hj : j < NDIRECT
  · rw [num_direct hj, num_direct hj]
    exact update_of_ne (Nat.ne_of_lt hj) v d.addrs
  · by_cases hlt : j < MAXFILE
    · rw [num_word_none (Nat.not_lt.mp hj) hlt hnone]
      simp [Dinode.num, hj, hlt, indirectWord, le32, le16, hv]
    · simp [Dinode.num, hj, hlt, hne]

theorem indirectWord_overlay (x : Bytes) {bn v : Nat} (hv : v < 4294967296) (k : Nat) :
    indirectWord (overlay x (4 * bn) 4 (leByte v)) k = if k = bn then v else indirectWord x k := by
  unfold indirectWord
  split
  · next heq =>
    have hread : le32 (overlay x (4 * bn) 4 (leByte v)) (4 * bn) = v % 4294967296 :=
      le32_leByte fun k hk => overlay_inside hk
    rw [heq, hread, Nat.mod_eq_of_lt hv]
  · exact le32_outside (by omega)

end

theorem bit_setBit (x : Bytes) (i j : Nat) : bit (setBit x i) j = (decide (j = i) || bit x j) := by
  have hlt := (x (i / 8)).toNat_lt
  have hpow : 2 ^ (i % 8) < 2 ^ 8 := Nat.pow_lt_pow_right (by decide) (by omega)
  have hor : (x (i / 8)).toNat ||| 2 ^ (i % 8) < 2 ^ 8 := Nat.or_lt_two_pow hlt hpow
  unfold bit setBit
  by_cases hbyte : j / 8 = i / 8
  · have hiff : (i % 8 = j % 8) ↔ (j = i) := by omega
    rw [hbyte, update_self, UInt8.toNat_ofNat', Nat.mod_eq_of_lt hor, Nat.testBit_or,
      Nat.testBit_two_pow, Bool.or_comm]
    simp only [hiff]
  · have hne : j ≠ i := by
      rintro rfl
      exact hbyte rfl
    rw [update_of_ne hbyte]
    simp [hne]

theorem slot_disjoint {i j : Nat} (hblock : i / IPB = j / IPB) (hne : i ≠ j) :
    Dinode.slot i + DINODESIZE ≤ Dinode.slot j ∨ Dinode.slot j + DINODESIZE ≤ Dinode.slot i := by
  unfold Dinode.slot IPB BSIZE DINODESIZE at *
  omega

end Xv6.Fs

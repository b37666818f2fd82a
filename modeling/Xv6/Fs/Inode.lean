import Xv6.Fs.Format
import Xv6.Lib.Except

/-!
The lower layers of `fs.c`: the allocator of disk blocks and the contents of
inodes. A block is what its buffer says, whether or not the log has it on the
disk yet; the calls of `log_write` are kept in a list.
-/

namespace Xv6.Fs

open Lib Function

inductive Panic where
  /-- "balloc: out of blocks" -/
  | balloc
  /-- "freeing free block" -/
  | bfree
  /-- "bmap: out of range" -/
  | bmap
  /-- "short filewrite" -/
  | filewrite
deriving DecidableEq

/-- The contents of the buffers, the variable `sb`, and the blocks passed to
`log_write`, the last one first. -/
structure Disk where
  block : Nat → Bytes
  sb : Superblock
  log : List Nat

/-- The number of devices that `devsw` has room for. -/
def NDEV : Int := 10

/-- `devsw`, with what the functions of a device return for a length or for some bytes. -/
structure Devsw where
  read : Int → Option (Nat → Int × List UInt8)
  write : Int → Option (List UInt8 → Int)

/-- Change the data of a buffer and pass it to `log_write`. -/
def Disk.write (k : Disk) (b : Nat) (x : Bytes) : Disk :=
  { k with block := update k.block b x, log := b :: k.log }

def readsb (k : Disk) : Disk := { k with sb := Superblock.read (k.block 1) }

def bzero (k : Disk) (bno : Nat) : Disk := k.write bno fun _ => 0

/-- `data[i/8] &= ~(1 << (i%8))` -/
def clearBit (x : Bytes) (i : Nat) : Bytes :=
  update x (i / 8) (UInt8.ofNat ((x (i / 8)).toNat &&& (255 - 2 ^ (i % 8))))

def ballocScan (x : Bytes) (b size bi : Nat) : Option Nat :=
  if bi < BPB ∧ b + bi < size then
    if bit x bi then ballocScan x b size (bi + 1) else some bi
  else none
termination_by BPB - bi

/-- The loop of `balloc` over the blocks of the bitmap. -/
def ballocLoop (k : Disk) (b : Nat) : Except Panic (Nat × Disk) :=
  if b < k.sb.size then
    match ballocScan (k.block (BBLOCK b k.sb)) b k.sb.size 0 with
    | some bi =>
      let bp := BBLOCK b k.sb
      .ok (b + bi, bzero (k.write bp (setBit (k.block bp) bi)) (b + bi))
    | none => ballocLoop k (b + BPB)
  else .error .balloc
termination_by k.sb.size - b
decreasing_by
  unfold BPB BSIZE
  omega

def balloc (k : Disk) : Except Panic (Nat × Disk) := ballocLoop k 0

def bfree (k : Disk) (b : Nat) : Except Panic Disk :=
  let k := readsb k
  let bp := BBLOCK b k.sb
  let bi := b % BPB
  if bit (k.block bp) bi then .ok (k.write bp (clearBit (k.block bp) bi)) else .error .bfree

/-- `iupdate` for inode `inum` with the fields `ip`. -/
def iupdate (k : Disk) (inum : Nat) (ip : Dinode) : Disk :=
  let bp := IBLOCK inum k.sb
  k.write bp (overlay (k.block bp) (Dinode.slot inum) DINODESIZE ip.byte)

def bmap (k : Disk) (ip : Dinode) (bn : Nat) : Except Panic (Nat × Dinode × Disk) :=
  if bn < NDIRECT then
    if ip.addrs bn = 0 then do
      let (addr, k) ← balloc k
      .ok (addr, { ip with addrs := update ip.addrs bn addr }, k)
    else .ok (ip.addrs bn, ip, k)
  else if bn - NDIRECT < NINDIRECT then do
    let (addr, ip, k) ← if ip.addrs NDIRECT = 0 then do
        let (addr, k) ← balloc k
        .ok (addr, { ip with addrs := update ip.addrs NDIRECT addr }, k)
      else .ok (ip.addrs NDIRECT, ip, k)
    if indirectWord (k.block addr) (bn - NDIRECT) = 0 then do
      let (data, k) ← balloc k
      .ok (data, ip, k.write addr (overlay (k.block addr) (4 * (bn - NDIRECT)) 4 (leByte data)))
    else .ok (indirectWord (k.block addr) (bn - NDIRECT), ip, k)
  else .error .bmap

/-- The body of the first loop of `itrunc`. -/
def itruncDirect (r : Dinode × Disk) (i : Nat) : Except Panic (Dinode × Disk) :=
  if r.1.addrs i = 0 then .ok r
  else do
    let k ← bfree r.2 (r.1.addrs i)
    .ok ({ r.1 with addrs := update r.1.addrs i 0 }, k)

/-- The body of the second loop of `itrunc`. -/
def itruncWord (addr : Nat) (k : Disk) (j : Nat) : Except Panic Disk :=
  if indirectWord (k.block addr) j = 0 then .ok k else bfree k (indirectWord (k.block addr) j)

def itrunc (k : Disk) (inum : Nat) (ip : Dinode) : Except Panic (Dinode × Disk) := do
  let (ip, k) ← (List.range NDIRECT).foldlM itruncDirect (ip, k)
  let (ip, k) ← if ip.addrs NDIRECT = 0 then .ok (ip, k) else do
    let k ← (List.range NINDIRECT).foldlM (itruncWord (ip.addrs NDIRECT)) k
    let k ← bfree k (ip.addrs NDIRECT)
    .ok ({ ip with addrs := update ip.addrs NDIRECT 0 }, k)
  let ip := { ip with size := 0 }
  .ok (ip, iupdate k inum ip)

/-- `m`: how much of `n` bytes at `off` is in one block. -/
def inBlock (off n : Nat) : Nat := min n (BSIZE - off % BSIZE)

theorem inBlock_pos (off : Nat) {n : Nat} (hn : n ≠ 0) : 0 < inBlock off n := by
  unfold inBlock BSIZE
  omega

theorem inBlock_le (off n : Nat) : inBlock off n ≤ n := Nat.min_le_left _ _

theorem inBlock_split {off : Nat} {src : List UInt8} (hne : src ≠ [])
    (hsize : off + src.length ≤ MAXFILE * BSIZE) :
    0 < src.length ∧ 0 < inBlock off src.length ∧ inBlock off src.length ≤ src.length ∧
      off / BSIZE < MAXFILE ∧
      (src.take (inBlock off src.length)).length = inBlock off src.length ∧
      (src.drop (inBlock off src.length)).length = src.length - inBlock off src.length := by
  have hlength := List.length_pos_iff.mpr hne
  have hle := inBlock_le off src.length
  refine ⟨hlength, inBlock_pos off (Nat.ne_of_gt hlength), hle, ?_, ?_, List.length_drop⟩
  · unfold BSIZE at *
    omega
  · rw [List.length_take, Nat.min_eq_left hle]

/-- The loop of `readi`, with the number of bytes that are left. -/
def readiLoop (k : Disk) (ip : Dinode) (off n : Nat) : Except Panic (List UInt8 × Dinode × Disk) :=
  if n = 0 then .ok ([], ip, k)
  else do
    let (addr, ip, k) ← bmap k ip (off / BSIZE)
    let m := inBlock off n
    let bytes := (List.range m).map fun i => k.block addr (off % BSIZE + i)
    let (rest, ip, k) ← readiLoop k ip (off + m) (n - m)
    .ok (bytes ++ rest, ip, k)
termination_by n
decreasing_by
  have hpos := inBlock_pos off (by assumption)
  omega

def readi (devsw : Devsw) (k : Disk) (ip : Dinode) (off n : Nat) :
    Except Panic (Int × List UInt8 × Dinode × Disk) :=
  if ip.type = T_DEV then
    if ip.major < 0 ∨ NDEV ≤ ip.major then .ok (-1, [], ip, k)
    else match devsw.read ip.major with
      | none => .ok (-1, [], ip, k)
      | some read => .ok ((read n).1, (read n).2, ip, k)
  else if ip.size < off ∨ (off + n) % 4294967296 < off then .ok (-1, [], ip, k)
  else do
    let n := if ip.size < off + n then ip.size - off else n
    let (bytes, ip, k) ← readiLoop k ip off n
    .ok (n, bytes, ip, k)

/-- The loop of `writei`, with the bytes of `src` that are left. -/
def writeiLoop (k : Disk) (ip : Dinode) (off : Nat) (src : List UInt8) :
    Except Panic (Dinode × Disk) :=
  if src = [] then .ok (ip, k)
  else do
    let (addr, ip, k) ← bmap k ip (off / BSIZE)
    let m := inBlock off src.length
    let k := k.write addr (store (k.block addr) (off % BSIZE) (src.take m))
    writeiLoop k ip (off + m) (src.drop m)
termination_by src.length
decreasing_by
  have hlen := List.length_pos_iff.mpr (by assumption)
  have hpos := inBlock_pos off (n := src.length) (by omega)
  rw [List.length_drop]
  omega

/-- `writei` for inode `inum`; `n` is the length of `src`. -/
def writei (devsw : Devsw) (k : Disk) (inum : Nat) (ip : Dinode) (off : Nat) (src : List UInt8) :
    Except Panic (Int × Dinode × Disk) :=
  if ip.type = T_DEV then
    if ip.major < 0 ∨ NDEV ≤ ip.major then .ok (-1, ip, k)
    else match devsw.write ip.major with
      | none => .ok (-1, ip, k)
      | some write => .ok (write src, ip, k)
  else if ip.size < off ∨ (off + src.length) % 4294967296 < off then .ok (-1, ip, k)
  else if MAXFILE * BSIZE < off + src.length then .ok (-1, ip, k)
  else do
    let (ip, k) ← writeiLoop k ip off src
    if 0 < src.length ∧ ip.size < off + src.length then
      let ip := { ip with size := off + src.length }
      .ok (src.length, ip, iupdate k inum ip)
    else .ok (src.length, ip, k)

end Xv6.Fs

import Xv6.Fs.Format

/-!
`mkfs`, which builds the first file system image from a list of files. The image
is a file of sectors. The program stops with status 1 when a sector cannot be
read, and aborts when an assertion fails.
-/

namespace Xv6.Mkfs

open Lib Fs

/-- How the program stops when the status is not 0. -/
inductive Exit where
  | one
  | abort
deriving DecidableEq

def NINODES : Nat := 200

def nbitmap : Nat := FSSIZE / (BSIZE * 8) + 1
def ninodeblocks : Nat := NINODES / IPB + 1
def nlog : Nat := LOGSIZE
/-- Number of meta blocks (boot, sb, nlog, inode, bitmap). -/
def nmeta : Nat := 2 + nlog + ninodeblocks + nbitmap
def nblocks : Nat := FSSIZE - nmeta

def sb : Superblock where
  size := FSSIZE
  nblocks := nblocks
  ninodes := NINODES
  nlog := nlog
  logstart := 2
  inodestart := 2 + nlog
  bmapstart := 2 + nlog + ninodeblocks

/-- The image file: its sectors, and how many there are. -/
structure Image where
  sect : Nat → Bytes
  len : Nat

structure State where
  img : Image
  freeinode : Nat
  freeblock : Nat

def zeroes : Bytes := fun _ => 0

/-- The sector that `lseek(fsfd, sec * BSIZE, 0)` goes to. -/
def seek (sec : Nat) : Nat := sec * BSIZE % 4294967296 / BSIZE

def wsect (img : Image) (sec : Nat) (buf : Bytes) : Image where
  sect := Function.update img.sect (seek sec) buf
  len := max img.len (seek sec + 1)

def rsect (img : Image) (sec : Nat) : Except Exit Bytes :=
  if seek sec < img.len then .ok (img.sect (seek sec)) else .error .one

def winode (img : Image) (inum : Nat) (ip : Dinode) : Except Exit Image := do
  let bn := IBLOCK inum sb
  let buf ← rsect img bn
  .ok (wsect img bn (overlay buf (Dinode.slot inum) DINODESIZE ip.byte))

def rinode (img : Image) (inum : Nat) : Except Exit Dinode := do
  let buf ← rsect img (IBLOCK inum sb)
  .ok (Dinode.read buf (Dinode.slot inum))

def ialloc (s : State) (type : Int) : Except Exit (Nat × State) := do
  let inum := s.freeinode
  let img ← winode s.img inum ⟨type, 0, 0, 1, 0, fun _ => 0⟩
  .ok (inum, { s with img := img, freeinode := s.freeinode + 1 })

def balloc (img : Image) (used : Nat) : Except Exit Image :=
  if used < BSIZE * 8 then .ok (wsect img sb.bmapstart ((List.range used).foldl setBit zeroes))
  else .error .abort

/-- The block `x` for index `fbn` of a file, taken from the free blocks if there is none. -/
def iappendBlock (s : State) (din : Dinode) (fbn : Nat) : Except Exit (Nat × Dinode × State) :=
  if fbn < NDIRECT then
    if din.addrs fbn = 0 then
      .ok (s.freeblock, { din with addrs := Function.update din.addrs fbn s.freeblock },
        { s with freeblock := s.freeblock + 1 })
    else .ok (din.addrs fbn, din, s)
  else do
    let (din, s) := if din.addrs NDIRECT = 0 then
        ({ din with addrs := Function.update din.addrs NDIRECT s.freeblock },
          { s with freeblock := s.freeblock + 1 })
      else (din, s)
    let indirect ← rsect s.img (din.addrs NDIRECT)
    if indirectWord indirect (fbn - NDIRECT) = 0 then
      let img := wsect s.img (din.addrs NDIRECT)
        (overlay indirect (4 * (fbn - NDIRECT)) 4 (leByte s.freeblock))
      .ok (s.freeblock, din, { s with img := img, freeblock := s.freeblock + 1 })
    else .ok (indirectWord indirect (fbn - NDIRECT), din, s)

/-- `n1`: how much of `p` goes to the block at `off`. -/
def chunk (off : Nat) (p : List UInt8) : Nat := min p.length ((off / BSIZE + 1) * BSIZE - off)

/-- The body of the loop of `iappend`. -/
def iappendStep (s : State) (din : Dinode) (off : Nat) (p : List UInt8) :
    Except Exit (Dinode × State) := do
  let fbn := off / BSIZE
  if MAXFILE ≤ fbn then .error .abort
  let (x, din, s) ← iappendBlock s din fbn
  let buf ← rsect s.img x
  let img := wsect s.img x (overlay buf (off - fbn * BSIZE) (chunk off p) fun i => p.getD i 0)
  .ok (din, { s with img := img })

theorem chunk_pos (off : Nat) {p : List UInt8} (hp : p ≠ []) : 0 < chunk off p := by
  have hlen := List.length_pos_iff.mpr hp
  unfold chunk BSIZE
  omega

/-- The loop of `iappend`, with the bytes that are left. -/
def iappendLoop (s : State) (din : Dinode) (off : Nat) (p : List UInt8) :
    Except Exit (Dinode × Nat × State) :=
  if p = [] then .ok (din, off, s)
  else do
    let (din, s) ← iappendStep s din off p
    iappendLoop s din (off + chunk off p) (p.drop (chunk off p))
termination_by p.length
decreasing_by
  have hpos := chunk_pos off (by assumption)
  have hlen := List.length_pos_iff.mpr (by assumption)
  rw [List.length_drop]
  omega

def iappend (s : State) (inum : Nat) (p : List UInt8) : Except Exit State := do
  let din ← rinode s.img inum
  let (din, off, s) ← iappendLoop s din din.size p
  let img ← winode s.img inum { din with size := off }
  .ok { s with img := img }

/-- An input file: its path on the command line, and its bytes. -/
structure Input where
  path : List UInt8
  contents : List UInt8

def slash : UInt8 := 47
def dot : List UInt8 := [46]
def dotdot : List UInt8 := [46, 46]

/-- `basename` of POSIX. -/
def basename (path : List UInt8) : List UInt8 :=
  let rest := path.reverse.dropWhile (· == slash)
  if path = [] then dot
  else if rest = [] then [slash]
  else (rest.takeWhile (· != slash)).reverse

/-- `while((cc = read(fd, buf, sizeof(buf))) > 0) iappend(inum, buf, cc);` -/
def copyFile (s : State) (inum : Nat) (rest : List UInt8) : Except Exit State :=
  if rest = [] then .ok s
  else do
    let s ← iappend s inum (rest.take BSIZE)
    copyFile s inum (rest.drop BSIZE)
termination_by rest.length
decreasing_by
  have hlen := List.length_pos_iff.mpr (by assumption)
  rw [List.length_drop]
  unfold BSIZE
  omega

/-- The body of the loop over the files. -/
def addFile (rootino : Nat) (s : State) (file : Input) : Except Exit State := do
  let (inum, s) ← ialloc s T_FILE
  let s ← iappend s rootino (direntBytes inum (basename file.path))
  copyFile s inum file.contents

def format : Image :=
  let img := (List.range FSSIZE).foldl (fun img i => wsect img i zeroes) ⟨fun _ => zeroes, 0⟩
  wsect img 1 (overlay zeroes 0 SUPERSIZE sb.byte)

/-- The image when the status is 0. -/
def mkfs (files : List Input) : Except Exit Image := do
  let (rootino, s) ← ialloc ⟨format, 1, nmeta⟩ T_DIR
  if rootino ≠ ROOTINO then .error .abort
  let s ← iappend s rootino (direntBytes rootino dot)
  let s ← iappend s rootino (direntBytes rootino dotdot)
  let s ← files.foldlM (addFile rootino) s
  -- fix size of root inode dir
  let din ← rinode s.img rootino
  let img ← winode s.img rootino { din with size := (din.size / BSIZE + 1) * BSIZE % 4294967296 }
  balloc img s.freeblock

end Xv6.Mkfs

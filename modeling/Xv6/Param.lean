import Mathlib.Init

/-!
The constants of `param.h` and `fs.h` that the modelled code reads.
-/

namespace Xv6

def NPROC : Nat := 64
def NOFILE : Nat := 16
def NFILE : Nat := 100
def MAXARG : Nat := 32
/-- Maximum number of blocks any file system operation writes. -/
def MAXOPBLOCKS : Nat := 10
/-- Maximum number of data blocks in the on-disk log. -/
def LOGSIZE : Nat := MAXOPBLOCKS * 3

def NBUF : Nat := MAXOPBLOCKS * 3

def ROOTINO : Nat := 1
def BSIZE : Nat := 512
def NDIRECT : Nat := 12
def NINDIRECT : Nat := BSIZE / 4
def MAXFILE : Nat := NDIRECT + NINDIRECT
def FSSIZE : Nat := 1000
/-- Maximum length of a name in a directory. -/
def DIRSIZ : Nat := 14

theorem NPROC_pos : 0 < NPROC := by decide

end Xv6

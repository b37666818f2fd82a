import Xv6.Lib.LockSet
import Xv6.Vm.Mmu

/-!
Locks and user memory. A heap page is mapped when it is first touched, also
where the kernel touches it on behalf of a system call, so every access to a
user buffer may be a call of the page fault handler. The handler takes
`kmem.lock` in `kalloc` and `cons.lock` in `cprintf`, which it calls also when
all went well.

Each function is given by its lock operations and its accesses to user memory,
in the order of the source. What depends on data (how often a thread sleeps,
whether a block is cached, when a line of input ends) is left open. Addresses
in the code are below the size of the caller, by the checks of `syscall.c`.
-/

namespace Xv6.Syscall

open Lib
open Vm (PGSIZE)

/-- The spin locks. A sleep lock has one inside. -/
inductive Lock where
  | cons
  | kmem
  | ptable
  | ftable
  | icache
  | bcache
  | log
  | ide
  | pipe (p : Nat)
  | inode (i : Nat)
  | buf (b : Nat)
  deriving DecidableEq

/-- Code over these locks and the pages of the caller. -/
abbrev Code := Cmd Lock Nat

def byte (addr : Nat) : Code := .access (addr / PGSIZE)

def bytes (addr n : Nat) : Code := .block ((List.range n).map fun i => byte (addr + i))

def kalloc : Code := .crit .kmem

def kfree : Code := .crit .kmem

def cprintf : Code := .crit .cons

/-- The `T_PGFLT` case of `trap` for an address below `sz`: the guard page, no
page, no page for the page table, or the page is mapped. -/
def pageFault (page : Nat) : Code :=
  .alt .skip (.block [kalloc, .alt cprintf (.alt (.block [kalloc, cprintf, kfree])
    (.block [.alt .skip kalloc, .map page, cprintf]))])

def wakeup : Code := .crit .ptable

/-- `sleep(chan, lk)` for a lock other than `ptable.lock`. -/
def sleep (lk : Lock) : Code :=
  .block [.acquire .ptable, .release lk, .sched .ptable, .release .ptable, .acquire lk]

def acquiresleep (lk : Lock) : Code := .block [.acquire lk, .loop (sleep lk), .release lk]

def releasesleep (lk : Lock) : Code := .block [.acquire lk, wakeup, .release lk]

def holdingsleep (lk : Lock) : Code := .crit lk

def iderw (b : Nat) : Code :=
  .block [holdingsleep (.buf b), .acquire .ide, .loop (sleep .ide), .release .ide]

def bget (b : Nat) : Code := .block [.crit .bcache, acquiresleep (.buf b)]

def bread (b : Nat) : Code := .block [bget b, .alt .skip (iderw b)]

def bwrite (b : Nat) : Code := .block [holdingsleep (.buf b), iderw b]

def brelse (b : Nat) : Code :=
  .block [holdingsleep (.buf b), releasesleep (.buf b), .crit .bcache]

def logWrite : Code := .crit .log

/-- A block is copied to another one: the loops of `write_log` and
`install_trans`. -/
def copyBlocks : Code :=
  .loop (.any fun b => .any fun c => .block [bread b, bread c, bwrite b, brelse b, brelse c])

def writeHead : Code := .any fun b => .block [bread b, bwrite b, brelse b]

def commit : Code := .alt .skip (.block [copyBlocks, writeHead, copyBlocks, writeHead])

def beginOp : Code := .block [.acquire .log, .loop (sleep .log), .release .log]

def endOp : Code :=
  .block [.acquire .log, .alt .skip wakeup, .release .log,
    .alt .skip (.block [commit, .acquire .log, wakeup, .release .log])]

def readBlock : Code := .any fun b => .block [bread b, brelse b]

/-- A block is changed: `bzero`, `iupdate`, the bitmap in `balloc`. -/
def updateBlock : Code := .any fun b => .block [bread b, logWrite, brelse b]

def balloc : Code := .block [.loop readBlock, updateBlock, updateBlock]

def bfree : Code := .block [readBlock, updateBlock]

/-- `bmap`: a direct block, or one behind the indirect block. -/
def bmap : Code :=
  .alt (.alt .skip balloc) (.block [.alt .skip balloc,
    .any fun b => .block [bread b, .alt .skip (.block [balloc, logWrite]), brelse b]])

def itrunc : Code :=
  .block [.loop bfree, .alt .skip (.block [.any fun b => .block [bread b, .loop bfree, brelse b],
    bfree]), updateBlock]

def ilock (i : Nat) : Code := .block [acquiresleep (.inode i), .alt .skip readBlock]

def iunlock (i : Nat) : Code := .block [holdingsleep (.inode i), releasesleep (.inode i)]

def iput (i : Nat) : Code :=
  .block [acquiresleep (.inode i),
    .alt .skip (.block [.crit .icache, .alt .skip (.block [itrunc, updateBlock])]),
    releasesleep (.inode i), .crit .icache]

def iunlockput (i : Nat) : Code := .block [iunlock i, iput i]

/-- `consoleread` in its loop. Both ways out, a killed reader and `^D`, and the
end of a line come to the same locks. -/
def consolereadLoop (i : Nat) (dst : Nat) : Nat → Code
  | 0 => .block [.release .cons, ilock i]
  | n + 1 => .block [.loop (sleep .cons), .alt (.block [.release .cons, ilock i])
      (.block [byte dst, .alt (.block [.release .cons, ilock i]) (consolereadLoop i (dst + 1) n)])]

def consoleread (i dst n : Nat) : Code :=
  .block [iunlock i, .acquire .cons, consolereadLoop i dst n]

def consolewrite (i buf n : Nat) : Code :=
  .block [iunlock i, .acquire .cons, bytes buf n, .release .cons, ilock i]

/-- The part of a block from `off` on, at most `n` bytes. -/
def chunk (off n : Nat) : Nat := min n (BSIZE - off % BSIZE)

theorem chunk_pos {off n : Nat} (hn : ¬ n = 0) : 0 < chunk off n := by
  unfold chunk BSIZE
  omega

def readiLoop (dst off n : Nat) : Code :=
  if n = 0 then .skip
  else .block [bmap, .any fun b => .block [bread b, bytes dst (chunk off n), brelse b],
    readiLoop (dst + chunk off n) (off + chunk off n) (n - chunk off n)]
  termination_by n
  decreasing_by
    have hpos := @chunk_pos off n ‹_›
    omega

def readi (dst off n : Nat) : Code :=
  .any fun size => if off > size then .skip else readiLoop dst off (min n (size - off))

def writeiLoop (src off n : Nat) : Code :=
  if n = 0 then .skip
  else .block [bmap, .any fun b => .block [bread b, bytes src (chunk off n), logWrite, brelse b],
    writeiLoop (src + chunk off n) (off + chunk off n) (n - chunk off n)]
  termination_by n
  decreasing_by
    have hpos := @chunk_pos off n ‹_›
    omega

def writei (src off n : Nat) : Code :=
  .alt .skip (.block [writeiLoop src off n, .alt .skip updateBlock])

def pipewriteLoop (p addr : Nat) : Nat → Code
  | 0 => .block [wakeup, .release (.pipe p)]
  | n + 1 => .block [.loop (.block [wakeup, sleep (.pipe p)]), .alt (.release (.pipe p))
      (.block [byte addr, pipewriteLoop p (addr + 1) n])]

def pipewrite (p addr n : Nat) : Code := .block [.acquire (.pipe p), pipewriteLoop p addr n]

def piperead (p addr n : Nat) : Code :=
  .block [.acquire (.pipe p), .loop (sleep (.pipe p)), .alt (.release (.pipe p))
    (.block [.any fun k => bytes addr (min k n), wakeup, .release (.pipe p)])]

inductive Target where
  | pipe (p : Nat)
  | file (i off : Nat)
  | console (i : Nat)

def fileread (addr n : Nat) : Target → Code
  | .pipe p => piperead p addr n
  | .file i off => .block [ilock i, readi addr off n, iunlock i]
  | .console i => .block [ilock i, consoleread i addr n, iunlock i]

/-- `filewrite` writes at most this much at a time. -/
def writeMax : Nat := (MAXOPBLOCKS - 1 - 1 - 2) / 2 * BSIZE

/-- The loop of `filewrite` over pieces of the buffer. -/
def filewriteLoop (i : Nat) (piece : Nat → Nat → Code) (addr n : Nat) : Code :=
  if n = 0 then .skip
  else .block [beginOp, ilock i, piece addr (min n writeMax), iunlock i, endOp,
    .alt .skip (filewriteLoop i piece (addr + min n writeMax) (n - min n writeMax))]
  termination_by n
  decreasing_by
    simp only [writeMax, MAXOPBLOCKS, BSIZE]
    omega

def filewrite (addr n : Nat) : Target → Code
  | .pipe p => pipewrite p addr n
  | .file i off => filewriteLoop i (fun a m => writei a (off + (a - addr)) m) addr n
  | .console i => filewriteLoop i (consolewrite i) addr n

def pipeclose (p : Nat) : Code :=
  .block [.acquire (.pipe p), wakeup, .release (.pipe p), .alt .skip kfree]

def fileclose : Code :=
  .block [.crit .ftable, .alt .skip (.alt (.any pipeclose)
    (.any fun i => .block [beginOp, iput i, endOp]))]

/-- `pipealloc`, and the closing of what it has where it fails or `fdalloc`
does. -/
def sysPipe (fd : Nat) : Code :=
  .block [.crit .ftable, .crit .ftable, kalloc,
    .alt (.block [.alt .skip kfree, fileclose, fileclose]) (.block [bytes fd 4, bytes (fd + 4) 4])]

/-- `wait`: the status is stored with `ptable.lock` held. -/
def wait (status : Nat) : Code :=
  .block [.acquire .ptable, .loop (.sched .ptable), .alt (.release .ptable)
    (.block [bytes status 4, kfree, .loop kfree, .release .ptable])]

/-- The fields of `struct stat` in the order of `stati`. -/
def stati (st : Nat) : Code :=
  .block [bytes (st + 4) 4, bytes (st + 8) 4, bytes st 2, bytes (st + 12) 2, bytes (st + 16) 4]

def filestat (st : Nat) : Target → Code
  | .pipe _ => .skip
  | .file i _ => .block [ilock i, stati st, iunlock i]
  | .console i => .block [ilock i, stati st, iunlock i]

def cmostime (r : Nat) : Code := .block [bytes r 24, bytes (r + 20) 4]

def pathByte (path : Nat) : Code := .any fun j => byte (path + j)

/-- The blocks that `dirlookup`, `exec` and `loaduvm` read into the kernel's own
memory. -/
def readKernel : Code := .loop (.block [bmap, readBlock])

def namei (path : Nat) : Code :=
  .block [pathByte path, .crit .icache, .loop (.any fun i => .block [.loop (pathByte path), ilock i,
    .alt (iunlockput i) (.block [pathByte path, readKernel, .alt .skip (.crit .icache),
      iunlockput i])]), .loop (pathByte path)]

/-- `sys_exec` and `exec`: the strings of `argv` lie anywhere in user memory. -/
def sysExec (path uargv : Nat) : Code :=
  .block [.any fun n => bytes path n, .any fun argc => .block ((List.range argc).map fun i =>
      .block [bytes (uargv + 4 * i) 4, .any fun uarg => .any fun n => bytes uarg n]),
    beginOp, namei path, .alt (.block [endOp, cprintf])
      (.any fun i => .block [ilock i, .loop (.block [readKernel, .loop kalloc, .loop kfree]),
        iunlockput i, endOp, .loop kalloc,
        .loop (.any fun arg => .any fun n => .block [bytes arg n, .loop kalloc]),
        .loop (pathByte path), .loop kfree])]

/-- The system calls that read or write a user buffer, behind the fetching of
their arguments, and that fetching. -/
inductive Call where
  | fetch (addr n : Nat)
  | read (f : Target) (addr n : Nat)
  | write (f : Target) (addr n : Nat)
  | pipe (fd : Nat)
  | wait (status : Nat)
  | fstat (f : Target) (st : Nat)
  | date (r : Nat)
  | exec (path uargv : Nat)

def Call.code : Call → Code
  | .fetch addr n => bytes addr n
  | .read f addr n => fileread addr n f
  | .write f addr n => filewrite addr n f
  | .pipe fd => sysPipe fd
  | .wait status => Syscall.wait status
  | .fstat f st => filestat st f
  | .date r => cmostime r
  | .exec path uargv => sysExec path uargv

end Xv6.Syscall

import Xv6.Vm.PageDir

/-!
`exec.c`: the loader for ELF files and the initial user stack. The file is
given by its bytes, the arguments by theirs; `readi` is the one of `fs.c` for
a file or a directory. `exec` is split where the source has released the
inode: `execLoad` reads the program, `execStack` builds the stack.
-/

namespace Xv6.Vm

/-- `readi`: `none` for -1. -/
def readi (ip : List UInt8) (off n : Nat) : Option (List UInt8) :=
  if off > ip.length ∨ u32 (off + n) < off then none
  else some ((ip.drop off).take n)

/-- The little-endian unsigned value of a field. -/
def leValue : List UInt8 → Nat
  | [] => 0
  | b :: bs => b.toNat + 256 * leValue bs

def field (bytes : List UInt8) (off n : Nat) : Nat := leValue ((bytes.drop off).take n)

def ELF_MAGIC : Nat := 0x464C457F
def ELF_PROG_LOAD : Nat := 1

/-- `sizeof(struct elfhdr)` -/
def elfhdrSize : Nat := 52
/-- `sizeof(struct proghdr)` -/
def proghdrSize : Nat := 32

structure ElfHdr where
  magic : Nat
  entry : Nat
  phoff : Nat
  phnum : Nat
  deriving DecidableEq, Repr

structure ProgHdr where
  type : Nat
  off : Nat
  vaddr : Nat
  filesz : Nat
  memsz : Nat
  deriving DecidableEq, Repr

def decodeElfHdr (b : List UInt8) : ElfHdr :=
  { magic := field b 0 4, entry := field b 24 4, phoff := field b 28 4, phnum := field b 44 2 }

def decodeProgHdr (b : List UInt8) : ProgHdr :=
  { type := field b 0 4, off := field b 4 4, vaddr := field b 8 4
    filesz := field b 16 4, memsz := field b 20 4 }

/-- `readi(ip, &x, off, n) != n` fails; otherwise the `n` bytes. -/
def readExact (ip : List UInt8) (off n : Nat) : Option (List UInt8) :=
  (readi ip off n).filter fun b => b.length = n

/-- The loop of `loaduvm` at offset `i`, with `n` pages left. -/
def loadLoop (ip : List UInt8) (d : PageDir) (addr offset sz : Nat) :
    Nat → Kmem → Nat → Except Halt (Bool × Kmem)
  | 0, k, _ => .ok (true, k)
  | m + 1, k, i =>
    match walkpgdir k d (u32 (addr + i)) false with
    | none => .error .loaduvmMissing
    | some (pte, _, _) =>
      let pa := (pte.map Pte.addr).getD 0
      let n := if sz - i < PGSIZE then sz - i else PGSIZE
      match readi ip (u32 (offset + i)) n with
      | none => .ok (false, k)
      | some b =>
        let k := k.write pa 0 b
        if b.length = n then loadLoop ip d addr offset sz m k (i + PGSIZE) else .ok (false, k)

def loaduvm (k : Kmem) (d : PageDir) (addr : Nat) (ip : List UInt8) (offset sz : Nat) :
    Except Halt (Bool × Kmem) :=
  if addr % PGSIZE ≠ 0 then .error .loaduvmAlign
  else loadLoop ip d addr offset sz (pagesBetween 0 sz) k 0

/-- The loading loop of `exec` over `n` program headers; `none` is `goto bad`. -/
def segmentLoop (L : Layout) (ip : List UInt8) :
    Nat → Nat → Kmem → PageDir → Nat → Except Halt (Option Nat × PageDir × Kmem)
  | 0, _, k, d, sz => .ok (some sz, d, k)
  | n + 1, off, k, d, sz =>
    match readExact ip off proghdrSize with
    | none => .ok (none, d, k)
    | some b =>
      let ph := decodeProgHdr b
      if ph.type ≠ ELF_PROG_LOAD ∨ ph.memsz = 0 then
        segmentLoop L ip n (u32 (off + proghdrSize)) k d sz
      else if ph.memsz < ph.filesz then .ok (none, d, k)
      else if u32 (ph.vaddr + ph.memsz) < ph.vaddr then .ok (none, d, k)
      else do
        let (sz, d, k) ← allocuvm L k d sz (u32 (ph.vaddr + ph.memsz))
        if sz = 0 then return (none, d, k)
        else if ph.vaddr % PGSIZE ≠ 0 then return (none, d, k)
        else
          let (loaded, k) ← loaduvm k d ph.vaddr ip ph.off ph.filesz
          if loaded then segmentLoop L ip n (u32 (off + proghdrSize)) k d sz
          else return (none, d, k)

/-- What `exec` has read when it releases the inode. -/
structure Loaded where
  entry : Nat
  pgdir : PageDir
  sz : Nat

/-- `exec` up to `iunlockput(ip)`; `none` after a failure, with everything
freed. -/
def execLoad (L : Layout) (k : Kmem) (ip : List UInt8) : Except Halt (Option Loaded × Kmem) :=
  match readExact ip 0 elfhdrSize with
  | none => .ok (none, k)
  | some b =>
    let elf := decodeElfHdr b
    if elf.magic ≠ ELF_MAGIC then .ok (none, k)
    else do
      let (pgdir, k) ← setupkvm L k
      match pgdir with
      | none => return (none, k)
      | some pgdir =>
        let (sz, pgdir, k) ← segmentLoop L ip elf.phnum elf.phoff k pgdir 0
        match sz with
        | none =>
          let k ← freevm L k pgdir true
          return (none, k)
        | some sz => return (some ⟨elf.entry, pgdir, sz⟩, k)

def leBytes (n : Nat) : List UInt8 :=
  [UInt8.ofNat n, UInt8.ofNat (n / 2 ^ 8), UInt8.ofNat (n / 2 ^ 16), UInt8.ofNat (n / 2 ^ 24)]

/-- The loop that pushes the argument strings, `argc` of them done with their
addresses in `ustack`; `none` is `goto bad`. -/
def pushArgs (d : PageDir) :
    List (List UInt8) → List Nat → Kmem → Nat → Except Halt (Option (List Nat × Nat) × Kmem)
  | [], ustack, k, sp => .ok (some (ustack, sp), k)
  | arg :: rest, ustack, k, sp =>
    if ustack.length ≥ MAXARG then .ok (none, k)
    else do
      let sp := sub32 sp (arg.length + 1) / 4 * 4
      let (copied, k) ← copyout k d sp (arg ++ [0])
      if copied then pushArgs d rest (ustack ++ [sp]) k sp else return (none, k)

/-- The words of the initial stack: return address, `argc`, `argv`, the
argument pointers and the final null pointer. -/
def stackWords (args : List Nat) (sp : Nat) : List Nat :=
  [0xffffffff, args.length, sub32 sp ((args.length + 1) * 4)] ++ args ++ [0]

/-- `exec` behind the loading of the program: the stack pages, the guard page
and the arguments. Returns the directory, `sz` and `sp`, `none` for `bad`. -/
def execStack (L : Layout) (k : Kmem) (pgdir : PageDir) (sz : Nat) (argv : List (List UInt8)) :
    Except Halt (Option (PageDir × Nat × Nat) × Kmem) := do
  let (sz, pgdir, k) ← allocuvm L k pgdir sz (u32 (sz + 2 * PGSIZE))
  if sz = 0 then
    let k ← freevm L k pgdir true
    return (none, k)
  else
    let pgdir ← clearpteu pgdir (sub32 sz (2 * PGSIZE))
    let (pushed, k) ← pushArgs pgdir argv [] k sz
    match pushed with
    | none =>
      let k ← freevm L k pgdir true
      return (none, k)
    | some (args, sp) =>
      let words := stackWords args sp
      let sp := sub32 sp (words.length * 4)
      let (copied, k) ← copyout k pgdir sp (words.flatMap leBytes)
      if copied then return (some (pgdir, sz, sp), k)
      else
        let k ← freevm L k pgdir true
        return (none, k)

end Xv6.Vm

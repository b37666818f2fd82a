import Xv6.Vm.Kalloc

/-!
Page directories and the functions of `vm.c` on them. A directory is a tree:
its entries point to page tables, whose entries point to pages. The physical
page behind each directory and table is kept, since `kalloc` and `kfree` hand
these pages around. An absent entry is one without `PTE_P`.

The functions thread the allocator through and stop with a `Halt` where the
kernel panics.
-/

namespace Xv6.Vm

/-- A page table entry with `PTE_P` set. -/
structure Pte where
  addr : Nat
  w : Bool
  u : Bool
  deriving DecidableEq, Repr

structure PageTable where
  frame : Nat
  pte : Nat → Option Pte

structure PageDir where
  frame : Nat
  pde : Nat → Option PageTable

namespace PageDir

/-- `memset(pgdir, 0, PGSIZE)`. -/
def empty (frame : Nat) : PageDir := ⟨frame, fun _ => none⟩

def setPde (d : PageDir) (i : Nat) (t : PageTable) : PageDir :=
  { d with pde := Function.update d.pde i (some t) }

/-- `*pte = e` for the entry of `va` in an existing table. -/
def setPte (d : PageDir) (va : Nat) (e : Option Pte) : PageDir :=
  match d.pde (PDX va) with
  | some t => d.setPde (PDX va) { t with pte := Function.update t.pte (PTX va) e }
  | none => d

/-- The entry of the page of `va`, where the processor finds one. -/
def entry (d : PageDir) (va : Nat) : Option Pte :=
  (d.pde (PDX va)).bind fun t => t.pte (PTX va)

end PageDir

/-- The entry of `va`, with the table it lies in allocated on demand; `none`
is the null pointer. -/
def walkpgdir (k : Kmem) (d : PageDir) (va : Nat) (alloc : Bool) :
    Option (Option Pte × PageDir × Kmem) :=
  match d.pde (PDX va) with
  | some pgtab => some (pgtab.pte (PTX va), d, k)
  | none =>
    if alloc then
      match kalloc k with
      | none => none
      | some (pgtab, k) => some (none, d.setPde (PDX va) ⟨pgtab, fun _ => none⟩, k.zero pgtab)
    else none

/-- The loop of `mappages` with `n` pages behind the page at `a`. -/
def mappagesLoop (w u : Bool) (n : Nat) (k : Kmem) (d : PageDir) (a pa : Nat) :
    Except Halt (Bool × PageDir × Kmem) :=
  match walkpgdir k d a true with
  | none => .ok (false, d, k)
  | some (some _, _, _) => .error .remap
  | some (none, d, k) =>
    let d := d.setPte a (some ⟨pa, w, u⟩)
    match n with
    | 0 => .ok (true, d, k)
    | n + 1 => mappagesLoop w u n k d (u32 (a + PGSIZE)) (u32 (pa + PGSIZE))

def mappages (k : Kmem) (d : PageDir) (va size pa : Nat) (w u : Bool) :
    Except Halt (Bool × PageDir × Kmem) :=
  let a := PGROUNDDOWN va
  let last := PGROUNDDOWN (sub32 (u32 (va + size)) 1)
  mappagesLoop w u (sub32 last a / PGSIZE) k d a pa

/-- The loop of `deallocuvm` from `a`, with fuel for `n` iterations. -/
def deallocLoop (L : Layout) (oldsz : Nat) :
    Nat → Kmem → PageDir → Nat → Except Halt (PageDir × Kmem)
  | 0, k, d, a => if a < oldsz then .error .hang else .ok (d, k)
  | n + 1, k, d, a =>
    if a < oldsz then
      match walkpgdir k d a false with
      | none =>
        -- no table: go on with the first page of the next one
        let a := sub32 (PGADDR (PDX a + 1) 0 0) PGSIZE
        deallocLoop L oldsz n k d (u32 (a + PGSIZE))
      | some (none, _, _) => deallocLoop L oldsz n k d (u32 (a + PGSIZE))
      | some (some e, _, _) =>
        if e.addr = 0 then .error .kfree
        else do
          let k ← kfree L k e.addr
          deallocLoop L oldsz n k (d.setPte a none) (u32 (a + PGSIZE))
    else .ok (d, k)

def deallocuvm (L : Layout) (k : Kmem) (d : PageDir) (oldsz newsz : Nat) :
    Except Halt (Nat × PageDir × Kmem) :=
  if newsz ≥ oldsz then .ok (oldsz, d, k)
  else do
    let a := PGROUNDUP newsz
    let (d, k) ← deallocLoop L oldsz (pagesBetween a oldsz) k d a
    return (newsz, d, k)

/-- The loop of `allocuvm` with `n` iterations left, the next one at `a`. -/
def allocLoop (L : Layout) (oldsz newsz : Nat) :
    Nat → Kmem → PageDir → Nat → Except Halt (Nat × PageDir × Kmem)
  | 0, k, d, _ => .ok (newsz, d, k)
  | n + 1, k, d, a =>
    match kalloc k with
    | none => do
        let (_, d, k) ← deallocuvm L k d newsz oldsz
        return (0, d, k)
    | some (mem, k) => do
        let (mapped, d, k) ← mappages (k.zero mem) d a PGSIZE mem true true
        if mapped then allocLoop L oldsz newsz n k d (u32 (a + PGSIZE))
        else
          let (_, d, k) ← deallocuvm L k d newsz oldsz
          let k ← kfree L k mem
          return (0, d, k)

def allocuvm (L : Layout) (k : Kmem) (d : PageDir) (oldsz newsz : Nat) :
    Except Halt (Nat × PageDir × Kmem) :=
  if newsz ≥ KERNBASE then .ok (0, d, k)
  else if newsz < oldsz then .ok (oldsz, d, k)
  else
    let a := PGROUNDUP oldsz
    allocLoop L oldsz newsz (pagesBetween a newsz) k d a

/-- `freevm` behind `deallocuvm`: the page tables, then the directory. -/
def freeTables (L : Layout) (d : PageDir) (k : Kmem) : Except Halt Kmem := do
  let k ← (List.range NPDENTRIES).foldlM (fun k i =>
    match d.pde i with
    | some t => kfree L k t.frame
    | none => .ok k) k
  kfree L k d.frame

def freevm (L : Layout) (k : Kmem) (d : PageDir) (dodeallocuvm : Bool) : Except Halt Kmem := do
  if dodeallocuvm then
    let (_, d, k) ← deallocuvm L k d KERNBASE 0
    freeTables L d k
  else freeTables L d k

/-- An entry of the table `kmap`: virtual start, physical range, `PTE_W`. -/
structure Kmap where
  virt : Nat
  physStart : Nat
  physEnd : Nat
  w : Bool

def kmap (L : Layout) : List Kmap :=
  [⟨KERNBASE, 0, EXTMEM, true⟩, ⟨KERNLINK, KERNLINK - KERNBASE, L.data - KERNBASE, false⟩,
   ⟨L.data, L.data - KERNBASE, PHYSTOP, true⟩,
   ⟨DEVSPACE, DEVSPACE, 0, true⟩]

def setupLoop (L : Layout) : List Kmap → Kmem → PageDir → Except Halt (Option PageDir × Kmem)
  | [], k, d => .ok (some d, k)
  | m :: rest, k, d => do
      let (mapped, d, k) ← mappages k d m.virt (sub32 m.physEnd m.physStart) m.physStart m.w false
      if mapped then setupLoop L rest k d
      else
        let k ← freevm L k d false
        return (none, k)

def setupkvm (L : Layout) (k : Kmem) : Except Halt (Option PageDir × Kmem) :=
  match kalloc k with
  | none => .ok (none, k)
  | some (pgdir, k) => setupLoop L (kmap L) (k.zero pgdir) (PageDir.empty pgdir)

def inituvm (k : Kmem) (d : PageDir) (init : List UInt8) : Except Halt (PageDir × Kmem) :=
  if init.length ≥ PGSIZE then .error .inituvm
  else
    match kalloc k with
    | none => .error .nullPointer
    | some (mem, k) => do
        let (_, d, k) ← mappages (k.zero mem) d 0 PGSIZE mem true true
        return (d, k.write mem 0 init)

def clearpteu (d : PageDir) (uva : Nat) : Except Halt PageDir :=
  match d.pde (PDX uva) with
  | none => .error .clearpteu
  | some t => .ok (d.setPte uva ((t.pte (PTX uva)).map fun e => { e with u := false }))

/-- The loop of `copyuvm` from page `i`, with fuel for `n` iterations. -/
def copyLoop (L : Layout) (pgdir : PageDir) (sz : Nat) :
    Nat → Kmem → PageDir → Nat → Except Halt (Option PageDir × Kmem)
  | 0, k, d, i => if i < sz then .error .hang else .ok (some d, k)
  | n + 1, k, d, i =>
    if i < sz then
      match walkpgdir k pgdir i false with
      | none => copyLoop L pgdir sz n k d (u32 (i + PGSIZE))
      | some (none, _, _) => copyLoop L pgdir sz n k d (u32 (i + PGSIZE))
      | some (some e, _, _) =>
        match kalloc k with
        | none => do
            let k ← freevm L k d true
            return (none, k)
        | some (mem, k) => do
            let (mapped, d, k) ← mappages (k.copyPage mem e.addr) d i PGSIZE mem e.w e.u
            if mapped then copyLoop L pgdir sz n k d (u32 (i + PGSIZE))
            else
              let k ← kfree L k mem
              let k ← freevm L k d true
              return (none, k)
    else .ok (some d, k)

def copyuvm (L : Layout) (k : Kmem) (pgdir : PageDir) (sz : Nat) :
    Except Halt (Option PageDir × Kmem) := do
  let (d, k) ← setupkvm L k
  match d with
  | none => return (none, k)
  | some d => copyLoop L pgdir sz (pagesBetween 0 sz) k d 0

/-- `uva2ka`: the physical page, `none` for the null pointer. The entry is
read before it is known to exist. -/
def uva2ka (d : PageDir) (uva : Nat) : Except Halt (Option Nat) :=
  match d.pde (PDX uva) with
  | none => .error .nullPointer
  | some t =>
    match t.pte (PTX uva) with
    | none => .ok none
    | some e => .ok (if e.u then some e.addr else none)

/-- `copyout`, with fuel for `n` pages. -/
def copyoutLoop (d : PageDir) : Nat → Kmem → Nat → List UInt8 → Except Halt (Bool × Kmem)
  | 0, k, _, buf => if buf = [] then .ok (true, k) else .error .hang
  | n + 1, k, va, buf =>
    if buf = [] then .ok (true, k)
    else do
      let va0 := PGROUNDDOWN va
      match ← uva2ka d va0 with
      | none => return (false, k)
      | some pa0 =>
        let m := min (PGSIZE - (va - va0)) buf.length
        copyoutLoop d n (k.write pa0 (va - va0) (buf.take m)) (u32 (va0 + PGSIZE)) (buf.drop m)

def copyout (k : Kmem) (d : PageDir) (va : Nat) (p : List UInt8) : Except Halt (Bool × Kmem) :=
  copyoutLoop d p.length k va p

end Xv6.Vm

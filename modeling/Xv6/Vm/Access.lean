import Xv6.Vm.ProcCalls

/-!
User code between system calls. A byte load or store that the page table does
not allow enters the page fault handler and is restarted, unless the handler
kills the process. What user code can see of its memory is a size and a byte
for each address: a page that is not there yet reads as zeros, so mapping a
zeroed page changes nothing.
-/

namespace Xv6.Vm

open Finset Lib

/-- The page that an access to `va` reaches. The page must be present and open
to user code, and for a store it must be writable. -/
def PageDir.translate (d : PageDir) (write : Bool) (va : Nat) : Option Nat :=
  match d.entry va with
  | some e => if e.u && (e.w || !write) then some e.addr else none
  | none => none

/-- One byte access. A second fault of the restarted instruction would find
nothing to map. -/
def access (L : Layout) (k : Kmem) (p : Proc) (write : Bool) (va : Nat) :
    Except Halt (Except Fault Nat × Proc × Kmem) :=
  match p.pgdir with
  | none => .error .nullPointer
  | some d =>
    match d.translate write va with
    | some pa => .ok (.ok pa, p, k)
    | none => do
        let (r, p, k) ← pageFault L k p va
        if r.kills then return (.error r, p, k)
        else
          match p.pgdir.bind fun d => d.translate write va with
          | some pa => return (.ok pa, p, k)
          | none => .error .hang

inductive UserOp where
  | sbrk (n : BitVec 32)
  | load (addr : Nat)
  | store (addr : Nat) (b : UInt8)
  deriving DecidableEq, Repr

inductive Outcome where
  | sbrk (r : Option Nat)
  | loaded (b : UInt8)
  | stored
  | killed (why : Fault)
  deriving DecidableEq, Repr

def Outcome.kills : Outcome → Bool
  | .killed _ => true
  | _ => false

/-- The outcomes of an operation that ran out of physical memory. -/
def Outcome.exhausted : Outcome → Bool
  | .killed .noMemory => true
  | .sbrk none => true
  | _ => false

abbrev SbrkCall := Kmem → Proc → BitVec 32 → Except Halt (Option Nat × Proc × Kmem)

/-- `sys_sbrk` as it is: growth only moves `sz`. -/
def lazySbrk (L : Layout) : SbrkCall := fun k p n => sysSbrk L k p (some n)

/-- `sys_sbrk` with growth through `growproc`. -/
def eagerSbrk (L : Layout) : SbrkCall := fun k p n =>
  if 0 < n.toInt then do
    let (grown, p', k) ← growproc L k p n
    return (if grown then some p.sz else none, p', k)
  else sysSbrk L k p (some n)

theorem eagerSbrk_pos {L : Layout} {k k' : Kmem} {p : Proc} {d d' : PageDir} {n : BitVec 32}
    {sz : Nat} (hn : 0 < n.toInt) (hd : p.pgdir = some d)
    (halloc : allocuvm L k d p.sz (addInt p.sz n) = .ok (sz, d', k')) :
    eagerSbrk L k p n = .ok (if sz = 0 then (none, { p with pgdir := some d' }, k')
      else (some p.sz, { p with pgdir := some d', sz := sz }, k')) := by
  simp only [eagerSbrk, growproc, hd, if_pos hn, halloc]
  by_cases hsz : sz = 0 <;> simp [hsz, bind, Except.bind, pure, Except.pure]

def userStep (L : Layout) (sbrk : SbrkCall) (k : Kmem) (p : Proc) :
    UserOp → Except Halt (Outcome × Proc × Kmem)
  | .sbrk n => do
      let (r, p, k) ← sbrk k p n
      return (.sbrk r, p, k)
  | .load addr => do
      let (r, p, k) ← access L k p false addr
      match r with
      | .error why => return (.killed why, p, k)
      | .ok pa => return (.loaded (k.mem pa (addr % PGSIZE)), p, k)
  | .store addr b => do
      let (r, p, k) ← access L k p true addr
      match r with
      | .error why => return (.killed why, p, k)
      | .ok pa => return (.stored, p, k.write pa (addr % PGSIZE) [b])

/-- The outcomes of a trace, up to the access that kills. -/
def userRun (L : Layout) (sbrk : SbrkCall) : Kmem → Proc → List UserOp → Except Halt (List Outcome)
  | _, _, [] => .ok []
  | k, p, op :: ops => do
      let (o, p, k) ← userStep L sbrk k p op
      if o.kills then return [o]
      else
        let outs ← userRun L sbrk k p ops
        return o :: outs

/-- No operation of the trace runs out of memory. -/
def Ample (L : Layout) (sbrk : SbrkCall) : Kmem → Proc → List UserOp → Prop
  | _, _, [] => True
  | k, p, op :: ops => ∀ o p' k', userStep L sbrk k p op = .ok (o, p', k') →
      o.exhausted = false ∧ (o.kills = true ∨ Ample L sbrk k' p' ops)

/-- From the size `sz`, sizes stay in `[sz0, top)` and accesses below the size. -/
def Within (sz0 top : Nat) : Nat → List UserOp → Prop
  | _, [] => True
  | sz, .sbrk n :: ops => (sz0 : ℤ) ≤ sz + n.toInt ∧ (sz : ℤ) + n.toInt < top ∧
      Within sz0 top (sz + n.toInt).toNat ops
  | sz, .load addr :: ops => addr < sz ∧ Within sz0 top sz ops
  | sz, .store addr _ :: ops => addr < sz ∧ Within sz0 top sz ops

structure UserMem where
  sz : Nat
  byte : Nat → UInt8

namespace UserMem

/-- Moving the end forgets the pages behind it. -/
def sbrk (m : UserMem) (n : BitVec 32) : UserMem where
  sz := (m.sz + n.toInt).toNat
  byte x := if PGROUNDDOWN x < (m.sz + n.toInt).toNat then m.byte x else 0

@[simp] theorem sbrk_sz (m : UserMem) (n : BitVec 32) :
    (m.sbrk n).sz = (m.sz + n.toInt).toNat := rfl

/-- The intended effect of an operation, with a guard page at `g`. -/
def step (g : Nat) (m : UserMem) : UserOp → Outcome × UserMem
  | .sbrk n => (.sbrk (some m.sz), m.sbrk n)
  | .load addr =>
    if PGROUNDDOWN addr = g then (.killed .guard, m) else (.loaded (m.byte addr), m)
  | .store addr b =>
    if PGROUNDDOWN addr = g then (.killed .guard, m)
    else (.stored, { m with byte := Function.update m.byte addr b })

/-- Free pages that are enough for an operation: each page may need a table. -/
def cost (m : UserMem) : UserOp → Nat
  | .sbrk n => 2 * pagesBetween (PGROUNDUP m.sz) (m.sz + n.toInt).toNat
  | _ => 2

def run (g : Nat) : UserMem → List UserOp → List Outcome
  | _, [] => []
  | m, op :: ops =>
    let (o, m) := m.step g op
    if o.kills then [o] else o :: run g m ops

end UserMem

/-- The byte that user code finds at `va` once the page is there. -/
def PageDir.byte (d : PageDir) (k : Kmem) (va : Nat) : UInt8 :=
  match d.entry va with
  | some e => k.mem e.addr (va % PGSIZE)
  | none => 0

theorem PageDir.byte_some {d : PageDir} {va : Nat} {e : Pte} (h : d.entry va = some e) (k : Kmem) :
    d.byte k va = k.mem e.addr (va % PGSIZE) := by
  simp only [byte, h]

theorem PageDir.byte_none {d : PageDir} {va : Nat} (h : d.entry va = none) (k : Kmem) :
    d.byte k va = 0 := by
  simp only [byte, h]

theorem PageDir.page_of_frame {d : PageDir} (h : d.userFrames.Nodup) {x y : Nat} {e e' : Pte}
    (hx : x < KERNBASE) (hy : y < KERNBASE) (he : d.entry x = some e) (he' : d.entry y = some e')
    (hframe : e.addr = e'.addr) : x / PGSIZE = y / PGSIZE := by
  have hpage {z : Nat} {e : Pte} (hz : z < KERNBASE) (he : d.entry z = some e) :
      z / PGSIZE ∈ range userPages ∧ e.addr ∈ pteFrame (d.entry (z / PGSIZE * PGSIZE)) := by
    refine ⟨?_, ?_⟩
    · rw [mem_range]
      unfold userPages KERNBASE PGSIZE at *
      omega
    · rw [d.entry_congr (y := z), he, pteFrame_some]
      · exact Multiset.mem_singleton_self _
      all_goals
        simp only [KERNBASE, PGSIZE] at *
        omega
  have hfirst := hpage hx he
  rw [hframe] at hfirst
  exact owner_unique h hfirst.1 (hpage hy he').1 hfirst.2 (hpage hy he').2

theorem Kmem.write_byte (k : Kmem) (pa off i : Nat) (b : UInt8) :
    (k.write pa off [b]).mem pa i = if i = off then b else k.mem pa i := by
  unfold write
  simp only [Function.update_self]
  by_cases hi : i = off
  · subst hi
    simp
  · rw [dif_neg, if_neg hi]
    simp only [List.length_singleton]
    omega

theorem Kmem.write_mem (k : Kmem) (pa off : Nat) (bytes : List UInt8) {f : Nat} (hf : f ≠ pa) :
    (k.write pa off bytes).mem f = k.mem f := by
  unfold write
  simp only [Function.update_of_ne hf]

end Xv6.Vm

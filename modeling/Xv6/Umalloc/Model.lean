import Xv6.Lib.Extents

/-!
The memory allocator of user programs. Addresses are bytes, and the memory is seen as a
header at every address: the allocator reads and writes no others than those at the start
of a block. The loops go along pointers and have a bound on their number of rounds; `none`
means that the bound was reached. `sbrk` is answered by any function of the end of the
memory and the number of bytes asked for.
-/

namespace Xv6.Umalloc

open Function

/-- `sizeof(Header)`. -/
def HSIZE : Nat := 8

/-- `(char*)-1`. -/
def FAILED : Nat := 2 ^ 32 - 1

structure Header where
  ptr : Nat
  size : Nat
  deriving DecidableEq, Repr

/-- `brk` is the end of the process memory, `obtained` the bytes that `sbrk` has given. -/
structure Mem where
  hdr : Nat → Header
  freep : Nat
  brk : Nat
  obtained : Nat

/-- `p + n` for a pointer to headers. -/
def ahead (p n : Nat) : Nat := (p + n * HSIZE) % 2 ^ 32

/-- The loop of `free`: the node behind which `bp` belongs. -/
def findPlace (hdr : Nat → Header) (bp : Nat) : Nat → Nat → Option Nat
  | 0, _ => none
  | fuel + 1, p =>
    if bp > p ∧ bp < (hdr p).ptr then some p
    else if p ≥ (hdr p).ptr ∧ (bp > p ∨ bp < (hdr p).ptr) then some p
    else findPlace hdr bp fuel (hdr p).ptr

/-- Node `x` points to `q`, or takes it in if `q` is right behind it. -/
def attach (hdr : Nat → Header) (x q : Nat) : Nat → Header :=
  if ahead x (hdr x).size = q then
    update hdr x ⟨(hdr q).ptr, ((hdr x).size + (hdr q).size) % 2 ^ 32⟩
  else update hdr x ⟨q, (hdr x).size⟩

def free (fuel : Nat) (m : Mem) (ap : Nat) : Option Mem :=
  let bp := (ap + (2 ^ 32 - HSIZE)) % 2 ^ 32
  match findPlace m.hdr bp fuel m.freep with
  | none => none
  | some p => some { m with hdr := attach (attach m.hdr bp (m.hdr p).ptr) p bp, freep := p }

/-- The end of the memory after `sbrk(n)` from the end `p`. The bits `n` are those of an
`int`: a negative one lowers the end, or leaves it where the sum wraps to a higher one. -/
def newBreak (p n : Nat) : Nat :=
  let sz := (p + n) % 2 ^ 32
  if n < 2 ^ 31 then sz else min p sz

def sbrk (answer : Nat → Nat → Nat) (m : Mem) (n : Nat) : Nat × Mem :=
  let p := answer m.brk n
  if p = FAILED then (p, m)
  else (p, { m with brk := newBreak p n, obtained := m.obtained + (newBreak p n - p) })

def morecore (fuel : Nat) (answer : Nat → Nat → Nat) (m : Mem) (nu : Nat) : Option (Nat × Mem) :=
  let nu := if nu < 4096 then 4096 else nu
  let (p, m) := sbrk answer m (nu * HSIZE % 2 ^ 32)
  if p = FAILED then some (0, m)
  else
    let hdr := update m.hdr p { m.hdr p with size := nu }
    match free fuel { m with hdr := hdr } (ahead p 1) with
    | none => none
    | some m => some (m.freep, m)

/-- The block `p` is large enough: it leaves the list, or gives its last units. -/
def take (m : Mem) (prevp p nunits : Nat) : Nat × Mem :=
  if (m.hdr p).size = nunits then
    let hdr := update m.hdr prevp { m.hdr prevp with ptr := (m.hdr p).ptr }
    (ahead p 1, { m with hdr := hdr, freep := prevp })
  else
    let size := (m.hdr p).size - nunits
    let hdr := update m.hdr p { m.hdr p with size := size }
    let p := ahead p size
    let hdr := update hdr p { hdr p with size := nunits }
    (ahead p 1, { m with hdr := hdr, freep := prevp })

def mallocLoop (answer : Nat → Nat → Nat) (nunits : Nat) :
    Nat → Mem → Nat → Nat → Option (Nat × Mem)
  | 0, _, _, _ => none
  | fuel + 1, m, prevp, p =>
    if (m.hdr p).size ≥ nunits then some (take m prevp p nunits)
    else if p = m.freep then
      match morecore fuel answer m nunits with
      | none => none
      | some (p, m) =>
        if p = 0 then some (0, m) else mallocLoop answer nunits fuel m p (m.hdr p).ptr
    else mallocLoop answer nunits fuel m p (m.hdr p).ptr

def nunitsFor (nbytes : Nat) : Nat := (nbytes + HSIZE - 1) % 2 ^ 32 / HSIZE + 1

/-- `base` is the address of the static header. -/
def malloc (fuel : Nat) (answer : Nat → Nat → Nat) (base : Nat) (m : Mem) (nbytes : Nat) :
    Option (Nat × Mem) :=
  let m := if m.freep = 0 then
    { m with hdr := update m.hdr base ⟨base, 0⟩, freep := base } else m
  mallocLoop answer (nunitsFor nbytes) fuel m m.freep (m.hdr m.freep).ptr

/-- A call ends with result `r`, as soon as the bound on the rounds is large enough. -/
def Ends {α : Type*} (f : Nat → Option α) (r : α) : Prop := ∃ n, ∀ fuel ≥ n, f fuel = some r

namespace Ends

variable {α : Type*} {f g : Nat → Option α} {r r' : α}

theorem unique (h : Ends f r) (h' : Ends f r') : r = r' := by
  obtain ⟨n, hn⟩ := h
  obtain ⟨n', hn'⟩ := h'
  have heq := hn (n + n') (Nat.le_add_right n n')
  rw [hn' (n + n') (Nat.le_add_left n' n)] at heq
  exact (Option.some.inj heq).symm

/-- The rounds before a call goes on like another one. -/
theorem of_add {n : Nat} (h : ∀ fuel, f (fuel + n) = g fuel) (hg : Ends g r) : Ends f r := by
  obtain ⟨k, hk⟩ := hg
  refine ⟨k + n, fun fuel hfuel => ?_⟩
  have hsplit : fuel = fuel - n + n := by omega
  rw [hsplit, h]
  exact hk _ (by omega)

theorem of_succ (h : ∀ fuel, f (fuel + 1) = some r) : Ends f r :=
  of_add (g := fun _ => some r) h ⟨0, fun _ _ => rfl⟩

end Ends

end Xv6.Umalloc

import Xv6.Vm.Mmu

/-!
The physical page allocator of `kalloc.c`. A page is named by its physical
address. The free list is the chain of `struct run`; the contents of pages
are kept beside it.
-/

namespace Xv6.Vm

open Function

abbrev Page := Nat → UInt8

structure Kmem where
  freelist : List Nat
  mem : Nat → Page

namespace Kmem

/-- `memset(pa, 0, PGSIZE)`. -/
def zero (k : Kmem) (pa : Nat) : Kmem := { k with mem := update k.mem pa fun _ => 0 }

/-- `memmove(dst, src, PGSIZE)`. -/
def copyPage (k : Kmem) (dst src : Nat) : Kmem :=
  { k with mem := update k.mem dst (k.mem src) }

/-- `memmove(pa + off, bytes, n)` inside a page. -/
def write (k : Kmem) (pa off : Nat) (bytes : List UInt8) : Kmem :=
  { k with mem := update k.mem pa fun i =>
      if h : off ≤ i ∧ i - off < bytes.length then bytes.get ⟨i - off, h.2⟩ else k.mem pa i }

end Kmem

def kalloc (k : Kmem) : Option (Nat × Kmem) :=
  match k.freelist with
  | [] => none
  | r :: next => some (r, { k with freelist := next })

def Layout.PageOk (L : Layout) (pa : Nat) : Prop :=
  pa % PGSIZE = 0 ∧ L.kend ≤ P2V pa ∧ pa < PHYSTOP

instance (L : Layout) (pa : Nat) : Decidable (L.PageOk pa) := by
  unfold Layout.PageOk
  infer_instance

def kfree (L : Layout) (k : Kmem) (pa : Nat) : Except Halt Kmem :=
  if L.PageOk pa then
    .ok { freelist := pa :: k.freelist, mem := update k.mem pa fun _ => 1 }
  else .error .kfree

/-- The pages that `freerange(vstart, vend)` frees, in order, as physical
addresses. -/
def rangePages (vstart vend : Nat) : List Nat :=
  (List.range ((vend - PGROUNDUP vstart) / PGSIZE)).map fun i =>
    PGROUNDUP vstart + i * PGSIZE - KERNBASE

def freerange (L : Layout) (k : Kmem) (vstart vend : Nat) : Except Halt Kmem :=
  (rangePages vstart vend).foldlM (kfree L) k

namespace Kmem

def free (k : Kmem) : Multiset Nat := k.freelist

@[simp] theorem zero_free (k : Kmem) (pa : Nat) : (k.zero pa).free = k.free := rfl

@[simp] theorem copyPage_free (k : Kmem) (dst src : Nat) : (k.copyPage dst src).free = k.free := rfl

@[simp] theorem write_free (k : Kmem) (pa off : Nat) (bytes : List UInt8) :
    (k.write pa off bytes).free = k.free := rfl

theorem zero_mem (k : Kmem) (pa : Nat) : ∀ f ≠ pa, (k.zero pa).mem f = k.mem f := by
  intro f hf
  simp [zero, hf]

theorem zero_same (k : Kmem) (pa : Nat) : ∀ i, (k.zero pa).mem pa i = 0 := by
  simp [zero]

theorem zero_zeroed (k : Kmem) (pa : Nat) {f : Nat} (h : ∀ i, k.mem f i = 0) :
    ∀ i, (k.zero pa).mem f i = 0 := by
  by_cases hf : f = pa
  · rw [hf]
    exact k.zero_same pa
  · rw [zero_mem k pa f hf]
    exact h

theorem copyPage_mem (k : Kmem) (dst src : Nat) :
    ∀ f ≠ dst, (k.copyPage dst src).mem f = k.mem f := by
  intro f hf
  simp [copyPage, hf]

end Kmem

theorem kalloc_some {k k' : Kmem} {r : Nat} (h : kalloc k = some (r, k')) :
    k.free = {r} + k'.free ∧ k'.mem = k.mem := by
  unfold kalloc at h
  split at h
  · cases h
  · next hlist =>
    cases h
    exact ⟨by simp [Kmem.free, hlist], rfl⟩

theorem kfree_ok {L : Layout} {k k' : Kmem} {pa : Nat} (h : kfree L k pa = .ok k') :
    L.PageOk pa ∧ k'.free = {pa} + k.free ∧ k'.mem = update k.mem pa fun _ => 1 := by
  unfold kfree at h
  split at h
  · next hok =>
    cases h
    exact ⟨hok, by simp [Kmem.free], rfl⟩
  · cases h

theorem kfree_of_pageOk {L : Layout} {pa : Nat} (h : L.PageOk pa) (k : Kmem) :
    ∃ k', kfree L k pa = .ok k' := by
  unfold kfree
  rw [if_pos h]
  exact ⟨_, rfl⟩

/-- Only pages of `own` change their contents. -/
def Confined (own : Multiset Nat) (k k' : Kmem) : Prop := ∀ f, f ∉ own → k'.mem f = k.mem f

namespace Confined

variable {own own' : Multiset Nat} {k k' k'' : Kmem}

theorem refl (own : Multiset Nat) (k : Kmem) : Confined own k k := fun _ _ => rfl

theorem trans (h : Confined own k k') (h' : Confined own k' k'') : Confined own k k'' :=
  fun f hf => (h' f hf).trans (h f hf)

theorem mono (h : Confined own k k') (hsub : own ⊆ own') : Confined own' k k' :=
  fun f hf => h f fun hmem => hf (hsub hmem)

theorem write {pa : Nat} (hpa : pa ∈ own) (k : Kmem) (off : Nat) (bytes : List UInt8) :
    Confined own k (k.write pa off bytes) := by
  intro f hf
  have hne : f ≠ pa := fun h => hf (h ▸ hpa)
  simp [Kmem.write, hne]

theorem kfree {L : Layout} {pa : Nat} (h : Vm.kfree L k pa = .ok k') (hpa : pa ∈ own) :
    Confined own k k' := by
  intro f hf
  have hne : f ≠ pa := fun h => hf (h ▸ hpa)
  rw [(kfree_ok h).2.2, update_of_ne hne]

end Confined

end Xv6.Vm

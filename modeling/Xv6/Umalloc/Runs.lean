import Mathlib.Data.List.Pairwise
import Xv6.Lib.Transition
import Xv6.Umalloc.Malloc

/-!
Programs that use the allocator: any sequence of `malloc`, `free` of blocks in use, and
writes to them, with any answers of `sbrk`.
-/

namespace Xv6.Umalloc

open Lib Extents Extent Relation List

/-- The memory and the blocks in use, their headers included. -/
structure System where
  mem : Mem
  live : List Extent

/-- The requests for which the sizes fit the 32-bit arithmetic. -/
def MAXREQUEST : Nat := 2 ^ 31 - 4096 * 8

inductive Step (base : Nat) : System → System → Prop
  | malloc {s : System} {answer : Nat → Nat → Nat} {nbytes r : Nat} {m : Mem}
      (hsbrk : Sbrk answer) (hn : nbytes < MAXREQUEST)
      (hends : Ends (fun fuel => malloc fuel answer base s.mem nbytes) (r, m)) :
      Step base s ⟨m, if r = 0 then s.live
        else ⟨r - HSIZE, nunitsFor nbytes * HSIZE⟩ :: s.live⟩
  | free {s : System} {b : Extent} {m : Mem} (hb : b ∈ s.live)
      (hends : Ends (fun fuel => free fuel s.mem (b.addr + HSIZE)) m) :
      Step base s ⟨m, s.live.erase b⟩
  -- the program writes to its blocks; a header that does not reach into one is as before
  | write {s : System} {hdr : Nat → Header}
      (hout : ∀ a, (∀ b ∈ s.live, a ≤ b.addr ∨ b.stop ≤ a) → hdr a = s.mem.hdr a) :
      Step base s ⟨{ s.mem with hdr := hdr }, s.live⟩

/-- A program that starts; the static header is below the end of its memory. -/
structure Fresh (base : Nat) (s : System) : Prop where
  base_pos : 0 < base
  base_le : base + HSIZE ≤ s.mem.brk
  brk : s.mem.brk < 2 ^ 32
  freep : s.mem.freep = 0
  live : s.live = []
  obtained : s.mem.obtained = 0

/-- The free blocks are a cycle in the order of their addresses with gaps between them, all
blocks are disjoint, and no byte is lost. -/
structure Valid (base : Nat) (s : System) (free : List Extent) : Prop where
  list : (s.mem.freep = 0 ∧ free = []) ∨
    (Linked s.mem.hdr (⟨base, 0⟩ :: free) base ∧ ∃ e ∈ ⟨base, 0⟩ :: free, e.addr = s.mem.freep)
  sorted : Spaced (⟨base, 0⟩ :: free)
  pos : ∀ e ∈ free ++ s.live, 0 < e.len
  disjoint : (free ++ s.live).Pairwise Apart
  units : total free + total s.live = s.mem.obtained

section

variable {base : Nat} {m : Mem} {s : System} {free live : List Extent} {b : Extent}
variable {answer : Nat → Nat → Nat} {nbytes : Nat}

theorem nunitsFor_eq (hn : nbytes < MAXREQUEST) :
    nbytes + HSIZE ≤ nunitsFor nbytes * HSIZE ∧ nunitsFor nbytes * HSIZE < 2 ^ 31 := by
  unfold nunitsFor MAXREQUEST HSIZE at *
  omega

theorem Heap.malloc_ends (h : Heap base m free live) (hsbrk : SbrkAt answer m.brk)
    (hsmall : nunitsFor nbytes * HSIZE < 2 ^ 31) :
    ∃ r, Ends (fun fuel => malloc fuel answer base m nbytes) r ∧
      Heap.Result base (nunitsFor nbytes) live r ∧
      Grown answer (nunitsFor nbytes) m.brk r.2.brk := by
  unfold malloc
  rw [if_neg (Nat.ne_of_gt h.freep_pos)]
  exact h.mallocLoop_ends hsbrk (Nat.succ_pos _) hsmall

theorem Fresh.malloc_ends (h : Fresh base s) (hsbrk : SbrkAt answer s.mem.brk)
    (hsmall : nunitsFor nbytes * HSIZE < 2 ^ 31) :
    ∃ r, Ends (fun fuel => malloc fuel answer base s.mem nbytes) r ∧
      Heap.Result base (nunitsFor nbytes) s.live r ∧
      Grown answer (nunitsFor nbytes) s.mem.brk r.2.brk := by
  have hheap : Heap base
      { s.mem with hdr := Function.update s.mem.hdr base ⟨base, 0⟩, freep := base } [] s.live := by
    rw [h.live]
    refine ⟨h.base_pos, ⟨?_, ?_, trivial⟩, ⟨_, mem_cons_self, rfl⟩, Layout.nil h.base_le,
      h.brk, by simp, h.obtained.symm⟩
    · dsimp only
      rw [Function.update_self]
      rfl
    · dsimp only
      rw [Function.update_self]
      rfl
  unfold malloc
  rw [if_pos h.freep]
  exact hheap.mallocLoop_ends hsbrk (Nat.succ_pos _) hsmall

theorem Heap.live_bounds (h : Heap base m free live) (hb : b ∈ live) :
    HSIZE ≤ b.len ∧ b.stop < 2 ^ 32 := by
  have hpos := h.layout.pos b (mem_append_right free hb)
  have hbound := (h.layout.bound b (mem_append_right free hb)).2
  have hsize := h.sizes b hb
  have hbrk := h.brk
  unfold HSIZE at *
  omega

theorem Heap.free_live (h : Heap base m free live) (hb : b ∈ live) :
    ∃ m', Ends (fun fuel => Umalloc.free fuel m (b.addr + HSIZE)) m' ∧
      Heap base m' (Extents.insert b free) (live.erase b) := by
  have hahead : ahead b.addr 1 = b.addr + HSIZE := by
    have hbounds := h.live_bounds hb
    unfold ahead stop HSIZE at *
    omega
  have hends := (h.perm (perm_cons_erase hb)).free_ends
  rw [hahead] at hends
  exact hends

/-- Writes to the blocks in use change no header of the allocator. -/
theorem Heap.write (h : Heap base m free live) {hdr : Nat → Header}
    (hout : ∀ a, (∀ b ∈ live, a ≤ b.addr ∨ b.stop ≤ a) → hdr a = m.hdr a) :
    Heap base { m with hdr := hdr } free live := by
  refine ⟨h.base_pos, h.linked.congr fun e he => ?_, h.freep, h.layout, h.brk, fun e he => ?_,
    h.units⟩
  · refine hout _ fun b hb => ?_
    rcases mem_cons.mp he with rfl | he
    · exact .inl (Nat.le_of_lt (h.live_lower hb))
    · have happart := h.layout.apart e he b hb
      unfold Apart stop at *
      omega
  · have hkept : hdr e.addr = m.hdr e.addr := by
      refine hout _ fun b hb => ?_
      by_cases heq : e = b
      · exact .inl (Nat.le_of_eq (congrArg Extent.addr heq))
      · have happart := h.layout.live.forall he hb heq
        unfold Apart stop at *
        omega
    dsimp only
    rw [hkept]
    exact h.sizes e he

theorem Heap.valid (h : Heap base s.mem free s.live) : Valid base s free := by
  refine ⟨.inr ⟨h.linked, h.freep⟩, h.spaced, h.layout.pos, ?_, h.units⟩
  refine pairwise_append.mpr ⟨?_, h.layout.live, h.layout.apart⟩
  exact h.layout.spaced.imp fun hab => .inl (Nat.le_of_lt hab)

theorem Fresh.valid (h : Fresh base s) : Valid base s [] := by
  refine ⟨.inl ⟨h.freep, rfl⟩, pairwise_singleton _ _, ?_, ?_, ?_⟩
  · simp [h.live]
  · simp [h.live]
  · rw [h.live, h.obtained]
    rfl

end

/-- Before the first call, or with the list in place. -/
def Ready (base : Nat) (s : System) : Prop :=
  Fresh base s ∨ ∃ free, Heap base s.mem free s.live

section

variable {base : Nat} {s s' : System}

theorem Ready.malloc_ends (h : Ready base s) {answer : Nat → Nat → Nat} {nbytes : Nat}
    (hsbrk : SbrkAt answer s.mem.brk) (hsmall : nunitsFor nbytes * HSIZE < 2 ^ 31) :
    ∃ r, Ends (fun fuel => malloc fuel answer base s.mem nbytes) r ∧
      Heap.Result base (nunitsFor nbytes) s.live r ∧
      Grown answer (nunitsFor nbytes) s.mem.brk r.2.brk := by
  rcases h with hfresh | ⟨free, hheap⟩
  · exact hfresh.malloc_ends hsbrk hsmall
  · exact hheap.malloc_ends hsbrk hsmall

theorem Ready.free_ends (h : Ready base s) {b : Extent} (hb : b ∈ s.live) :
    ∃ m', Ends (fun fuel => free fuel s.mem (b.addr + HSIZE)) m' ∧
      ∃ free', Heap base m' free' (s.live.erase b) := by
  rcases h with hfresh | ⟨free, hheap⟩
  · rw [hfresh.live] at hb
    cases hb
  · obtain ⟨m', hends, hheap'⟩ := hheap.free_live hb
    exact ⟨m', hends, _, hheap'⟩

theorem Ready.step (h : Ready base s) (hstep : Step base s s') : Ready base s' := by
  cases hstep with
  | malloc hsbrk hn hends =>
    obtain ⟨r, hends', hres, -⟩ := h.malloc_ends (hsbrk _) (nunitsFor_eq hn).2
    obtain rfl := hends.unique hends'
    rcases hres with ⟨hzero, free, hheap⟩ | ⟨b, free, hr, hlen, hheap⟩
    · dsimp only at hzero
      rw [if_pos hzero]
      exact .inr ⟨free, hheap⟩
    · dsimp only at hr
      have hpos : ¬ b.addr + HSIZE = 0 := Nat.succ_ne_zero _
      rw [hr, if_neg hpos, Nat.add_sub_cancel, ← hlen]
      exact .inr ⟨free, hheap⟩
  | free hb hends =>
    obtain ⟨m', hends', hheap⟩ := h.free_ends hb
    obtain rfl := hends.unique hends'
    exact .inr hheap
  | write hout =>
    rcases h with hfresh | ⟨free, hheap⟩
    · exact .inl ⟨hfresh.base_pos, hfresh.base_le, hfresh.brk, hfresh.freep, hfresh.live,
        hfresh.obtained⟩
    · exact .inr ⟨free, hheap.write hout⟩

theorem Ready.valid (h : Ready base s) : ∃ free, Valid base s free := by
  rcases h with hfresh | ⟨free, hheap⟩
  · exact ⟨[], hfresh.valid⟩
  · exact ⟨free, hheap.valid⟩

/-- After any sequence of calls and writes the free list is as it should be and no unit is
lost; `malloc` ends, and a pointer it returns has room for the request in a block apart from
all blocks in use; `free` of any block in use ends. -/
theorem malloc_free_valid {s0 : System} (h0 : Fresh base s0)
    (hrun : ReflTransGen (Step base) s0 s) :
    (∃ free, Valid base s free) ∧
    (∀ answer nbytes, Sbrk answer → nbytes < MAXREQUEST → ∃ r m,
      Ends (fun fuel => malloc fuel answer base s.mem nbytes) (r, m) ∧
      (r ≠ 0 → ∃ b : Extent, r = b.addr + HSIZE ∧ r + nbytes ≤ b.stop ∧
        (m.hdr b.addr).size * HSIZE = b.len ∧ ∀ e ∈ s.live, Apart b e)) ∧
    ∀ b ∈ s.live, ∃ m, Ends (fun fuel => free fuel s.mem (b.addr + HSIZE)) m := by
  have hready : Ready base s :=
    invariant_of_run (Ready base) hrun (Or.inl h0) fun a b ha hab => ha.step hab
  refine ⟨hready.valid, fun answer nbytes hsbrk hn => ?_, fun b hb => ?_⟩
  · obtain ⟨⟨r, m⟩, hends, hres, -⟩ := hready.malloc_ends (hsbrk _) (nunitsFor_eq hn).2
    refine ⟨r, m, hends, fun hne => ?_⟩
    rcases hres with ⟨hzero, -⟩ | ⟨b, free, hr, hlen, hheap⟩
    · exact absurd hzero hne
    · dsimp only at hr
      have hroom := (nunitsFor_eq hn).1
      refine ⟨b, hr, ?_, hheap.sizes b mem_cons_self, (pairwise_cons.mp hheap.layout.live).1⟩
      unfold stop
      omega
  · obtain ⟨m, hends, -⟩ := hready.free_ends hb
    exact ⟨m, hends⟩

end

namespace Sample

def start : System := ⟨⟨fun _ => ⟨0, 0⟩, 0, 4096, 0⟩, []⟩

/-- `sbrk` with memory right behind the end, up to an end of the address space. -/
def answer (brk n : Nat) : Nat := if brk + n < 2 ^ 32 then brk else FAILED

theorem answer_ok : Sbrk answer := by
  intro brk n _ _
  unfold answer
  split
  · next hlt => exact .inr ⟨Nat.le_refl _, hlt⟩
  · exact .inl rfl

theorem start_fresh : Fresh 8 start := by
  refine ⟨?_, ?_, ?_, rfl, rfl, rfl⟩ <;> decide

end Sample

/-- A program before and after its first call, `malloc(1)`. -/
theorem malloc_free_valid_one : (∃ free, Valid 8 Sample.start free) ∧
    ∃ s, Step 8 Sample.start s ∧ ∃ free, Valid 8 s free := by
  obtain ⟨hvalid, hmalloc, -⟩ := malloc_free_valid Sample.start_fresh ReflTransGen.refl
  obtain ⟨r, m, hends, -⟩ := hmalloc Sample.answer 1 Sample.answer_ok (by decide)
  have hstep := Step.malloc Sample.answer_ok (by decide) hends
  exact ⟨hvalid, _, hstep, (malloc_free_valid Sample.start_fresh (ReflTransGen.single hstep)).1⟩

end Xv6.Umalloc

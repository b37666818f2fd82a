import Xv6.Umalloc.Runs
import Xv6.Vm.ProcCalls

/-!
Requests of any size, with `sbrk` as the kernel has it. Up to `2 ^ 31 - 16` bytes a block has
room for what was asked. Above, the number of bytes passed to `sbrk` is a negative `int`, which
shrinks the memory and still returns its old end, or it is zero, or the number of units has
wrapped to one.
-/

namespace Xv6.Umalloc

open Lib Extents Extent Function
open Vm (KERNBASE)

/-- The result of `sys_sbrk`: the old end, unless `growproc` takes the new end for a failure. -/
def kernelSbrk (brk n : Nat) : Nat := if 2 ^ 31 ≤ n ∧ newBreak brk n = 0 then FAILED else brk

/-- `sys_sbrk` answers this, and moves the end of the memory as `sbrk` does. -/
theorem kernelSbrk_of_sysSbrk {L : Vm.Layout} {k k' : Vm.Kmem} {p p' : Vm.Proc} {d : Vm.PageDir}
    {n : BitVec 32} {r : Option Nat} (hd : p.pgdir = some d) (hsz : p.sz ≤ KERNBASE)
    (h : Vm.sysSbrk L k p (some n) = .ok (r, p', k')) :
    r.getD FAILED = kernelSbrk p.sz n.toNat ∧
      p'.sz = if r = none then p.sz else newBreak p.sz n.toNat := by
  have hint := BitVec.toInt_eq_toNat_cond n
  have hlt := n.isLt
  rcases lt_trichotomy n.toInt 0 with hn | hn | hn
  · have hneg : 2 ^ 31 ≤ n.toNat := by omega
    obtain ⟨sz, d', hdealloc, hres⟩ := Vm.sysSbrk_neg_ok hn hd h
    obtain ⟨hmin, -⟩ := Vm.deallocuvm_spec hdealloc hsz
    have hnew : newBreak p.sz n.toNat = sz := by
      rw [hmin, newBreak, if_neg (Nat.not_lt.mpr hneg)]
      rfl
    unfold kernelSbrk
    rw [hnew]
    split at hres
    · next hzero =>
      cases hres
      exact ⟨(if_pos ⟨hneg, hzero⟩).symm, rfl⟩
    · next hzero =>
      cases hres
      exact ⟨(if_neg fun hfail => hzero hfail.2).symm, rfl⟩
  · rw [Vm.sysSbrk_zero L k p hn] at h
    cases h
    have hzero : n.toNat = 0 := by omega
    unfold KERNBASE at hsz
    rw [hzero, newBreak_eq (by decide) (by omega)]
    exact ⟨rfl, rfl⟩
  · have hpos : n.toNat < 2 ^ 31 := by omega
    rw [Vm.sysSbrk_pos L k p hn] at h
    cases h
    rw [kernelSbrk, if_neg (by omega), newBreak, if_pos hpos]
    exact ⟨rfl, rfl⟩

theorem kernelSbrk_at {brk : Nat} (hbrk : brk ≤ KERNBASE) : SbrkAt kernelSbrk brk := by
  intro n _ hn
  unfold kernelSbrk KERNBASE at *
  rw [if_neg (by omega)]
  exact .inr ⟨Nat.le_refl _, by omega⟩

/-- A null pointer, or one to a block with room for the request, below the end of the memory;
the memory ends where the program can use it. -/
def Enough (nbytes r : Nat) (m : Mem) : Prop :=
  m.brk ≤ KERNBASE ∧ (r = 0 ∨ ∃ b : Extent, r = b.addr + HSIZE ∧ r + nbytes ≤ b.stop ∧
    (m.hdr b.addr).size * HSIZE = b.len ∧ b.stop ≤ m.brk)

/-- The units hold the header and the request, their bytes are an `uint`, and these bytes are
a positive `int`. -/
structure Exact (nbytes : Nat) : Prop where
  units : nbytes + HSIZE ≤ nunitsFor nbytes * HSIZE
  bytes : nunitsFor nbytes * HSIZE % 2 ^ 32 = nunitsFor nbytes * HSIZE
  argument : nunitsFor nbytes * HSIZE % 2 ^ 32 < 2 ^ 31

theorem exact_iff {nbytes : Nat} (hn : nbytes < 2 ^ 32) : Exact nbytes ↔ nbytes ≤ 2 ^ 31 - 16 := by
  constructor
  · intro ⟨hunits, hbytes, hargument⟩
    unfold HSIZE at *
    omega
  · intro hle
    constructor <;> unfold nunitsFor HSIZE <;> omega

theorem Ready.malloc_enough {base nbytes : Nat} {s : System} (h : Ready base s)
    (hbrk : s.mem.brk ≤ KERNBASE)
    (hnew : newBreak s.mem.brk (request (nunitsFor nbytes)) ≤ KERNBASE) (hexact : Exact nbytes) :
    ∃ r m, Ends (fun fuel => malloc fuel kernelSbrk base s.mem nbytes) (r, m) ∧
      Enough nbytes r m := by
  have hsmall := hexact.argument
  rw [hexact.bytes] at hsmall
  obtain ⟨⟨r, m⟩, hends, hres, hgrown⟩ := h.malloc_ends (kernelSbrk_at hbrk) hsmall
  refine ⟨r, m, hends, ?_, ?_⟩
  · rcases hgrown with heq | heq
    · exact heq.trans_le hbrk
    · rw [kernelSbrk, if_neg] at heq
      · exact heq.trans_le hnew
      · rw [request]
        unfold HSIZE at *
        split <;> omega
  rcases hres with ⟨hzero, -⟩ | ⟨b, free, hr, hlen, hheap⟩
  · exact .inl hzero
  · have hunits := hexact.units
    have hin : b ∈ free ++ b :: s.live := List.mem_append_right free List.mem_cons_self
    refine .inr ⟨b, hr, ?_, hheap.sizes b List.mem_cons_self, (hheap.layout.bound b hin).2⟩
    dsimp only at hr
    unfold stop
    omega

section

/-- A program whose memory of three pages a call `sbrk(4)` has made larger, with the static
header at 2048. -/
def start : System := ⟨⟨fun _ => ⟨0, 0⟩, 0, 12292, 0⟩, []⟩

theorem start_fresh : Fresh 2048 start := by
  refine ⟨?_, ?_, ?_, rfl, rfl, rfl⟩ <;> decide

variable {nbytes nunits nu : Nat}

/-- The list of the static header alone, which the first call makes. -/
def first : Mem := ⟨update (fun _ => ⟨0, 0⟩) 2048 ⟨2048, 0⟩, 2048, 12292, 0⟩

/-- What `morecore` leaves: a block at 12292, of the size asked for. -/
def grown (nu : Nat) : Mem :=
  let brk := newBreak 12292 (nu * HSIZE % 2 ^ 32)
  ⟨update (update (update first.hdr 12292 ⟨0, nu⟩) 12292 ⟨2048, nu⟩) 2048 ⟨12292, 0⟩, 2048, brk,
    0 + (brk - 12292)⟩

theorem morecore_eq {answer : Nat → Nat → Nat} {fuel p : Nat} {m m' : Mem}
    (hnu : (if nunits < 4096 then 4096 else nunits) = nu)
    (hsbrk : answer m.brk (nu * HSIZE % 2 ^ 32) = p) (hne : p ≠ FAILED)
    (hfree : free fuel { m with
      hdr := update m.hdr p { m.hdr p with size := nu }
      brk := newBreak p (nu * HSIZE % 2 ^ 32)
      obtained := m.obtained + (newBreak p (nu * HSIZE % 2 ^ 32) - p) } (ahead p 1) = some m') :
    morecore fuel answer m nunits = some (m'.freep, m') := by
  simp only [morecore, sbrk, hnu, hsbrk, if_neg hne, hfree]

theorem morecore_first (hnu : (if nunits < 4096 then 4096 else nunits) = nu)
    (fuel : Nat) : morecore (fuel + 1) kernelSbrk first nunits = some (2048, grown nu) := by
  have hanswer : kernelSbrk 12292 (nu * HSIZE % 2 ^ 32) = 12292 := by
    refine if_neg fun ⟨hneg, hzero⟩ => ?_
    rw [newBreak, if_neg (Nat.not_lt.mpr hneg)] at hzero
    unfold HSIZE at *
    omega
  have hahead : ahead 12292 nu ≠ 2048 := by
    unfold ahead HSIZE
    omega
  have hattach : attach (update first.hdr 12292 ⟨0, nu⟩) 12292 2048 =
      update (update first.hdr 12292 ⟨0, nu⟩) 12292 ⟨2048, nu⟩ := if_neg hahead
  have hfree : free (fuel + 1) { grown nu with hdr := update first.hdr 12292 ⟨0, nu⟩ } 12300 =
      some { grown nu with
        hdr := attach (attach (update first.hdr 12292 ⟨0, nu⟩) 12292 2048) 2048 12292 } := rfl
  rw [hattach] at hfree
  exact morecore_eq hnu hanswer (by unfold FAILED; omega) hfree

theorem start_malloc (hnu : (if nunitsFor nbytes < 4096 then 4096 else nunitsFor nbytes) = nu) :
    Ends (fun fuel => malloc fuel kernelSbrk 2048 start.mem nbytes)
      (take (grown nu) 2048 12292 (nunitsFor nbytes)) := by
  have hfit : nunitsFor nbytes ≤ nu := by
    split at hnu <;> omega
  have hnone : ¬ 0 ≥ nunitsFor nbytes := Nat.not_le.mpr (Nat.succ_pos _)
  refine Ends.of_add (n := 2) (g := fun _ => some _) (fun fuel => ?_) ⟨0, fun _ _ => rfl⟩
  have hloop : mallocLoop kernelSbrk (nunitsFor nbytes) (fuel + 1) (grown nu) 2048 12292 =
      some (take (grown nu) 2048 12292 (nunitsFor nbytes)) := if_pos hfit
  change mallocLoop kernelSbrk (nunitsFor nbytes) (fuel + 2) first 2048 2048 = _
  rw [mallocLoop, morecore_first hnu]
  exact (if_neg hnone).trans hloop

theorem start_wraps (hwrap : 2 ^ 32 - 8 < nbytes) (hlt : nbytes < 2 ^ 32) :
    ∃ m, Ends (fun fuel => malloc fuel kernelSbrk 2048 start.mem nbytes) (45060, m) ∧
      (m.hdr 45052).size = 1 := by
  have hone : nunitsFor nbytes = 1 := by
    unfold nunitsFor HSIZE
    omega
  have hnu : (if nunitsFor nbytes < 4096 then 4096 else nunitsFor nbytes) = 4096 := by
    rw [hone]
    rfl
  have hends := start_malloc hnu
  have hsize : ((grown 4096).hdr 12292).size = 4096 := rfl
  have hlast : ahead 12292 (4096 - 1) = 45052 := by decide
  have hr : ahead 45052 1 = 45060 := by decide
  rw [hone] at hends
  simp only [take, hsize, hlast, hr] at hends
  rw [if_neg (by omega)] at hends
  exact ⟨_, hends, rfl⟩

/-- The bytes of the block are a negative `int`, or none at all. -/
theorem start_shrinks (hbig : 2 ^ 31 - 16 < nbytes) (hle : nbytes ≤ 2 ^ 32 - 8) :
    ∃ m, Ends (fun fuel => malloc fuel kernelSbrk 2048 start.mem nbytes) (12300, m) ∧
      m.brk ≤ 12292 := by
  have hunits : 2 ^ 28 ≤ nunitsFor nbytes ∧ nunitsFor nbytes ≤ 2 ^ 29 := by
    unfold nunitsFor HSIZE
    omega
  have hends := start_malloc (if_neg (show ¬ nunitsFor nbytes < 4096 by omega))
  have hsize : ((grown (nunitsFor nbytes)).hdr 12292).size = nunitsFor nbytes := rfl
  rw [take, if_pos hsize] at hends
  refine ⟨_, hends, ?_⟩
  change newBreak 12292 _ ≤ 12292
  unfold newBreak
  dsimp only
  split
  · next hpos =>
    unfold HSIZE at *
    omega
  · exact Nat.min_le_left _ _

theorem start_not_enough (hlt : nbytes < 2 ^ 32) (hbig : 2 ^ 31 - 16 < nbytes) :
    ∃ r m, Ends (fun fuel => malloc fuel kernelSbrk 2048 start.mem nbytes) (r, m) ∧
      ¬ Enough nbytes r m := by
  rcases Nat.lt_or_ge (2 ^ 32 - 8) nbytes with hwrap | hle
  · obtain ⟨m, hends, hsize⟩ := start_wraps hwrap hlt
    refine ⟨_, _, hends, ?_⟩
    rintro ⟨-, hzero | ⟨⟨addr, len⟩, hr, hroom, hlen, -⟩⟩
    · cases hzero
    · obtain rfl : addr = 45052 := Nat.add_right_cancel hr.symm
      rw [hsize] at hlen
      unfold stop HSIZE at *
      omega
  · obtain ⟨m, hends, hbrk⟩ := start_shrinks hbig hle
    refine ⟨_, _, hends, ?_⟩
    rintro ⟨-, hzero | ⟨b, hr, hroom, -, hstop⟩⟩
    · cases hzero
    · omega

theorem start_request (hbig : 2 ^ 31 - 16 < nbytes) (hlt : nbytes < 2 ^ 32) :
    newBreak start.mem.brk (request (nunitsFor nbytes)) ≤ KERNBASE := by
  change newBreak 12292 _ ≤ _
  unfold newBreak request nunitsFor HSIZE KERNBASE
  dsimp only
  split <;> split <;> omega

end

/-- For a request of `nbytes`, in every state of a process whose memory is below `KERNBASE`
and would be after the call of `sbrk`, `malloc` returns a null pointer or a block with room
for it, exactly if `nbytes` is at most `2 ^ 31 - 16`; these are the requests for which no step
of the arithmetic wraps. -/
theorem malloc_enough_iff {nbytes : Nat} (hn : nbytes < 2 ^ 32) :
    ((∀ base s, Ready base s → s.mem.brk ≤ KERNBASE →
      newBreak s.mem.brk (request (nunitsFor nbytes)) ≤ KERNBASE →
      ∃ r m, Ends (fun fuel => malloc fuel kernelSbrk base s.mem nbytes) (r, m) ∧
        Enough nbytes r m) ↔ nbytes ≤ 2 ^ 31 - 16) ∧
    (Exact nbytes ↔ nbytes ≤ 2 ^ 31 - 16) := by
  refine ⟨⟨fun h => ?_, fun hle base s hready hbrk hnew => ?_⟩, exact_iff hn⟩
  · by_contra hbig
    obtain ⟨r, m, hends, hnot⟩ := start_not_enough hn (Nat.lt_of_not_le hbig)
    obtain ⟨r', m', hends', henough⟩ := h 2048 start (Or.inl start_fresh) (by decide)
      (start_request (Nat.lt_of_not_le hbig) hn)
    cases hends.unique hends'
    exact hnot henough
  · exact hready.malloc_enough hbrk hnew ((exact_iff hn).mpr hle)

/-- `malloc(1)`, in the first call of a program. -/
theorem malloc_enough_one :
    ∃ r m, Ends (fun fuel => malloc fuel kernelSbrk 2048 start.mem 1) (r, m) ∧ Enough 1 r m := by
  obtain ⟨henough, -⟩ := malloc_enough_iff (show 1 < 2 ^ 32 by decide)
  exact henough.mpr (by decide) 2048 start (Or.inl start_fresh) (by decide) (by decide)

/-- `malloc(0xffffffff)`, in the first call of a program, returns a block of one unit. -/
theorem malloc_under_allocates : Ready 2048 start ∧ start.mem.brk ≤ KERNBASE ∧
    newBreak start.mem.brk (request (nunitsFor (2 ^ 32 - 1))) ≤ KERNBASE ∧
    ∃ m, Ends (fun fuel => malloc fuel kernelSbrk 2048 start.mem (2 ^ 32 - 1)) (45060, m) ∧
      (m.hdr 45052).size = 1 ∧ ¬ Enough (2 ^ 32 - 1) 45060 m := by
  obtain ⟨m, hends, hsize⟩ := start_wraps (show 2 ^ 32 - 8 < 2 ^ 32 - 1 by decide) (by decide)
  obtain ⟨r, m', hends', hnot⟩ := start_not_enough (show 2 ^ 32 - 1 < 2 ^ 32 by decide) (by decide)
  cases hends.unique hends'
  exact ⟨.inl start_fresh, by decide, by decide, m, hends, hsize, hnot⟩

end Xv6.Umalloc

import Xv6.Vm.Clone

/-!
`trap` for page faults: the handler, then the test that makes a killed process
exit. The test looks at the privilege level of the faulting instruction, so a
process that faults inside the kernel goes on with that instruction, also when
the handler could not map the page.
-/

namespace Xv6.Vm

open Lib Kernel

def T_PGFLT : Nat := 14

/-- How `trap` ends: in `exit`, or back at the faulting instruction. -/
inductive TrapEnd where
  | exit (status : Nat)
  | resume
  deriving DecidableEq, Repr

/-- `trap` for a frame with `trapno == T_PGFLT`; `user` says whether the
instruction runs in user mode, `(tf->cs & 3) == DPL_USER`. -/
def trapPgflt (L : Layout) (k : Kmem) (p : Proc) (rcr2 : Nat) (user : Bool) :
    Except Halt (TrapEnd × Proc × Kmem) := do
  let (_, p, k) ← pageFault L k p rcr2
  if p.killed && user then return (.exit (T_PGFLT + 1), p, k) else return (.resume, p, k)

def Proc.Present (p : Proc) (va : Nat) : Prop := ∃ d e, p.pgdir = some d ∧ d.entry va = some e

/-- The fault is handled: the process exits, or the page is there when the
instruction is tried again. -/
def FaultHandled (L : Layout) (k : Kmem) (p : Proc) (rcr2 : Nat) (user : Bool) : Prop :=
  ∃ r p' k', trapPgflt L k p rcr2 user = .ok (r, p', k') ∧ (r = .resume → p'.Present rcr2)

/-- The handler takes a page and comes to `mappages`. -/
def ComesToMap (k : Kmem) (p : Proc) (rcr2 : Nat) : Prop :=
  rcr2 < p.sz ∧ PGROUNDDOWN rcr2 ≠ p.guardPage ∧ 0 < k.freelist.length

section

variable {L : Layout} {k k' : Kmem} {p p' : Proc} {d : PageDir} {rcr2 : Nat} {r : Fault}

/-- Where the handler does not come to `mappages`, it marks the process. -/
theorem pageFault_kills (L : Layout) (h : ¬ ComesToMap k p rcr2) :
    ∃ r, r.kills = true ∧ pageFault L k p rcr2 = .ok (r, { p with killed := true }, k) := by
  unfold pageFault
  dsimp only
  by_cases hsz : rcr2 ≥ p.sz
  · exact ⟨.outside, rfl, if_pos hsz⟩
  · rw [if_neg hsz]
    by_cases hguard : PGROUNDDOWN rcr2 = p.guardPage
    · exact ⟨.guard, rfl, if_pos hguard⟩
    · have hempty : k.freelist = [] := by
        by_contra hne
        exact h ⟨Nat.lt_of_not_le hsz, hguard, List.length_pos_of_ne_nil hne⟩
      rw [if_neg hguard]
      simp only [kalloc, hempty]
      exact ⟨.noMemory, rfl, rfl⟩

/-- The handler maps an absent page exactly when it gets a page for it and for
the table it may need. -/
theorem pageFault_mapped_iff (hd : p.pgdir = some d) (hsz : p.sz ≤ KERNBASE)
    (habsent : d.entry rcr2 = none) (hmap : ComesToMap k p rcr2)
    (h : pageFault L k p rcr2 = .ok (r, p', k')) :
    r = .mapped ↔ d.missing rcr2 < k.freelist.length := by
  obtain ⟨hlt, hguard, hpos⟩ := hmap
  have hlow : PGROUNDDOWN rcr2 < KERNBASE := by
    simp only [PGROUNDDOWN, PGSIZE] at *
    omega
  have hpdx : PDX (PGROUNDDOWN rcr2) = PDX rcr2 := by
    simp only [PDX, PGROUNDDOWN, PGSIZE]
    omega
  have habsent' : d.entry (PGROUNDDOWN rcr2) = none := by
    rw [← habsent]
    apply d.entry_congr <;> simp only [PGROUNDDOWN, PGSIZE, KERNBASE] at * <;> omega
  have hmissing : d.missing (PGROUNDDOWN rcr2) = d.missing rcr2 := by
    unfold PageDir.missing
    rw [hpdx]
  obtain ⟨mem, k1, halloc, hlen⟩ := kalloc_ok hpos
  have hlen1 : (k1.zero mem).freelist.length = k1.freelist.length := rfl
  unfold pageFault at h
  simp only [if_neg (Nat.not_le.mpr hlt), if_neg hguard, halloc, hd] at h
  obtain ⟨⟨b, d', k2⟩, hmappages, h⟩ := bind_eq_ok.mp h
  constructor
  · rintro rfl
    by_contra hfew
    -- the one free page is taken, and the table is missing
    have hnone : d.pde (PDX (PGROUNDDOWN rcr2)) = none := by
      unfold PageDir.missing at hfew
      rw [hpdx]
      cases ht : d.pde (PDX rcr2) with
      | none => rfl
      | some t =>
        rw [ht] at hfew
        exact absurd hpos hfew
    have hempty : k1.freelist = [] := by
      apply List.eq_nil_of_length_eq_zero
      have hone := d.missing_le_one rcr2
      omega
    have hfail : mappages (k1.zero mem) d (PGROUNDDOWN rcr2) PGSIZE mem true true =
        .ok (false, d, k1.zero mem) := by
      have hdown : PGROUNDDOWN (PGROUNDDOWN rcr2) = PGROUNDDOWN rcr2 := by
        simp only [PGROUNDDOWN, PGSIZE]
        omega
      have hwalk : walkpgdir (k1.zero mem) d (PGROUNDDOWN rcr2) true = none := by
        simp only [walkpgdir, hnone, kalloc, Kmem.zero, hempty, if_true]
      unfold mappages mappagesLoop
      simp only [hdown, hwalk]
    cases hfail.symm.trans hmappages
    obtain ⟨k3, _, h⟩ := bind_eq_ok.mp h
    cases h
  · intro hmany
    obtain ⟨d1, k3, hok, _⟩ := mappages_page_ok true true (k := k1.zero mem) (d := d)
      (PGROUNDDOWN rcr2) mem (Nat.mul_mod_left _ _) (lt_32_of_user hlow) habsent' (by omega)
    cases hok.symm.trans hmappages
    cases h
    rfl

theorem trapPgflt_of_pageFault {user : Bool} (h : pageFault L k p rcr2 = .ok (r, p', k')) :
    trapPgflt L k p rcr2 user =
      .ok (if p'.killed && user then .exit (T_PGFLT + 1) else .resume, p', k') := by
  unfold trapPgflt
  rw [h, ok_bind]
  dsimp only
  split <;> rfl

/-- On an absent page: it is mapped, or the process is marked and it stays absent. -/
theorem pageFault_absent (hd : p.pgdir = some d) (hsz : p.sz ≤ KERNBASE)
    (habsent : d.entry rcr2 = none) (h : pageFault L k p rcr2 = .ok (r, p', k')) :
    (r = .mapped ∧ p'.Present rcr2) ∨ (r ≠ .mapped ∧ p'.killed = true ∧ ¬ p'.Present rcr2) := by
  have hstays {q : Proc} {d' : PageDir} (hq : q.pgdir = some d') (he : d'.entry rcr2 = none) :
      ¬ q.Present rcr2 := by
    rintro ⟨d1, e, hd1, he1⟩
    cases hq.symm.trans hd1
    rw [he] at he1
    cases he1
  rcases pageFault_spec h hd hsz with ⟨rfl, _, rfl, _⟩ | ⟨rfl, _, _, rfl, _⟩ |
    ⟨hlt, _, d', _, ⟨rfl, rfl, hsame⟩ | ⟨rfl, rfl, _, mem, hentry, _⟩⟩
  · exact .inr ⟨by decide, rfl, hstays hd habsent⟩
  · exact .inr ⟨by decide, rfl, hstays hd habsent⟩
  · refine .inr ⟨by decide, rfl, hstays rfl ?_⟩
    rw [hsame rcr2 (lt_32_of_user (hlt.trans_le hsz)), habsent]
  · refine .inl ⟨rfl, d', ⟨mem, true, true⟩, rfl, ?_⟩
    rw [hentry rcr2 (lt_32_of_user (hlt.trans_le hsz)), if_pos rfl]

theorem comesToMap_of_mapped (h : pageFault L k p rcr2 = .ok (.mapped, p', k')) :
    ComesToMap k p rcr2 := by
  by_contra hnot
  obtain ⟨r, hkills, hfault⟩ := pageFault_kills L hnot
  cases hfault.symm.trans h
  cases hkills

/-- A page fault is handled exactly in these cases. On a page that is there, the
handler must stop before `mappages`, which would panic. On an absent page, the
fault is taken in user mode, or the handler gets the memory to map the page. -/
theorem fault_handled_iff {L : Layout} {k : Kmem} {p : Proc} {d : PageDir} {rcr2 : Nat}
    {user : Bool} (hd : p.pgdir = some d) (hsz : p.sz ≤ KERNBASE)
    (hok : ∀ f ∈ k.free, L.PageOk f) :
    FaultHandled L k p rcr2 user ↔ if (d.entry rcr2).isSome then ¬ ComesToMap k p rcr2
      else user = true ∨ (ComesToMap k p rcr2 ∧ d.missing rcr2 < k.freelist.length) := by
  unfold FaultHandled
  cases hentry : d.entry rcr2 with
  | some e =>
    rw [if_pos Option.isSome_some]
    constructor
    · rintro ⟨r, p', k', htrap, _⟩ ⟨hlt, hguard, hpos⟩
      unfold trapPgflt at htrap
      rw [pageFault_remap L hd hlt hsz hguard hentry hpos] at htrap
      cases htrap
    · intro hnot
      obtain ⟨r, _, hfault⟩ := pageFault_kills L hnot
      exact ⟨_, _, _, trapPgflt_of_pageFault hfault, fun _ => ⟨d, e, hd, hentry⟩⟩
  | none =>
    rw [if_neg (by simp)]
    obtain ⟨r, p', k', hfault⟩ := pageFault_total (L := L) hd hsz hok hentry
    have hmapped := pageFault_absent hd hsz hentry hfault
    rw [trapPgflt_of_pageFault hfault]
    constructor
    · rintro ⟨_, _, _, htrap, hresume⟩
      cases htrap
      rcases hmapped with ⟨rfl, _⟩ | ⟨_, hkilled, habsent⟩
      · have hmap := comesToMap_of_mapped hfault
        exact .inr ⟨hmap, (pageFault_mapped_iff hd hsz hentry hmap hfault).mp rfl⟩
      · left
        by_contra huser
        exact habsent (hresume (by simp [huser]))
    · intro h
      refine ⟨_, p', k', rfl, fun hresume => ?_⟩
      rcases hmapped with ⟨_, hpresent⟩ | ⟨hnot, hkilled, _⟩
      · exact hpresent
      · rcases h with rfl | ⟨hmap, hmany⟩
        · rw [hkilled] at hresume
          cases hresume
        · exact absurd ((pageFault_mapped_iff hd hsz hentry hmap hfault).mpr hmany) hnot

end

/-- The faulting instruction tried again as long as `trap` comes back to it, `n`
times. -/
def faultAgain (L : Layout) (rcr2 : Nat) (user : Bool) : Nat → Kmem → Proc →
    Except Halt (TrapEnd × Proc × Kmem)
  | 0, k, p => trapPgflt L k p rcr2 user
  | n + 1, k, p => do
      let (r, p, k) ← trapPgflt L k p rcr2 user
      match r with
      | .exit status => return (.exit status, p, k)
      | .resume => faultAgain L rcr2 user n k p

/-- A fault inside the kernel that the handler does not map is taken for ever. -/
theorem faultAgain_forever (L : Layout) {k : Kmem} {p : Proc} {rcr2 : Nat}
    (h : ¬ ComesToMap k p rcr2) (n : Nat) :
    faultAgain L rcr2 false n k p = .ok (.resume, { p with killed := true }, k) := by
  have hfirst (q : Proc) (hq : ¬ ComesToMap k q rcr2) :
      trapPgflt L k q rcr2 false = .ok (.resume, { q with killed := true }, k) := by
    obtain ⟨r, _, hfault⟩ := pageFault_kills L hq
    rw [trapPgflt_of_pageFault hfault, Bool.and_false]
    rfl
  induction n generalizing p with
  | zero => exact hfirst p h
  | succ n ih =>
    unfold faultAgain
    rw [hfirst p h, ok_bind]
    exact ih h

/-- A process with the page at `0x400000` and a lazily grown one behind it. -/
def grownProc : Proc := { Proc.zero with sz := 0x402000, pgdir := some sparseDir, pid := 1 }

theorem fault_handled_kernel :
    FaultHandled smallLayout ⟨[0x303000], fun _ _ => 0⟩ grownProc 0x401000 false := by
  refine (fault_handled_iff (d := sparseDir) rfl (by decide) ?_).mpr ?_
  · intro f hf
    rw [Multiset.mem_singleton.mp hf]
    decide
  · exact .inr ⟨⟨by decide, by decide, by decide⟩, by decide⟩

/-- The kernel copies to the lazily grown page when memory is exhausted: `trap`
returns each time with the page absent. -/
theorem fault_not_handled : ¬ FaultHandled smallLayout ⟨[], fun _ _ => 0⟩ grownProc 0x401000 false ∧
    ∀ n, faultAgain smallLayout 0x401000 false n ⟨[], fun _ _ => 0⟩ grownProc =
      .ok (.resume, { grownProc with killed := true }, ⟨[], fun _ _ => 0⟩) := by
  have hnot : ¬ ComesToMap ⟨[], fun _ _ => 0⟩ grownProc 0x401000 := fun h => absurd h.2.2 (by decide)
  refine ⟨?_, faultAgain_forever smallLayout hnot⟩
  rintro ⟨r, p', k', htrap, hpresent⟩
  cases (faultAgain_forever smallLayout hnot 0).symm.trans htrap
  obtain ⟨d, e, hd, he⟩ := hpresent rfl
  cases hd
  cases he

end Xv6.Vm

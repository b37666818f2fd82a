import Xv6.Vm.Access
import Xv6.Vm.Owners

/-!
User code of one process cannot write to the memory of another, of the kernel or of
the free list. The stores come between the calls of all processes in any order.
-/

namespace Xv6.Vm.Kernel

open Lib Relation Function
open Sched (Slot)

variable {L : Layout} {κ0 κ : Kernel} {p : Slot} {d : PageDir} {va pa : Nat}

/-- A store of user code that goes through. -/
def userStore (κ : Kernel) (va pa : Nat) (b : UInt8) : Kernel :=
  { κ with kmem := κ.kmem.write pa (va % PGSIZE) [b] }

/-- A call, which is no `exec` that comes to a page without a table, or a store to a page that
process `p` can write. -/
inductive UserStep (L : Layout) (κ : Kernel) : Kernel → Prop where
  | call {κ' : Kernel} (h : BoundedStep L κ κ') : UserStep L κ κ'
  | store (p : Slot) (d : PageDir) (va pa : Nat) (b : UInt8) (hd : κ.space (some p) = some d)
      (ht : d.translate true va = some pa) : UserStep L κ (κ.userStore va pa b)

theorem Inv.userStore (h : Inv L (handed L) κ) (va pa : Nat) (b : UInt8) :
    Inv L (handed L) (κ.userStore va pa b) where
  pages := h.pages
  files := ⟨⟨h.files.pipes.closed, h.files.pipes.ends, h.files.pipes.unique, h.files.pipes.live,
    h.files.pipes.nodup⟩, h.files.refs⟩
  kernel := h.kernel
  kuser := h.kuser
  proc := h.proc

/-- In every run in which sizes stay within `KERNBASE`, a store changes the page of its process
at `va` and no other page that is free or has an owner. -/
theorem store_isolated {ncpu : Nat} {initcode : List UInt8}
    (hboot : boot L ncpu initcode = .ok κ0) (hrun : ReflTransGen (UserStep L) κ0 κ)
    (hd : κ.space (some p) = some d) (hva : va < 2 ^ 32) (ht : d.translate true va = some pa)
    (b : UInt8) :
    va < KERNBASE ∧ κ.Owns (.user (some p) (va / PGSIZE)) pa ∧ ∀ pa',
      (pa' ∈ κ.kmem.freelist ∨ ∃ o, o ≠ .user (some p) (va / PGSIZE) ∧ κ.Owns o pa') →
        (κ.userStore va pa b).kmem.mem pa' = κ.kmem.mem pa' := by
  have hinv : Inv L (handed L) κ := by
    refine invariant_of_run (Inv L (handed L)) hrun (boot_spec hboot).1 ?_
    rintro κ1 κ2 h (⟨hbound, a, henabled, hstep⟩ | ⟨q, d', va', pa', b', -, -⟩)
    · exact step_inv h (handed_nodup L) hbound henabled hstep
    · exact h.userStore va' pa' b'
  have hc := hinv.conserved
  unfold PageDir.translate at ht
  split at ht
  · next e he =>
    split at ht
    · next hu =>
      cases ht
      have hlt : va < KERNBASE := by
        by_contra hge
        have hclosed := (hc.kernel_half _ d hd va hva (Nat.not_lt.mp hge)).2 e he
        simp [hclosed] at hu
      have howns := owns_user hd hlt he
      refine ⟨hlt, howns, fun pa' hpa' => update_of_ne ?_ _ _⟩
      rintro rfl
      rcases hc.free_or_owned _ (hc.only_handed _ (.inr ⟨_, howns⟩)) with
        ⟨-, hnone⟩ | ⟨hnot, o, -, hunique⟩
      · exact hnone _ howns
      · rcases hpa' with hfree | ⟨o', hne, ho'⟩
        · exact hnot hfree
        · exact hne ((hunique _ ho').trans (hunique _ howns).symm)
    · cases ht
  · cases ht

/-- The first process has called `sbrk` and written to its page, and writes to it again. -/
theorem store_isolated_second : ∃ κ0 κ pa, boot smallLayout 2 [0xEB, 0xFE] = .ok κ0 ∧
    ReflTransGen (UserStep smallLayout) κ0 κ ∧ (κ.proc κ0.initproc).sz = 8192 ∧
    κ.kmem.mem pa 5 = 7 ∧ (κ.userStore 6 pa 8).kmem.mem pa 6 = 8 ∧
    ∀ pa' ∈ κ.kmem.freelist, (κ.userStore 6 pa 8).kmem.mem pa' = κ.kmem.mem pa' := by
  obtain ⟨κ0, hboot⟩ := smallLayout_boots 2 (by decide)
  obtain ⟨kstack, d, pa, hproc, hentry, -⟩ := boot_first hboot
  have hsz : addInt (κ0.proc κ0.initproc).sz 4096 = 8192 := by
    rw [hproc]
    change addInt PGSIZE 4096 = 8192
    decide
  obtain ⟨κ1, hgrow, -, hkmem, hproc1⟩ := BoundedStep.grow smallLayout (n := 4096)
    (p := κ0.initproc) (boot_bounded hboot) (by unfold Live; rw [hproc]; rfl) (by decide)
    (by rw [hsz]; decide)
  rw [hsz, hproc] at hproc1
  have hd : κ1.space (some κ0.initproc) = some d := by
    simp only [space, hproc1]
    rfl
  have ht (va : Nat) (hva : va < PGSIZE) : d.translate true va = some pa := by
    unfold PageDir.translate
    rw [hentry va (hva.trans (by decide)), if_pos hva]
    rfl
  have hrun : ReflTransGen (UserStep smallLayout) κ0 (κ1.userStore 5 pa 7) :=
    .tail (.single (.call hgrow)) (.store κ0.initproc d 5 pa 7 hd (ht 5 (by decide)))
  refine ⟨κ0, κ1.userStore 5 pa 7, pa, hboot, hrun, ?_, ?_, ?_, fun pa' hpa' =>
    (store_isolated hboot hrun hd (by decide) (ht 6 (by decide)) 8).2.2 pa' (.inl hpa')⟩
  · change (κ1.proc κ0.initproc).sz = 8192
    rw [hproc1]
  · simp [userStore, Kmem.write, PGSIZE]
  · simp [userStore, Kmem.write, PGSIZE]

end Xv6.Vm.Kernel

import Xv6.Vm.ExecFail

/-!
`exec` with an argument of more than 32 megabytes. `copyout` comes to a page without a table,
and `uva2ka` takes the word at address 0 for the entry of that page. That address belongs to
the caller, which has put there what it likes: the argument goes to a physical page of its
choice. Without such arguments the pages are conserved.
-/

namespace Xv6.Vm

open Lib Kernel Relation
open Sched (Slot)

/-- What a read through a null pointer finds, with the first page of the caller in the frame
`page0`. -/
def nullWord (k : Kmem) (page0 : Nat) : Nat := leValue ((List.range 4).map (k.mem page0))

/-- `uva2ka` as the machine runs it, where there is no table too. -/
def uva2kaAt (page0 : Nat) (k : Kmem) (d : PageDir) (uva : Nat) : Option Nat :=
  match d.pde (PDX uva) with
  | none =>
    let pte := nullWord k page0
    if pte % 2 = 1 ∧ pte / 4 % 2 = 1 then some (pte / PGSIZE * PGSIZE) else none
  | some t => (t.pte (PTX uva)).bind fun e => if e.u then some e.addr else none

def copyoutLoopAt (page0 : Nat) (d : PageDir) : Nat → Kmem → Nat → List UInt8 → Bool × Kmem
  | 0, k, _, buf => (decide (buf = []), k)
  | n + 1, k, va, buf =>
    if buf = [] then (true, k)
    else
      let va0 := PGROUNDDOWN va
      match uva2kaAt page0 k d va0 with
      | none => (false, k)
      | some pa0 =>
        let m := min (PGSIZE - (va - va0)) buf.length
        copyoutLoopAt page0 d n (k.write pa0 (va - va0) (buf.take m)) (u32 (va0 + PGSIZE))
          (buf.drop m)

def copyoutAt (page0 : Nat) (k : Kmem) (d : PageDir) (va : Nat) (p : List UInt8) : Bool × Kmem :=
  copyoutLoopAt page0 d p.length k va p

variable {page0 pa va n : Nat} {k : Kmem} {d : PageDir} {buf : List UInt8}

theorem uva2kaAt_eq {r : Option Nat} (h : uva2ka d va = .ok r) (page0 : Nat) (k : Kmem) :
    uva2kaAt page0 k d va = r := by
  unfold uva2ka at h
  unfold uva2kaAt
  cases ht : d.pde (PDX va) with
  | none =>
    rw [ht] at h
    cases h
  | some t =>
    rw [ht] at h
    dsimp only at h ⊢
    cases hpte : t.pte (PTX va) <;> rw [hpte] at h <;> cases h <;> rfl

/-- Where `copyout` meets no page without a table, the machine does what it says. -/
theorem copyoutAt_eq {r : Bool × Kmem} (h : copyout k d va buf = .ok r) (page0 : Nat) :
    copyoutAt page0 k d va buf = r := by
  have hloop (n : Nat) (k : Kmem) (va : Nat) (buf : List UInt8)
      (h : copyoutLoop d n k va buf = .ok r) : copyoutLoopAt page0 d n k va buf = r := by
    induction n generalizing k va buf with
    | zero =>
      unfold copyoutLoop at h
      split at h
      · next hnil =>
        cases h
        rw [copyoutLoopAt, hnil]
        rfl
      · cases h
    | succ n ih =>
      unfold copyoutLoop at h
      unfold copyoutLoopAt
      split at h
      · next hnil =>
        cases h
        rw [if_pos hnil]
      · next hne =>
        obtain ⟨page, hpage, h⟩ := bind_eq_ok.mp h
        rw [if_neg hne]
        dsimp only
        rw [uva2kaAt_eq hpage]
        cases page with
        | none =>
          cases h
          rfl
        | some pa0 => exact ih _ _ _ h
  exact hloop _ _ _ _ h

/-- The page without a table is the last below the devices: the caller's page `pa` gets its
part of the buffer, and `copyout` stops behind it. -/
theorem copyoutAt_stray (hword : nullWord k page0 = pa + 7) (hpa : pa % PGSIZE = 0)
    (hnone : d.pde (PDX (DEVSPACE - PGSIZE)) = none) {e : Pte} (he : d.entry DEVSPACE = some e)
    (hu : e.u = false) (hlen : PGSIZE < buf.length) :
    copyoutAt page0 k d (DEVSPACE - PGSIZE) buf = (false, k.write pa 0 (buf.take PGSIZE)) := by
  obtain ⟨n, hn⟩ : ∃ n, buf.length = n + 2 := ⟨buf.length - 2, by
    simp only [PGSIZE] at hlen
    omega⟩
  have hfirst : uva2kaAt page0 k d (DEVSPACE - PGSIZE) = some pa := by
    unfold uva2kaAt
    rw [hnone, hword]
    dsimp only
    simp only [PGSIZE] at hpa ⊢
    rw [if_pos (by omega)]
    congr 1
    omega
  have hsecond (k : Kmem) : uva2kaAt page0 k d DEVSPACE = none := by
    obtain ⟨t, ht, hpte⟩ := d.table_of_entry he
    unfold uva2kaAt
    rw [ht]
    dsimp only
    rw [hpte, Option.bind_some, hu]
    rfl
  have hround : PGROUNDDOWN (DEVSPACE - PGSIZE) = DEVSPACE - PGSIZE := by decide
  have hnext : u32 (DEVSPACE - PGSIZE + PGSIZE) = DEVSPACE := by decide
  have hdev : PGROUNDDOWN DEVSPACE = DEVSPACE := by decide
  have hmin : min PGSIZE buf.length = PGSIZE := min_eq_left hlen.le
  have hrest : buf.drop PGSIZE ≠ [] := by
    rw [Ne, List.drop_eq_nil_iff]
    omega
  unfold copyoutAt
  rw [hn, copyoutLoopAt, if_neg (List.ne_nil_of_length_pos (by omega))]
  dsimp only
  rw [hround, hfirst]
  dsimp only
  rw [Nat.sub_self, Nat.sub_zero, hmin, hnext, copyoutLoopAt, if_neg hrest]
  dsimp only
  rw [hdev, hsecond]

theorem leValue_leBytes (hn : n < 2 ^ 32) : leValue (leBytes n) = n := by
  simp only [leBytes, leValue, UInt8.toNat_ofNat']
  omega

theorem nullWord_write (k : Kmem) (hn : n < 2 ^ 32) :
    nullWord (k.write page0 0 (leBytes n)) page0 = n := by
  refine Eq.trans ?_ (leValue_leBytes hn)
  unfold nullWord Kmem.write
  simp only [Function.update_self]
  rfl

/-- An argument that reaches from the stack of a small program down to the page below the
devices. -/
def longArg : List UInt8 := List.replicate 0x2003FFF 97

/-- `exec` of a small program with that argument writes it over the page `pa` that the caller
has put at its address 0. -/
theorem exec_stray {L : Layout} (hword : nullWord k page0 = pa + 7) (hpa : pa % PGSIZE = 0)
    (hused : page0 ∉ k.free) (hnodup : k.free.Nodup) (hfree : 73 ≤ k.freelist.length) :
    ∃ elf k1 image k2, execLoad L k tinyElf = .ok (some elf, k1) ∧
      allocStack L k1 elf.pgdir (PGROUNDUP elf.sz) = .ok (some (image, 12288), k2) ∧
      copyoutAt page0 k2 image (sub32 12288 (longArg.length + 1) / 4 * 4) (longArg ++ [0]) =
        (false, k2.write pa 0 (List.replicate PGSIZE 97)) := by
  obtain ⟨d, k1, hload, hlen⟩ := execLoad_tinyElf L (k := k) (by omega)
  obtain ⟨-, hfirst, hsome⟩ := execLoad_spec hload
  obtain ⟨hpages, hkernel, hdense, hsz⟩ := hsome _ rfl
  have htables := (execLoad_built hload hnodup).2
  have hround : PGROUNDUP 1 = 4096 := by decide
  have hd : Dense d 4096 := hround ▸ hdense.roundup hsz
  obtain ⟨d1, k2, d2, halloc, hclear, -⟩ := stackPages_ok L (k := k1) hd (by decide) (by decide)
    (by omega)
  have hrebuilt := (allocuvm_rebuilt halloc).trans (clearpteu_rebuilt hclear (by decide) k2)
  have hhalf := hrebuilt.kernel.kernelHalf hkernel
  have hmem : k2.mem page0 = k.mem page0 := by
    rw [hrebuilt.confined page0 (by rw [hpages]; exact hused), hfirst page0 hused]
  obtain ⟨e, he⟩ := Option.isSome_iff_exists.mp (kmapEntry_device L le_rfl (by decide))
  have hargLength : longArg.length = 0x2003FFF := List.length_replicate
  have hva : sub32 12288 (longArg.length + 1) / 4 * 4 = DEVSPACE - PGSIZE := by
    rw [hargLength]
    decide
  have htake : (longArg ++ [0]).take PGSIZE = List.replicate PGSIZE 97 := by
    rw [List.take_append_of_le_length (by rw [hargLength]; decide), longArg, List.take_replicate]
    congr 1
  refine ⟨_, k1, d2, k2, hload, hround ▸ allocStack_eq (by decide) halloc hclear, ?_⟩
  rw [hva, ← htake]
  refine copyoutAt_stray (by rw [nullWord, hmem]; exact hword) hpa ?_
    ((hhalf DEVSPACE (by decide) (by decide)).trans he) (kmapEntry_user he) ?_
  · rw [clearpteu_pde hclear (by decide) (by decide), allocuvm_pde halloc (by decide) (by decide)]
    exact htables _ (by decide) (by decide)
  · rw [List.length_append, hargLength]
    decide

namespace Kernel

/-- Ownership and conservation of physical pages in every state of every run, and every `exec`
with arguments of less than 32 megabytes is a call that can come next. -/
theorem pages_conserved {L : Layout} {ncpu : Nat} {initcode : List UInt8} {κ0 κ : Kernel}
    (hboot : boot L ncpu initcode = .ok κ0) (hrun : ReflTransGen (BoundedStep L) κ0 κ) :
    κ.Conserved L ∧ ∀ p ip path argv, κ.Live p → (∀ arg ∈ argv, arg.length < 2 ^ 25) →
      ∃ κ', step L κ (.exec p ip path argv) = .ok κ' := by
  have hinv := inv_of_run hboot hrun
  refine ⟨hinv.conserved, fun p ip path argv hlive hargs => ?_⟩
  obtain ⟨d, hd, hok, hnodup⟩ := hinv.exec_ready hlive
  obtain ⟨b, q, k, hexec⟩ := exec_total ip path argv hd hok hnodup hargs
  exact ⟨_, bind_eq_ok.mpr ⟨_, hexec, rfl⟩⟩

/-- The first process grows by a page and touches it. -/
theorem pages_conserved_first_fault : ∃ κ0 κ : Kernel, ∃ d e,
    boot smallLayout 2 [0xEB, 0xFE] = .ok κ0 ∧ ReflTransGen (BoundedStep smallLayout) κ0 κ ∧
      κ.space (some κ0.initproc) = some d ∧ d.entry 4096 = some e ∧ κ.Conserved smallLayout := by
  obtain ⟨κ0, hboot⟩ := smallLayout_boots 2 (by decide)
  obtain ⟨kstack, pgdir, mem, hproc, hentry, hfree, _⟩ := boot_first hboot
  have hlive : κ0.Live κ0.initproc := by
    unfold Live
    rw [hproc]
    rfl
  have hsz : addInt (κ0.proc κ0.initproc).sz 4096 = 8192 := by
    rw [hproc]
    change addInt PGSIZE 4096 = 8192
    decide
  obtain ⟨κ1, hgrow, hbounded, hkmem, hproc1⟩ := BoundedStep.grow smallLayout (n := 4096)
    (boot_bounded hboot) hlive (by decide) (by rw [hsz]; decide)
  rw [hsz, hproc] at hproc1
  obtain ⟨κ, d, e, htouch, hspace, he⟩ := BoundedStep.touch smallLayout (κ := κ1) (p := κ0.initproc)
    (d := pgdir) 4096 hbounded (by unfold Live; rw [hproc1]; rfl) (by rw [hproc1]; rfl)
    (by rw [hproc1]; change 4096 < 8192; decide) (by rw [hproc1]; change PGROUNDDOWN 4096 ≠ 0; decide)
    (by rw [hentry _ (by decide), if_neg (by decide)]) (by rw [hkmem]; omega)
  have hrun := ReflTransGen.tail (.single hgrow) htouch
  exact ⟨κ0, κ, d, e, hboot, hrun, hspace, he, (pages_conserved hboot hrun).1⟩

/-- The first process has the address of its page directory at address 0, as an entry that is
present and open to user code: its `exec` fills the directory with its argument. -/
theorem exec_overwrites_directory : ∃ (κ0 : Kernel) (d image : PageDir) (page0 : Nat)
    (k k1 k2 k3 : Kmem) (elf : Loaded), boot smallLayout 1 [0xEB, 0xFE] = .ok κ0 ∧
      κ0.space (some κ0.initproc) = some d ∧ d.entry 0 = some ⟨page0, true, true⟩ ∧
      k = κ0.kmem.write page0 0 (leBytes (d.frame + 7)) ∧
      execLoad smallLayout k tinyElf = .ok (some elf, k1) ∧
      allocStack smallLayout k1 elf.pgdir (PGROUNDUP elf.sz) = .ok (some (image, 12288), k2) ∧
      copyoutAt page0 k2 image (sub32 12288 (longArg.length + 1) / 4 * 4) (longArg ++ [0]) =
        (false, k3) ∧
      κ0.Owns (.pgdir (some κ0.initproc)) d.frame ∧ ∀ i < PGSIZE, k3.mem d.frame i = 97 := by
  obtain ⟨κ0, hboot⟩ := smallLayout_boots 1 (by decide)
  obtain ⟨kstack, d, page0, hproc, hentry, hfree, _⟩ := boot_first hboot
  have hlive : κ0.Live κ0.initproc := by
    unfold Live
    rw [hproc]
    rfl
  have hspace : κ0.space (some κ0.initproc) = some d := by
    simp only [space, hproc]
    rfl
  have hzero : d.entry 0 = some ⟨page0, true, true⟩ := hentry 0 (by decide)
  have hle := (boot_spec hboot).1.space_le hlive (by rw [hproc]; rfl)
  have hnodup := Multiset.nodup_of_le hle (Multiset.coe_nodup.mpr (handed_nodup smallLayout))
  have hframe : smallLayout.PageOk d.frame := handed_pageOk smallLayout _ (Multiset.mem_coe.mp
    (Multiset.mem_of_le hle (by simp [PageDir.pages])))
  have hword : nullWord (κ0.kmem.write page0 0 (leBytes (d.frame + 7))) page0 = d.frame + 7 := by
    refine nullWord_write κ0.kmem ?_
    have hlt := hframe.2.2
    simp only [PHYSTOP] at hlt
    omega
  have hused : page0 ∉ κ0.kmem.free := by
    refine Multiset.disjoint_left.mp (Multiset.nodup_add.mp hnodup).2.2 ?_
    rw [PageDir.pages_eq]
    exact Multiset.mem_add.mpr (Or.inr (PageDir.mem_userFrames.mpr ⟨0, by decide, _, hzero, rfl⟩))
  obtain ⟨elf, k1, image, k2, hload, hstack, hcopy⟩ := exec_stray (L := smallLayout) hword
    hframe.1 hused (Multiset.nodup_add.mp hnodup).2.1
    (show 73 ≤ κ0.kmem.freelist.length by omega)
  refine ⟨κ0, d, image, page0, _, k1, k2, _, elf, hboot, hspace, hzero, rfl, hload, hstack, hcopy,
    ⟨d, hspace, rfl⟩, fun i hi => ?_⟩
  unfold Kmem.write
  simp [hi]

end Kernel

end Xv6.Vm

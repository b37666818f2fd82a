import Xv6.Vm.Loader

/-!
`exec` that returns -1. Whatever it had allocated is free again and no page
that was in use has changed, at every point of failure. What is not undone is
`curproc->guard_page`: it is set once the program is loaded, before the stack
is allocated and the arguments are copied, so that a process whose `exec`
fails then goes on with the guard page of a program it does not run. Arguments
of less than 32 megabytes are copied to pages below the end of the image or
refused at the devices: `exec` does not meet a page without a table.
-/

namespace Xv6.Vm

open Lib Kernel PageDir

/-- The process and the memory are as before a call: the process has its
directory, size, guard page, name and registers, no page that was in use has
changed, user memory included, and the free pages are the same. -/
structure Restored (k : Kmem) (p : Proc) (k' : Kmem) (p' : Proc) : Prop where
  proc : p' = p
  memory : Confined k.free k k'
  user : ∀ d, p.pgdir = some d → (∀ f ∈ d.userFrames, f ∉ k.free) →
    ∀ x < KERNBASE, d.byte k' x = d.byte k x
  free : k'.free = k.free

/-- If the file loads, its segments end where the guard page of the process is. -/
def SameGuard (L : Layout) (k : Kmem) (p : Proc) (ip : Option (List UInt8)) : Prop :=
  ∀ file, ip = some file → (∃ elf k1, execLoad L k file = .ok (some elf, k1)) →
    PGROUNDUP (grownTo 0 (segments file)) = p.guardPage

/-! ### Short arguments -/

theorem kmapEntry_device (L : Layout) {x : Nat} (hlo : DEVSPACE ≤ x) (hx : x < 2 ^ 32) :
    (kmapEntry (kmap L) x).isSome := by
  unfold kmapEntry
  rw [Option.isSome_map, List.find?_isSome]
  refine ⟨⟨DEVSPACE, DEVSPACE, 0, true⟩, by simp [kmap], ?_⟩
  have hsize : DEVSPACE + (⟨DEVSPACE, DEVSPACE, 0, true⟩ : Kmap).size = 2 ^ 32 := by decide
  simp only [hsize, hlo, hx, decide_true, Bool.and_self]

section

variable {L : Layout} {k : Kmem} {d : PageDir} {guard sz sp va n : Nat} {buf : List UInt8}

/-- Below the end of the image there are tables, and the devices are closed to user code. -/
theorem ExecImage.tabled (h : ExecImage d guard sz) (hkernel : d.KernelHalf L)
    (hva : va + n ≤ sz ∨ DEVSPACE ≤ va ∧ va < 2 ^ 32) : d.Tabled va n := by
  have htable {x : Nat} (hx : (d.entry x).isSome) : (d.pde (PDX x)).isSome := by
    obtain ⟨e, he⟩ := Option.isSome_iff_exists.mp hx
    obtain ⟨t, ht, _⟩ := d.table_of_entry he
    rw [ht]
    rfl
  intro x hlo hhi hbefore
  rcases hva with hle | ⟨hdev, hlt⟩
  · have hentry := h.entry x (by have := h.lt; omega)
    rw [if_pos (by simp only [PGROUNDDOWN, PGSIZE]; omega)] at hentry
    obtain ⟨f, hf⟩ := hentry
    exact htable (by rw [hf]; rfl)
  · have hge : KERNBASE ≤ va := by
      simp only [KERNBASE, DEVSPACE] at *
      omega
    have hpage : PDX x = PDX va := by
      by_contra hne
      refine hkernel.closed va hlt hge (hbefore va le_rfl ?_)
      simp only [PDX, PGROUNDDOWN, PGSIZE] at *
      omega
    rw [hpage]
    refine htable ?_
    rw [hkernel va hlt hge]
    exact kmapEntry_device L hdev hlt

theorem ExecImage.copyout_total (h : ExecImage d guard sz) (hkernel : d.KernelHalf L)
    (hnodup : d.userFrames.Nodup) (k : Kmem) (va : Nat) (hpos : 0 < buf.length)
    (hva : va + buf.length ≤ sz ∨ DEVSPACE ≤ va ∧ va < 2 ^ 32) :
    ∃ b k', copyout k d va buf = .ok (b, k') ∧ (b = true → va ≤ sz) := by
  have hlt : va < 2 ^ 32 := by
    have hsz := h.lt
    simp only [KERNBASE] at hsz
    omega
  have hresult := copyout_result hkernel.closed hnodup k buf hlt
  generalize copyout k d va buf = r at hresult
  cases hresult with
  | @copied k' hopen =>
    refine ⟨true, k', rfl, fun _ => ?_⟩
    rcases hva with hle | ⟨hdev, _⟩
    · omega
    · refine absurd (hopen va le_rfl (by omega)) (hkernel.closed va hlt ?_)
      simp only [KERNBASE, DEVSPACE] at *
      omega
  | @stopped k' => exact ⟨false, k', rfl, by simp⟩
  | crashed htables => exact absurd (h.tabled hkernel hva) htables

/-- Where the stack pointer is after a push: below, or it has wrapped to the devices. -/
theorem push_cases (hsp : sp < KERNBASE) (hn : n ≤ 2 ^ 25) :
    (sub32 sp n / 4 * 4 + n ≤ sp ∨ DEVSPACE ≤ sub32 sp n / 4 * 4 ∧ sub32 sp n / 4 * 4 < 2 ^ 32) ∧
    (sub32 sp n + n ≤ sp ∨ DEVSPACE ≤ sub32 sp n ∧ sub32 sp n < 2 ^ 32) := by
  simp only [sub32, u32, KERNBASE, DEVSPACE] at *
  omega

theorem ExecImage.pushArgs_total (h : ExecImage d guard sz) (hkernel : d.KernelHalf L)
    (hnodup : d.userFrames.Nodup) {argv : List (List UInt8)}
    (hargs : ∀ arg ∈ argv, arg.length < 2 ^ 25) (ustack : List Nat)
    (hlen : ustack.length ≤ MAXARG) (hsp : sp ≤ sz) (k : Kmem) :
    ∃ r k', pushArgs d argv ustack k sp = .ok (r, k') ∧
      ∀ args sp', r = some (args, sp') → sp' ≤ sz ∧ args.length ≤ MAXARG := by
  induction argv generalizing ustack sp k with
  | nil => exact ⟨_, k, rfl, by rintro _ _ ⟨⟩; exact ⟨hsp, hlen⟩⟩
  | cons arg rest ih =>
    rw [List.forall_mem_cons] at hargs
    unfold pushArgs
    split
    · exact ⟨none, k, rfl, by simp⟩
    · next hroom =>
      have hbuf : (arg ++ [0]).length = arg.length + 1 := by simp
      have hva := (push_cases (hsp.trans_lt h.lt) (show arg.length + 1 ≤ 2 ^ 25 by omega)).1
      obtain ⟨b, k1, hcopy, hle⟩ := h.copyout_total hkernel hnodup k
        (sub32 sp (arg.length + 1) / 4 * 4) (show 0 < (arg ++ [0]).length by simp)
        (by rw [hbuf]; omega)
      dsimp only
      rw [hcopy, ok_bind]
      cases b with
      | true =>
        exact ih hargs.2 _ (by rw [List.length_append, List.length_singleton]; omega) (hle rfl) k1
      | false => exact ⟨none, k1, rfl, by simp⟩

theorem ExecImage.pushStack_total (h : ExecImage d guard sz) (hkernel : d.KernelHalf L)
    (hnodup : d.userFrames.Nodup) {argv : List (List UInt8)}
    (hargs : ∀ arg ∈ argv, arg.length < 2 ^ 25) (hok : ∀ f ∈ d.pages, L.PageOk f) (k : Kmem) :
    ∃ r k', pushStack L k d sz argv = .ok (r, k') := by
  obtain ⟨r, k1, hpush, hbound⟩ := h.pushArgs_total hkernel hnodup hargs []
    (Nat.zero_le _) le_rfl k
  unfold pushStack
  rw [hpush, ok_bind]
  cases r with
  | none =>
    obtain ⟨k2, hfree⟩ := freevm_ok hok k1
    exact ⟨none, k2, bind_eq_ok.mpr ⟨_, hfree, rfl⟩⟩
  | some r =>
    obtain ⟨args, sp⟩ := r
    obtain ⟨hsp, hlen⟩ := hbound args sp rfl
    have hwords : (stackWords args sp).length = args.length + 4 := by
      simp [stackWords]
    have hva := (push_cases (n := (stackWords args sp).length * 4) (hsp.trans_lt h.lt) (by
      rw [hwords]
      unfold MAXARG at hlen
      omega)).2
    obtain ⟨b, k2, hcopy, _⟩ := h.copyout_total hkernel hnodup k1
      (sub32 sp ((stackWords args sp).length * 4)) (by rw [length_words, hwords]; omega)
      (by rw [length_words]; omega)
    dsimp only
    rw [hcopy, ok_bind]
    cases b with
    | true => exact ⟨_, k2, rfl⟩
    | false =>
      obtain ⟨k3, hfree⟩ := freevm_ok hok k2
      exact ⟨none, k3, bind_eq_ok.mpr ⟨_, hfree, rfl⟩⟩

end

/-- `exec` with short arguments returns: it comes to no panic and to no page without a table. -/
theorem exec_total {L : Layout} {k : Kmem} {p : Proc} {d : PageDir} (ip : Option (List UInt8))
    (path : List UInt8) (argv : List (List UInt8)) (hd : p.pgdir = some d)
    (hok : ∀ f ∈ d.pages + k.free, L.PageOk f) (hnodup : k.free.Nodup)
    (hargs : ∀ arg ∈ argv, arg.length < 2 ^ 25) :
    ∃ b p' k', exec L k p ip path argv = .ok (b, p', k') := by
  unfold exec
  cases ip with
  | none => exact ⟨false, p, k, rfl⟩
  | some ip =>
    have hfree : ∀ f ∈ k.free, L.PageOk f := fun f hf => hok f (Multiset.mem_add.mpr (Or.inr hf))
    obtain ⟨loaded, k1, hload⟩ := execLoad_total ip hfree
    dsimp only
    rw [hload, ok_bind]
    cases loaded with
    | none => exact ⟨false, p, k1, rfl⟩
    | some elf =>
      obtain ⟨hpages, hkernel, hdense, hsz⟩ := (execLoad_spec hload).2.2 elf rfl
      have hle := roundup_le hsz
      obtain ⟨stack, k2, hstack⟩ := allocStack_total (L := L) (k := k1) (hdense.roundup hsz) hle
        (Nat.mul_mod_left _ _) (hpages ▸ hfree)
      have hspec := allocStack_spec hstack (hdense.roundup hsz) hle (Nat.mul_mod_left _ _)
      have hend : ∃ r k3, execStack L k1 elf.pgdir (PGROUNDUP elf.sz) argv = .ok (r, k3) := by
        cases stack with
        | none => exact ⟨none, k2, by rw [execStack_eq, hstack]; rfl⟩
        | some stack =>
          obtain ⟨d2, sz⟩ := stack
          obtain ⟨d1, halloc, hclear, himage⟩ := hspec.2 d2 sz rfl
          have hguard : PGROUNDUP elf.sz < KERNBASE := by
            have hsize := himage.size
            have hlt := himage.lt
            omega
          have hrebuilt := (allocuvm_rebuilt halloc).trans (clearpteu_rebuilt hclear hguard k2)
          have hframes : d2.pages + k2.free = k.free := hrebuilt.pages.trans hpages
          rw [execStack_of_allocStack hstack]
          refine himage.pushStack_total (hrebuilt.kernel.kernelHalf hkernel) ?_ hargs
            (fun f hf => hfree f (hframes ▸ Multiset.mem_add.mpr (Or.inl hf))) k2
          rw [← hframes, PageDir.pages_eq] at hnodup
          exact (Multiset.nodup_add.mp (Multiset.nodup_add.mp hnodup).1).2.1
      obtain ⟨image, k3, himage⟩ := hend
      dsimp only
      rw [himage, ok_bind, hd]
      cases image with
      | none => exact ⟨false, _, k3, rfl⟩
      | some image =>
        obtain ⟨k4, hold⟩ := freevm_ok (fun f hf => hok f (Multiset.mem_add.mpr (Or.inl hf))) k3
        exact ⟨true, _, k4, bind_eq_ok.mpr ⟨_, hold, rfl⟩⟩

/-! ### Failure -/

theorem restored_iff {L : Layout} {k k' : Kmem} {p p' : Proc} {ip : Option (List UInt8)}
    {path : List UInt8} {argv : List (List UInt8)} (hnodup : k.free.Nodup)
    (h : exec L k p ip path argv = .ok (false, p', k')) :
    Restored k p k' p' ↔ SameGuard L k p ip := by
  have hsize {file : List UInt8} {elf : Loaded} {k1 : Kmem}
      (hload : execLoad L k file = .ok (some elf, k1)) : elf.sz = grownTo 0 (segments file) := by
    obtain ⟨_, _, _, hloaded⟩ := execLoad_segments hload hnodup
    exact hloaded.size
  obtain ⟨hfree, hmemory, hcases⟩ := exec_fails h
  have hrest (hproc : p' = p) : Restored k p k' p' :=
    ⟨hproc, hmemory, fun d _ hused x hx => hmemory.byte hused hx, hfree⟩
  obtain ⟨hproc, hunloaded⟩ | ⟨file, elf, k1, hip, hload, hproc⟩ := hcases
  · constructor
    · rintro _ file hip ⟨elf, k1, hload⟩
      exact absurd hload (hunloaded file elf k1 hip)
    · exact fun _ => hrest hproc
  · constructor
    · rintro hrestored file' hip' -
      cases hip.symm.trans hip'
      rw [← congrArg Proc.guardPage hrestored.proc, hproc, hsize hload]
    · intro hguard
      rw [hsize hload, hguard file hip ⟨elf, k1, hload⟩] at hproc
      exact hrest hproc

/-- With arguments of less than 32 megabytes `exec` returns, and if it returns -1, it has
restored everything exactly when the segments of its program, if it could load them, end where
the process has its guard page. -/
theorem exec_restores_iff {L : Layout} {k : Kmem} {p : Proc} {d : PageDir}
    (ip : Option (List UInt8)) (path : List UInt8) (argv : List (List UInt8))
    (hd : p.pgdir = some d) (hok : ∀ f ∈ d.pages + k.free, L.PageOk f) (hnodup : k.free.Nodup)
    (hargs : ∀ arg ∈ argv, arg.length < 2 ^ 25) :
    ∃ b p' k', exec L k p ip path argv = .ok (b, p', k') ∧
      (b = false → (Restored k p k' p' ↔ SameGuard L k p ip)) := by
  obtain ⟨b, p', k', h⟩ := exec_total ip path argv hd hok hnodup hargs
  refine ⟨b, p', k', h, ?_⟩
  rintro rfl
  exact restored_iff hnodup h

theorem copyout_closed {d : PageDir} {va : Nat} {buf : List UInt8} {e : Pte} (k : Kmem)
    (hpos : 0 < buf.length) (he : d.entry va = some e) (hu : e.u = false) :
    copyout k d va buf = .ok (false, k) := by
  have hpage : PGROUNDDOWN va / PGSIZE = va / PGSIZE := by
    simp only [PGROUNDDOWN, PGSIZE]
    omega
  obtain ⟨t, ht, hpte⟩ := d.table_of_entry ((d.entry_of_page hpage).trans he)
  unfold copyout
  obtain ⟨n, hn⟩ := Nat.exists_eq_succ_of_ne_zero hpos.ne'
  rw [hn, copyoutLoop, if_neg (List.ne_nil_of_length_pos hpos)]
  simp only [uva2ka, ht, hpte, hu]
  rfl

/-- An argument of one page ends in the guard page: `exec` fails. -/
theorem execStack_page_argument {L : Layout} {k : Kmem} {d : PageDir} {guard : Nat}
    {arg : List UInt8} (rest : List (List UInt8)) (hd : Dense d guard)
    (hguard : guard % PGSIZE = 0) (hlt : guard + 2 * PGSIZE < KERNBASE)
    (harg : arg.length = PGSIZE) (hok : ∀ f ∈ d.pages + k.free, L.PageOk f)
    (hfree : 4 ≤ k.freelist.length) :
    ∃ k', execStack L k d guard (arg :: rest) = .ok (none, k') := by
  obtain ⟨d1, k1, d2, halloc, hclear, himage, _⟩ := stackPages_ok L hd hguard hlt hfree
  have hsp : sub32 (guard + 2 * PGSIZE) (arg.length + 1) / 4 * 4 = guard + PGSIZE - 4 := by
    simp only [sub32, u32, PGSIZE, KERNBASE] at *
    omega
  obtain ⟨f, hf⟩ : ∃ f, d2.entry (guard + PGSIZE - 4) = some ⟨f, true, false⟩ := by
    have hentry := himage.entry (guard + PGSIZE - 4) (by omega)
    have hdown : PGROUNDDOWN (guard + PGSIZE - 4) = guard := by
      simp only [PGROUNDDOWN, PGSIZE] at *
      omega
    rw [hdown, if_pos (by simp only [PGSIZE]; omega)] at hentry
    simpa using hentry
  have hbuilt := (allocuvm_rebuilt halloc).trans (clearpteu_rebuilt hclear (by omega) k1)
  obtain ⟨k2, hfreevm⟩ := freevm_ok (L := L) (d := d2) (fun f hf => hok f (by
    rw [← hbuilt.pages]
    exact Multiset.mem_add.mpr (Or.inl hf))) k1
  refine ⟨k2, ?_⟩
  rw [execStack_of_allocStack (allocStack_eq hlt halloc hclear)]
  unfold pushStack pushArgs
  rw [if_neg (by decide), hsp]
  dsimp only
  rw [copyout_closed k1 (by simp) hf rfl, ok_bind]
  dsimp only
  rw [if_neg Bool.false_ne_true]
  exact bind_eq_ok.mpr ⟨_, rfl, bind_eq_ok.mpr ⟨_, hfreevm, rfl⟩⟩

/-- The first process, or any other, fails to run `tinyElf` with an argument of
one page. -/
theorem boot_exec_page_argument : ∃ κ0 : Kernel, ∃ elf : Loaded, ∃ k1 k,
    boot smallLayout 1 [0xEB, 0xFE] = .ok κ0 ∧
      execLoad smallLayout κ0.kmem tinyElf = .ok (some elf, k1) ∧ PGROUNDUP elf.sz = PGSIZE ∧
      ∀ p : Proc, exec smallLayout κ0.kmem p (some tinyElf) [105] [List.replicate PGSIZE 97] =
        .ok (false, { p with guardPage := PGSIZE }, k) := by
  obtain ⟨κ0, d, k1, hboot, hload, _, hok, hfree⟩ := boot_load_tinyElf
  obtain ⟨hpages, _, hdense, hsz⟩ := (execLoad_spec hload).2.2 _ rfl
  have hround : PGROUNDUP 1 = PGSIZE := by decide
  rw [← hpages] at hok
  have harg : (List.replicate PGSIZE (97 : UInt8)).length = PGSIZE := List.length_replicate
  obtain ⟨k, hstack⟩ := execStack_page_argument [] (hround ▸ hdense.roundup hsz) (by decide)
    (by decide) harg hok hfree
  refine ⟨κ0, _, k1, k, hboot, hload, hround, fun p => ?_⟩
  refine bind_eq_ok.mpr ⟨_, hload, bind_eq_ok.mpr ⟨_, hround ▸ hstack, ?_⟩⟩
  dsimp only
  rw [hround]
  rfl

/-- A live process has an address space of good pages. -/
theorem Kernel.Inv.exec_ready {L : Layout} {κ : Kernel} (h : κ.Inv L (handed L)) {p : Sched.Slot}
    (hlive : κ.Live p) : ∃ d, (κ.proc p).pgdir = some d ∧
      (∀ f ∈ d.pages + κ.kmem.free, L.PageOk f) ∧ κ.kmem.free.Nodup := by
  obtain ⟨_, d, _, hd, _⟩ := h.space hlive
  have hle := h.space_le hlive hd
  refine ⟨d, hd, fun f hf => handed_pageOk L f (Multiset.mem_coe.mp (Multiset.mem_of_le hle hf)), ?_⟩
  have hnodup := Multiset.nodup_of_le hle (Multiset.coe_nodup.mpr (handed_nodup L))
  exact (Multiset.nodup_add.mp hnodup).2.1

/-- A process with its guard page at 4096 is as before. -/
theorem exec_restores_page_argument : ∃ κ0 : Kernel, ∃ k, boot smallLayout 1 [0xEB, 0xFE] = .ok κ0 ∧
      Restored κ0.kmem { κ0.proc κ0.initproc with guardPage := PGSIZE } k
        { κ0.proc κ0.initproc with guardPage := PGSIZE } := by
  obtain ⟨κ0, elf, k1, k, hboot, hload, hround, hexec⟩ := boot_exec_page_argument
  obtain ⟨_, _, _, hproc, _⟩ := boot_first hboot
  obtain ⟨d, hd, hok, hnodup⟩ := (boot_spec hboot).1.exec_ready (p := κ0.initproc) (by
    unfold Live
    rw [hproc]
    rfl)
  obtain ⟨b, p', k', h, hrestores⟩ := exec_restores_iff
    (p := { κ0.proc κ0.initproc with guardPage := PGSIZE }) (some tinyElf) [105]
    [List.replicate PGSIZE 97] hd hok hnodup (by
      rw [List.forall_mem_singleton, List.length_replicate]
      decide)
  cases (hexec _).symm.trans h
  refine ⟨κ0, k, hboot, (hrestores rfl).mpr ?_⟩
  rintro file hfile -
  cases hfile
  change PGROUNDUP (grownTo 0 (segments tinyElf)) = PGSIZE
  decide

/-- The first process has no guard page; its failed `exec` leaves it with that
of `tinyElf`. -/
theorem exec_moves_guard : ∃ κ0 : Kernel, ∃ q k, boot smallLayout 1 [0xEB, 0xFE] = .ok κ0 ∧
    exec smallLayout κ0.kmem (κ0.proc κ0.initproc) (some tinyElf) [105]
      [List.replicate PGSIZE 97] = .ok (false, q, k) ∧
    (κ0.proc κ0.initproc).guardPage = 0 ∧ q.guardPage = PGSIZE := by
  obtain ⟨κ0, _, _, k, hboot, _, _, hexec⟩ := boot_exec_page_argument
  obtain ⟨kstack, d, _, hfirst, _⟩ := boot_first hboot
  refine ⟨κ0, _, k, hboot, hexec _, ?_, rfl⟩
  rw [hfirst]
  rfl

end Xv6.Vm

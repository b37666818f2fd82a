import Xv6.Syscall.UserAccess

/-!
Which locks are held where the kernel touches user memory: none, one pipe's,
or `ptable.lock` in `wait`, and none of these is taken by the page fault
handler. The console is different. `consoleread` and `consolewrite` touch the
buffer with `cons.lock` held, and the handler prints.
-/

namespace Xv6.Syscall

open Lib LockState Relation Finset
open Vm (PGSIZE)

/-- The locks that the page fault handler takes. -/
def faultLocks : Finset Lock := {.cons, .kmem}

variable {lk : Lock} {n buf dst addr : Nat}

section

variable {M : Set Nat} {H : Finset Lock}

theorem not_mem_of_disjoint (h : Disjoint H faultLocks) : Lock.cons ∉ H ∧ Lock.kmem ∉ H := by
  rw [disjoint_right] at h
  exact ⟨h (by decide), h (by decide)⟩

/-- The handler can run with any locks held but the two it takes, and gives them back. -/
theorem keeps_pageFault (h : Disjoint H faultLocks) (page : Nat) :
    Keeps faultLocks M H (pageFault page) H := by
  obtain ⟨hcons, hkmem⟩ := not_mem_of_disjoint h
  have halloc : Keeps faultLocks M H kalloc H := .crit hkmem
  have hfree : Keeps faultLocks M H kfree H := .crit hkmem
  have hprint : Keeps faultLocks M H cprintf H := .crit hcons
  refine .alt_skip (.cons halloc (.cons (.alt hprint (.alt ?_ ?_)) .nil))
  · exact .cons halloc (.cons hprint (.cons hfree .nil))
  · exact .cons (.alt_skip halloc) (.cons (.map H page) (.cons hprint .nil))

/-- User memory can be touched where it is mapped, or without a lock of the handler. -/
theorem keeps_bytes (addr n : Nat)
    (h : (∀ i < n, (addr + i) / PGSIZE ∈ M) ∨ Disjoint H faultLocks) :
    Keeps faultLocks M H (bytes addr n) H := by
  refine .block_of_forall fun a ha => ?_
  obtain ⟨i, hi, rfl⟩ := List.mem_map.mp ha
  exact .access H _ (h.imp_left fun hM => hM i (List.mem_range.mp hi))

/-- `sleep` gives up the processor with `ptable.lock` alone. -/
theorem keeps_sleep (hlk : lk ≠ .ptable) : Keeps faultLocks M {lk} (sleep lk) {lk} := by
  have hne : Lock.ptable ∉ ({lk} : Finset Lock) := by simpa using hlk.symm
  refine .cons (.acquire _ _ hne) (.cons (.release _ lk (by simp)) ?_)
  have herase : (insert Lock.ptable {lk} : Finset Lock).erase lk = {.ptable} := by
    ext l
    simp only [mem_erase, mem_insert, mem_singleton]
    constructor
    · rintro ⟨hl, rfl | rfl⟩
      · rfl
      · exact absurd rfl hl
    · rintro rfl
      exact ⟨hlk.symm, .inl rfl⟩
  rw [herase]
  refine .cons (.sched _ _ rfl) (.cons (.release _ _ (by simp)) ?_)
  exact .cons (.acquire _ lk (by simp)) (by simpa using .nil)

theorem keeps_acquire (l : Lock) : Keeps faultLocks M ∅ (.acquire l) {l} := by
  simpa using Keeps.acquire (C := Nat) (F := faultLocks) (M := M) ∅ l (by simp)

theorem keeps_release (l : Lock) : Keeps faultLocks M {l} (.release l) ∅ := by
  simpa using Keeps.release (C := Nat) (F := faultLocks) (M := M) {l} l (by simp)

theorem keeps_wakeup (hH : Lock.ptable ∉ H) : Keeps faultLocks M H wakeup H := .crit hH

end

/-- Without a lock at both ends. -/
abbrev Quiet (M : Set Nat) (a : Code) : Prop := Keeps faultLocks M ∅ a ∅

section

variable {M : Set Nat}

theorem quiet_crit (l : Lock) : Quiet M (.crit l) := .crit (by simp)

theorem quiet_block {l : List Code} (h : ∀ a ∈ l, Quiet M a) : Quiet M (.block l) :=
  .block_of_forall h

theorem quiet_bytes (addr n : Nat) : Quiet M (bytes addr n) :=
  keeps_bytes addr n (Or.inr (disjoint_empty_left _))

theorem quiet_byte (addr : Nat) : Quiet M (byte addr) :=
  .access _ _ (Or.inr (disjoint_empty_left _))

theorem quiet_acquiresleep (hlk : lk ≠ .ptable) : Quiet M (acquiresleep lk) :=
  .cons (keeps_acquire lk)
    (.cons (.loop (keeps_sleep hlk)) (.cons (keeps_release lk) .nil))

theorem quiet_releasesleep (hlk : lk ≠ .ptable) : Quiet M (releasesleep lk) :=
  .cons (keeps_acquire lk)
    (.cons (keeps_wakeup (by simpa using hlk.symm))
      (.cons (keeps_release lk) .nil))

theorem quiet_iderw (b : Nat) : Quiet M (iderw b) :=
  .cons (quiet_crit _) (.cons (keeps_acquire _)
    (.cons (.loop (keeps_sleep nofun)) (.cons (keeps_release _) .nil)))

theorem quiet_bread (b : Nat) : Quiet M (bread b) :=
  .cons (.cons (quiet_crit _) (.cons (quiet_acquiresleep nofun) .nil))
    (.cons (.alt_skip (quiet_iderw b)) .nil)

theorem quiet_bwrite (b : Nat) : Quiet M (bwrite b) :=
  .cons (quiet_crit _) (.cons (quiet_iderw b) .nil)

theorem quiet_brelse (b : Nat) : Quiet M (brelse b) :=
  .cons (quiet_crit _)
    (.cons (quiet_releasesleep nofun) (.cons (quiet_crit _) .nil))

theorem quiet_copyBlocks : Quiet M copyBlocks :=
  .loop (.any fun b => .any fun c => .cons (quiet_bread b) (.cons (quiet_bread c)
    (.cons (quiet_bwrite b) (.cons (quiet_brelse b)
      (.cons (quiet_brelse c) .nil)))))

theorem quiet_writeHead : Quiet M writeHead :=
  .any fun b => .cons (quiet_bread b)
    (.cons (quiet_bwrite b) (.cons (quiet_brelse b) .nil))

theorem quiet_commit : Quiet M commit :=
  .alt_skip (.cons quiet_copyBlocks (.cons quiet_writeHead
    (.cons quiet_copyBlocks (.cons quiet_writeHead .nil))))

theorem quiet_beginOp : Quiet M beginOp :=
  .cons (keeps_acquire _)
    (.cons (.loop (keeps_sleep nofun)) (.cons (keeps_release _) .nil))

theorem quiet_endOp : Quiet M endOp := by
  have hwakeup : Keeps faultLocks M {.log} wakeup {.log} := keeps_wakeup (by simp)
  refine .cons (keeps_acquire _) (.cons (.alt_skip hwakeup)
    (.cons (keeps_release _) (.cons (.alt_skip ?_) .nil)))
  exact .cons quiet_commit (.cons (keeps_acquire _)
    (.cons hwakeup (.cons (keeps_release _) .nil)))

theorem quiet_readBlock : Quiet M readBlock :=
  .any fun b => .cons (quiet_bread b) (.cons (quiet_brelse b) .nil)

theorem quiet_updateBlock : Quiet M updateBlock :=
  .any fun b => .cons (quiet_bread b)
    (.cons (quiet_crit _) (.cons (quiet_brelse b) .nil))

theorem quiet_balloc : Quiet M balloc :=
  .cons (.loop quiet_readBlock)
    (.cons quiet_updateBlock (.cons quiet_updateBlock .nil))

theorem quiet_bfree : Quiet M bfree :=
  .cons quiet_readBlock (.cons quiet_updateBlock .nil)

theorem quiet_bmap : Quiet M bmap := by
  refine .alt (.alt_skip quiet_balloc) (.cons (.alt_skip quiet_balloc)
    (.cons (.any fun b => ?_) .nil))
  exact .cons (quiet_bread b) (.cons
    (.alt_skip (.cons quiet_balloc (.cons (quiet_crit _) .nil)))
    (.cons (quiet_brelse b) .nil))

theorem quiet_itrunc : Quiet M itrunc := by
  refine .cons (.loop quiet_bfree) (.cons (.alt_skip ?_)
    (.cons quiet_updateBlock .nil))
  exact .cons (.any fun b => .cons (quiet_bread b)
    (.cons (.loop quiet_bfree) (.cons (quiet_brelse b) .nil)))
    (.cons quiet_bfree .nil)

theorem quiet_ilock (i : Nat) : Quiet M (ilock i) :=
  .cons (quiet_acquiresleep nofun) (.cons (.alt_skip quiet_readBlock) .nil)

theorem quiet_iunlock (i : Nat) : Quiet M (iunlock i) :=
  .cons (quiet_crit _) (.cons (quiet_releasesleep nofun) .nil)

theorem quiet_iput (i : Nat) : Quiet M (iput i) := by
  refine .cons (quiet_acquiresleep nofun) (.cons (.alt_skip ?_)
    (.cons (quiet_releasesleep nofun) (.cons (quiet_crit _) .nil)))
  exact .cons (quiet_crit _) (.cons
    (.alt_skip (.cons quiet_itrunc (.cons quiet_updateBlock .nil))) .nil)

theorem quiet_iunlockput (i : Nat) : Quiet M (iunlockput i) :=
  .cons (quiet_iunlock i) (.cons (quiet_iput i) .nil)

theorem keeps_leave (i : Nat) : Keeps faultLocks M {.cons} (.block [.release .cons, ilock i]) ∅ :=
  .cons (keeps_release _) (.cons (quiet_ilock i) .nil)

/-- With the buffer mapped no byte that is stored under `cons.lock` faults. -/
theorem keeps_consolereadLoop (i : Nat) (h : ∀ j < n, (dst + j) / PGSIZE ∈ M) :
    Keeps faultLocks M {.cons} (consolereadLoop i dst n) ∅ := by
  induction n generalizing dst with
  | zero => exact keeps_leave i
  | succ n ih =>
    have hrest : ∀ j < n, (dst + 1 + j) / PGSIZE ∈ M := by
      intro j hj
      have hj' := h (j + 1) (by omega)
      rwa [show dst + (j + 1) = dst + 1 + j by omega] at hj'
    have hbyte : Keeps faultLocks M {.cons} (byte dst) {.cons} :=
      .access _ _ (Or.inl (h 0 (by omega)))
    exact .cons (.loop (keeps_sleep nofun)) (.cons (.alt (keeps_leave i)
      (.cons hbyte (.cons (.alt (keeps_leave i) (ih hrest)) .nil))) .nil)

theorem quiet_consoleread (i : Nat) (h : ∀ j < n, (dst + j) / PGSIZE ∈ M) :
    Quiet M (consoleread i dst n) :=
  .cons (quiet_iunlock i) (.cons (keeps_acquire _)
    (.cons (keeps_consolereadLoop i h) .nil))

theorem quiet_consolewrite (i : Nat) (h : ∀ j < n, (buf + j) / PGSIZE ∈ M) :
    Quiet M (consolewrite i buf n) :=
  .cons (quiet_iunlock i) (.cons (keeps_acquire _)
    (.cons (keeps_bytes buf n (Or.inl h)) (keeps_leave i)))

theorem quiet_readiLoop (dst off n : Nat) : Quiet M (readiLoop dst off n) := by
  fun_induction readiLoop dst off n with
  | case1 => exact .skip _
  | case2 dst off n _ ih =>
    refine .cons quiet_bmap (.cons (.any fun b => ?_) (.cons ih .nil))
    exact .cons (quiet_bread b)
      (.cons (quiet_bytes _ _) (.cons (quiet_brelse b) .nil))

theorem quiet_readi (dst off n : Nat) : Quiet M (readi dst off n) := by
  refine .any fun size => ?_
  split
  · exact .skip _
  · exact quiet_readiLoop _ _ _

theorem quiet_writeiLoop (src off n : Nat) : Quiet M (writeiLoop src off n) := by
  fun_induction writeiLoop src off n with
  | case1 => exact .skip _
  | case2 src off n _ ih =>
    refine .cons quiet_bmap (.cons (.any fun b => ?_) (.cons ih .nil))
    exact .cons (quiet_bread b) (.cons (quiet_bytes _ _)
      (.cons (quiet_crit _) (.cons (quiet_brelse b) .nil)))

theorem quiet_writei (src off n : Nat) : Quiet M (writei src off n) :=
  .alt_skip (.cons (quiet_writeiLoop src off n)
    (.cons (.alt_skip quiet_updateBlock) .nil))

theorem pipe_disjoint (p : Nat) : Disjoint {Lock.pipe p} faultLocks := by
  simp [faultLocks]

/-- The bytes of a write to a pipe may fault: `p->lock` is not a lock of the handler. -/
theorem keeps_pipewriteLoop (p addr n : Nat) :
    Keeps faultLocks M {.pipe p} (pipewriteLoop p addr n) ∅ := by
  have hwakeup : Keeps faultLocks M {.pipe p} wakeup {.pipe p} := keeps_wakeup (by simp)
  induction n generalizing addr with
  | zero => exact .cons hwakeup (.cons (keeps_release _) .nil)
  | succ n ih =>
    refine .cons (.loop (.cons hwakeup (.cons (keeps_sleep nofun) .nil)))
      (.cons (.alt (keeps_release _) ?_) .nil)
    exact .cons (.access _ _ (Or.inr (pipe_disjoint p))) (.cons (ih _) .nil)

theorem quiet_piperead (p addr n : Nat) : Quiet M (piperead p addr n) := by
  refine .cons (keeps_acquire _) (.cons (.loop (keeps_sleep nofun))
    (.cons (.alt (keeps_release _) ?_) .nil))
  exact .cons (.any fun k => keeps_bytes _ _ (Or.inr (pipe_disjoint p)))
    (.cons (keeps_wakeup (by simp)) (.cons (keeps_release _) .nil))

/-- A write in pieces that are all quiet. -/
theorem quiet_filewriteLoop (i : Nat) {piece : Nat → Nat → Code}
    (h : ∀ a m, addr ≤ a → a + m ≤ addr + n → Quiet M (piece a m)) :
    Quiet M (filewriteLoop i piece addr n) := by
  fun_induction filewriteLoop i piece addr n with
  | case1 => exact .skip _
  | case2 addr n hn ih =>
    have hpiece := h addr (min n writeMax) le_rfl (by omega)
    have hrest := ih fun a m ha hm => h a m (by omega) (by omega)
    exact .cons quiet_beginOp (.cons (quiet_ilock i) (.cons hpiece
      (.cons (quiet_iunlock i) (.cons quiet_endOp
        (.cons (.alt_skip hrest) .nil)))))

theorem quiet_fileclose : Quiet M fileclose := by
  refine .cons (quiet_crit _) (.cons (.alt_skip (.alt (.any fun p => ?_)
    (.any fun i => ?_))) .nil)
  · exact .cons (keeps_acquire _) (.cons (keeps_wakeup (by simp))
      (.cons (keeps_release _) (.cons (.alt_skip (quiet_crit _)) .nil)))
  · exact .cons quiet_beginOp (.cons (quiet_iput i) (.cons quiet_endOp .nil))

theorem quiet_sysPipe (fd : Nat) : Quiet M (sysPipe fd) := by
  refine .cons (quiet_crit _) (.cons (quiet_crit _) (.cons (quiet_crit _)
    (.cons (.alt ?_ ?_) .nil)))
  · exact .cons (.alt_skip (quiet_crit _))
      (.cons quiet_fileclose (.cons quiet_fileclose .nil))
  · exact .cons (quiet_bytes _ _) (.cons (quiet_bytes _ _) .nil)

theorem quiet_wait (status : Nat) : Quiet M (wait status) := by
  have hdisjoint : Disjoint {Lock.ptable} faultLocks := by decide
  have hfree : Keeps faultLocks M {.ptable} kfree {.ptable} := .crit (by simp)
  refine .cons (keeps_acquire _) (.cons (.loop (.sched _ _ rfl))
    (.cons (.alt (keeps_release _) ?_) .nil))
  exact .cons (keeps_bytes _ _ (Or.inr hdisjoint)) (.cons hfree
    (.cons (.loop hfree) (.cons (keeps_release _) .nil)))

theorem quiet_stati (st : Nat) : Quiet M (stati st) :=
  .cons (quiet_bytes _ _) (.cons (quiet_bytes _ _) (.cons (quiet_bytes _ _)
    (.cons (quiet_bytes _ _) (.cons (quiet_bytes _ _) .nil))))

theorem quiet_pathByte (path : Nat) : Quiet M (pathByte path) := .any fun _ => quiet_byte _

theorem quiet_readKernel : Quiet M readKernel :=
  .loop (.cons quiet_bmap (.cons quiet_readBlock .nil))

theorem quiet_namei (path : Nat) : Quiet M (namei path) := by
  refine .cons (quiet_pathByte _) (.cons (quiet_crit _)
    (.cons (.loop (.any fun i => ?_)) (.cons (.loop (quiet_pathByte _)) .nil)))
  refine .cons (.loop (quiet_pathByte _)) (.cons (quiet_ilock i)
    (.cons (.alt (quiet_iunlockput i) ?_) .nil))
  exact .cons (quiet_pathByte _) (.cons quiet_readKernel
    (.cons (.alt_skip (quiet_crit _)) (.cons (quiet_iunlockput i) .nil)))

theorem quiet_sysExec (path uargv : Nat) : Quiet M (sysExec path uargv) := by
  have hargs (argc : Nat) : Quiet M (.block ((List.range argc).map fun i =>
      .block [bytes (uargv + 4 * i) 4, .any fun uarg => .any fun n => bytes uarg n])) := by
    refine quiet_block fun a ha => ?_
    obtain ⟨i, _, rfl⟩ := List.mem_map.mp ha
    exact .cons (quiet_bytes _ _)
      (.cons (.any fun _ => .any fun _ => quiet_bytes _ _) .nil)
  refine .cons (.any fun _ => quiet_bytes _ _) (.cons (.any hargs)
    (.cons quiet_beginOp (.cons (quiet_namei _) (.cons (.alt ?_
      (.any fun i => ?_)) .nil))))
  · exact .cons quiet_endOp (.cons (quiet_crit _) .nil)
  · have hload : Quiet M (.loop (.block [readKernel, .loop kalloc, .loop kfree])) :=
      .loop (.cons quiet_readKernel (.cons (.loop (quiet_crit _))
        (.cons (.loop (quiet_crit _)) .nil)))
    have hpush : Quiet M (.loop (.any fun arg => .any fun n =>
        .block [bytes arg n, .loop kalloc])) :=
      .loop (.any fun _ => .any fun _ =>
        .cons (quiet_bytes _ _) (.cons (.loop (quiet_crit _)) .nil))
    exact .cons (quiet_ilock i) (.cons hload (.cons (quiet_iunlockput i)
      (.cons quiet_endOp (.cons (.loop (quiet_crit _)) (.cons hpush
        (.cons (.loop (quiet_pathByte _))
          (.cons (.loop (quiet_crit _)) .nil)))))))

end

section

variable {M : Set Nat} {k : List Code}

/-- The handler runs with `cons.lock` held: it finds a page, maps it and
prints. -/
theorem doomed_byte (haddr : addr / PGSIZE ∉ M) :
    Doomed pageFault ⟨{.cons}, M, byte addr :: k⟩ := by
  have halloc : Keeps faultLocks M {.cons} kalloc {.cons} := .crit (by decide)
  refine .of_step (.fault _ M k _ haddr) (.of_step (.right _ M _ _ _) (.of_step (.seq _ M _ _ _) ?_))
  refine .of_run (halloc.run ⟨trivial, trivial⟩) (.of_step (.seq _ M _ _ _) ?_)
  refine .of_step (.right _ M _ _ _) (.of_step (.right _ M _ _ _) (.of_step (.seq _ M _ _ _) ?_))
  refine .of_step (.left _ M _ _ _) (.of_step (.skip _ M _) (.of_step (.seq _ M _ _ _) ?_))
  refine .of_step (.map _ M _ _) (.of_step (.seq _ _ _ _ _) (.of_step (.seq _ _ _ _ _) ?_))
  exact doomed_acquire (by decide)

/-- The bytes in front of the first one whose page is missing do not matter. -/
theorem doomed_block {l : List Nat} (h : ∃ addr ∈ l, addr / PGSIZE ∉ M) :
    Doomed pageFault ⟨{.cons}, M, .block (l.map byte) :: k⟩ := by
  induction l with
  | nil => simp at h
  | cons a rest ih =>
    refine .of_step (.seq _ M _ _ _) ?_
    by_cases ha : a / PGSIZE ∈ M
    · refine .of_step (.hit _ M _ _ ha) (ih ?_)
      simpa [ha] using h
    · exact doomed_byte ha

theorem doomed_bytes (h : ∃ i < n, (addr + i) / PGSIZE ∉ M) :
    Doomed pageFault ⟨{.cons}, M, bytes addr n :: k⟩ := by
  have hmap : bytes addr n = .block (((List.range n).map (addr + ·)).map byte) := by
    rw [List.map_map]
    rfl
  rw [hmap]
  obtain ⟨i, hi, hnot⟩ := h
  exact doomed_block ⟨addr + i, List.mem_map.mpr ⟨i, List.mem_range.mpr hi, rfl⟩, hnot⟩

/-- The loop comes to the missing page with `cons.lock` held. -/
theorem doomed_consolereadLoop (i : Nat) (h : ∃ j < n, (dst + j) / PGSIZE ∉ M) :
    Doomed pageFault ⟨{.cons}, M, consolereadLoop i dst n :: k⟩ := by
  induction n generalizing dst k with
  | zero => simp at h
  | succ n ih =>
    refine .of_step (.seq _ M _ _ _) (.of_step (.done _ M _ _) (.of_step (.seq _ M _ _ _) ?_))
    refine .of_step (.right _ M _ _ _) (.of_step (.seq _ M _ _ _) ?_)
    by_cases hdst : dst / PGSIZE ∈ M
    · obtain ⟨j, hj, hnot⟩ := h
      have hne : j ≠ 0 := by
        rintro rfl
        exact hnot hdst
      refine .of_step (.hit _ M _ _ hdst) (.of_step (.seq _ M _ _ _) ?_)
      refine .of_step (.right _ M _ _ _) ?_
      exact ih ⟨j - 1, by omega, by rwa [show dst + 1 + (j - 1) = dst + j by omega]⟩
    · exact doomed_byte hdst

theorem direct_iunlock (i : Nat) : (iunlock i).Direct M := by
  simp [iunlock, holdingsleep, releasesleep, wakeup, Cmd.block, Cmd.crit, Cmd.Direct]

theorem direct_ilock (i : Nat) : (ilock i).Direct M := by
  simp [ilock, acquiresleep, Cmd.block, Cmd.Direct]

theorem direct_beginOp : beginOp.Direct M := by
  simp [beginOp, Cmd.block, Cmd.Direct]

theorem direct_endOp : endOp.Direct M := by
  simp [endOp, Cmd.block, Cmd.Direct]

theorem direct_consolewrite (i : Nat) (h : ∀ j < n, (buf + j) / PGSIZE ∈ M) :
    (consolewrite i buf n).Direct M := by
  have hbytes : (bytes buf n).Direct M := by
    refine .block_of_forall fun a ha => ?_
    obtain ⟨j, hj, rfl⟩ := List.mem_map.mp ha
    exact h j (List.mem_range.mp hj)
  exact ⟨direct_iunlock i, trivial, hbytes, trivial, direct_ilock i, trivial⟩

theorem doomed_consolewrite (i : Nat) (h : ∃ j < n, (buf + j) / PGSIZE ∉ M) :
    Doomed pageFault ⟨∅, M, consolewrite i buf n :: k⟩ := by
  refine .of_step (.seq _ M _ _ _) (.of_run ((quiet_iunlock i).run (direct_iunlock i)) ?_)
  refine .of_step (.seq _ M _ _ _) (.of_run ((keeps_acquire .cons).run trivial) ?_)
  exact .of_step (.seq _ M _ _ _) (doomed_bytes h)

theorem doomed_consoleread (i : Nat) (h : ∃ j < n, (dst + j) / PGSIZE ∉ M) :
    Doomed pageFault ⟨∅, M, consoleread i dst n :: k⟩ := by
  refine .of_step (.seq _ M _ _ _) (.of_run ((quiet_iunlock i).run (direct_iunlock i)) ?_)
  refine .of_step (.seq _ M _ _ _) (.of_run ((keeps_acquire .cons).run trivial) ?_)
  exact .of_step (.seq _ M _ _ _) (doomed_consolereadLoop i h)

/-- The pieces in front of the one with the missing page are written. -/
theorem doomed_filewriteLoop (i : Nat) (h : ∃ j < n, (addr + j) / PGSIZE ∉ M) :
    Doomed pageFault ⟨∅, M, filewriteLoop i (consolewrite i) addr n :: k⟩ := by
  fun_induction filewriteLoop i (consolewrite i) addr n generalizing k with
  | case1 => simp at h
  | case2 addr n hn ih =>
    refine .of_step (.seq _ M _ _ _) (.of_run (quiet_beginOp.run direct_beginOp) ?_)
    refine .of_step (.seq _ M _ _ _) (.of_run ((quiet_ilock i).run (direct_ilock i)) ?_)
    refine .of_step (.seq _ M _ _ _) ?_
    by_cases hpiece : ∀ j < min n writeMax, (addr + j) / PGSIZE ∈ M
    · have hrest : ∃ j < n - min n writeMax, (addr + min n writeMax + j) / PGSIZE ∉ M := by
        obtain ⟨j, hj, hnot⟩ := h
        have hge : min n writeMax ≤ j := by
          by_contra hlt
          exact hnot (hpiece j (by omega))
        refine ⟨j - min n writeMax, by omega, ?_⟩
        rwa [show addr + min n writeMax + (j - min n writeMax) = addr + j by omega]
      refine .of_run ((quiet_consolewrite i hpiece).run (direct_consolewrite i hpiece)) ?_
      refine .of_step (.seq _ M _ _ _) (.of_run ((quiet_iunlock i).run (direct_iunlock i)) ?_)
      refine .of_step (.seq _ M _ _ _) (.of_run (quiet_endOp.run direct_endOp) ?_)
      exact .of_step (.seq _ M _ _ _) (.of_step (.right _ M _ _ _) (ih hrest))
    · push Not at hpiece
      exact doomed_consolewrite i hpiece

end

/-- The buffer of a read from or a write to the console is mapped. -/
def Call.ConsoleMapped (M : Set Nat) : Call → Prop
  | .read (.console _) addr n => ∀ j < n, (addr + j) / PGSIZE ∈ M
  | .write (.console _) addr n => ∀ j < n, (addr + j) / PGSIZE ∈ M
  | _ => True

/-- Each call, with the pages of a console buffer mapped. -/
theorem Call.quiet {c : Call} {M : Set Nat} (h : c.ConsoleMapped M) : Quiet M c.code := by
  cases c with
  | fetch addr n => exact quiet_bytes addr n
  | read f addr n =>
    cases f with
    | pipe p => exact quiet_piperead p addr n
    | file i off =>
      exact .cons (quiet_ilock i) (.cons (quiet_readi addr off n)
        (.cons (quiet_iunlock i) .nil))
    | console i =>
      exact .cons (quiet_ilock i) (.cons (quiet_consoleread i h)
        (.cons (quiet_iunlock i) .nil))
  | write f addr n =>
    cases f with
    | pipe p =>
      exact .cons (keeps_acquire _) (.cons (keeps_pipewriteLoop p addr n) .nil)
    | file i off => exact quiet_filewriteLoop i fun a m _ _ => quiet_writei _ _ _
    | console i =>
      refine quiet_filewriteLoop i fun a m ha hm => quiet_consolewrite i fun j hj => ?_
      have hj' := h (a - addr + j) (by omega)
      rwa [show addr + (a - addr + j) = a + j by omega] at hj'
  | pipe fd => exact quiet_sysPipe fd
  | wait status => exact quiet_wait status
  | fstat f st =>
    have hstat (i : Nat) : Quiet M (.block [ilock i, stati st, iunlock i]) := .cons (quiet_ilock i)
        (.cons (quiet_stati st) (.cons (quiet_iunlock i) .nil))
    cases f with
    | pipe => exact .skip _
    | file i => exact hstat i
    | console i => exact hstat i
  | date r => exact .cons (quiet_bytes _ _) (.cons (quiet_bytes _ _) .nil)
  | exec path uargv => exact quiet_sysExec path uargv

/-- A call with a console buffer that has a page missing. -/
theorem Call.doomed {c : Call} {M : Set Nat} (h : ¬ c.ConsoleMapped M) :
    Doomed pageFault ⟨∅, M, [c.code]⟩ := by
  cases c with
  | read f addr n =>
    cases f with
    | console i =>
      simp only [ConsoleMapped, not_forall, exists_prop] at h
      refine .of_step (.seq _ M _ _ _) (.of_run ((quiet_ilock i).run (direct_ilock i)) ?_)
      exact .of_step (.seq _ M _ _ _) (doomed_consoleread i h)
    | _ => exact absurd trivial h
  | write f addr n =>
    cases f with
    | console i =>
      simp only [ConsoleMapped, not_forall, exists_prop] at h
      exact doomed_filewriteLoop i h
    | _ => exact absurd trivial h
  | _ => exact absurd trivial h

/-- The kernel can touch user memory that is not yet mapped, in every call and
whatever pages are missing, but for the buffer of the console. -/
theorem Call.safe_iff (c : Call) (M : Set Nat) :
    Safe pageFault ⟨∅, M, [c.code]⟩ ↔ c.ConsoleMapped M := by
  constructor
  · intro hsafe
    by_contra hnot
    exact (doomed hnot).not_safe hsafe
  · intro h
    exact (quiet h).safe fun _ page hdisjoint => keeps_pageFault hdisjoint page

/-- One byte to the console, from a page that `sbrk` has granted and that was
never touched. -/
theorem console_write_panics :
    ¬ Safe pageFault ⟨∅, ∅, [(Call.write (.console 0) PGSIZE 1).code]⟩ := by
  refine (Call.doomed fun h => ?_).not_safe
  exact h 0 Nat.one_pos

end Xv6.Syscall

import Xv6.Lib.Bytes
import Xv6.Vm.Access
import Xv6.Vm.Clone
import Xv6.Vm.Guard
import Xv6.Vm.Tables

/-!
`copyout` seen from user memory. It goes through a buffer page by page and
stops at the first page that user code could not access. `uva2ka` reads the
entry of that page without a look at whether there is a table for it: then it
dereferences a null pointer instead of returning.
-/

namespace Xv6.Vm

open Finset Lib Kernel List Multiset

variable {m x va : Nat} {d : PageDir} {buf : List UInt8} {k : Kmem}

namespace PageDir

theorem entry_of_page (d : PageDir) {y : Nat} (h : x / PGSIZE = y / PGSIZE) :
    d.entry x = d.entry y := by
  have hpdx : PDX x = PDX y := by
    simp only [PDX, PGSIZE] at *
    omega
  have hptx : PTX x = PTX y := by
    simp only [PTX, PGSIZE] at *
    omega
  unfold entry
  rw [hpdx, hptx]

theorem UserOk.of_page {y : Nat} (hx : d.UserOk x) (h : x / PGSIZE = y / PGSIZE) : d.UserOk y := by
  obtain ⟨e, he, hu⟩ := hx
  exact ⟨e, (d.entry_of_page h) ▸ he, hu⟩

theorem UserOk.table (h : d.UserOk x) : (d.pde (PDX x)).isSome := by
  obtain ⟨e, he, _⟩ := h
  obtain ⟨t, ht, _⟩ := d.table_of_entry he
  rw [ht]
  rfl

/-- The first page of the range that is not open to user code, if there is one,
has a page table. -/
def Tabled (d : PageDir) (va len : Nat) : Prop :=
  ∀ x, va ≤ x → x < va + len → (∀ y, va ≤ y → PGROUNDDOWN y < PGROUNDDOWN x → d.UserOk y) →
    (d.pde (PDX x)).isSome

theorem Tabled.of_open {len : Nat} (h : d.Open va (va + len)) : d.Tabled va len :=
  fun x hlo hhi _ => UserOk.table (h x hlo hhi)

theorem Open.cons {i : Nat} (hva : d.UserOk va)
    (hm : ∀ x, va ≤ x → x < va + m → x / PGSIZE = va / PGSIZE) :
    d.Open va i ↔ d.Open (va + m) i := by
  constructor
  · intro h x hlo hhi
    exact h x (by omega) hhi
  · intro h x hlo hhi
    by_cases hin : x < va + m
    · exact hva.of_page (hm x hlo hin).symm
    · exact h x (by omega) hhi

theorem Tabled.cons {len : Nat} (hva : d.UserOk va)
    (hm : ∀ x, va ≤ x → x < va + m → x / PGSIZE = va / PGSIZE) (hle : m ≤ len) :
    d.Tabled va len ↔ d.Tabled (va + m) (len - m) := by
  constructor
  · intro h x hlo hhi hbefore
    refine h x (by omega) (by omega) fun y hy hlt => ?_
    by_cases hin : y < va + m
    · exact hva.of_page (hm y hy hin).symm
    · exact hbefore y (by omega) hlt
  · intro h x hlo hhi hbefore
    by_cases hin : x < va + m
    · exact (hva.of_page (hm x hlo hin).symm).table
    · exact h x (by omega) (by omega) fun y hy hlt => hbefore y (by omega) hlt

theorem byte_write (hnodup : d.userFrames.Nodup) {a : Nat} (ha : a < KERNBASE)
    {e : Pte} (he : d.entry a = some e) (k : Kmem)
    (hfit : a % PGSIZE + buf.length ≤ PGSIZE) (hx : x < KERNBASE) :
    d.byte (k.write e.addr (a % PGSIZE) buf) x = store (d.byte k) a buf x := by
  by_cases hpage : x / PGSIZE = a / PGSIZE
  · have hentry : d.entry x = some e := (d.entry_of_page hpage).trans he
    rw [byte_some hentry, Kmem.write]
    simp only [Function.update_self]
    unfold store overlay
    have hiff : (a % PGSIZE ≤ x % PGSIZE ∧ x % PGSIZE - a % PGSIZE < buf.length) ↔
        a ≤ x ∧ x < a + buf.length := by
      simp only [PGSIZE] at *
      omega
    have hoff (hin : a ≤ x) : x % PGSIZE - a % PGSIZE = x - a := by
      simp only [PGSIZE] at *
      omega
    by_cases hin : a ≤ x ∧ x < a + buf.length
    · rw [dif_pos (hiff.mpr hin), if_pos hin]
      simp only [get_eq_getElem, hoff hin.1]
      rw [getD_eq_getElem _ _ (by omega)]
    · rw [dif_neg (fun h => hin (hiff.mp h)), if_neg hin, byte_some hentry]
  · have hout : x < a ∨ a + buf.length ≤ x := by
      simp only [PGSIZE] at *
      omega
    rw [store_outside hout]
    cases hentry : d.entry x with
    | none => rw [byte_none hentry, byte_none hentry]
    | some e' =>
      have hne : e'.addr ≠ e.addr := fun h => hpage (page_of_frame hnodup hx ha hentry he h)
      rw [byte_some hentry, byte_some hentry, Kmem.write_mem _ _ _ _ hne]

end PageDir

/-- Only pages that user code can access through the range change. -/
def WritesOpen (d : PageDir) (k k' : Kmem) (va len : Nat) : Prop :=
  ∀ f, k'.mem f = k.mem f ∨
    ∃ x e, va ≤ x ∧ x < va + len ∧ d.entry x = some e ∧ e.u = true ∧ e.addr = f

inductive CopyoutResult (d : PageDir) (k : Kmem) (va : Nat) (buf : List UInt8) :
    Except Halt (Bool × Kmem) → Prop
  | copied {k'} (hopen : d.Open va (va + buf.length)) (hfree : k'.free = k.free)
      (hbytes : ∀ x < KERNBASE, d.byte k' x = store (d.byte k) va buf x)
      (hwrites : WritesOpen d k k' va buf.length) : CopyoutResult d k va buf (.ok (true, k'))
  | stopped {k'} (hclosed : ¬ d.Open va (va + buf.length)) (htables : d.Tabled va buf.length)
      (hfree : k'.free = k.free) (hwrites : WritesOpen d k k' va buf.length) :
      CopyoutResult d k va buf (.ok (false, k'))
  | crashed (htables : ¬ d.Tabled va buf.length) : CopyoutResult d k va buf (.error .nullPointer)

theorem CopyoutResult.cons {e : Pte}
    (hnodup : d.userFrames.Nodup) (hva : va < KERNBASE) (he : d.entry va = some e)
    (hu : e.u = true) (hm : 0 < m) (hle : m ≤ buf.length) (hfit : va % PGSIZE + m ≤ PGSIZE)
    {r : Except Halt (Bool × Kmem)}
    (h : CopyoutResult d (k.write e.addr (va % PGSIZE) (buf.take m)) (va + m) (buf.drop m) r) :
    CopyoutResult d k va buf r := by
  have hok : d.UserOk va := ⟨e, he, hu⟩
  have hlen : (buf.drop m).length = buf.length - m := length_drop
  have htake : (buf.take m).length = m := length_take_of_le hle
  have hpage (x : Nat) (hlo : va ≤ x) (hhi : x < va + m) : x / PGSIZE = va / PGSIZE := by
    simp only [PGSIZE] at *
    omega
  have hopen := PageDir.Open.cons (i := va + buf.length) hok hpage
  have htabled := PageDir.Tabled.cons hok hpage hle
  have hend : va + buf.length = va + m + (buf.drop m).length := by omega
  rw [← hlen] at htabled
  rw [hend] at hopen
  have hwrites {k' : Kmem} (hrest : WritesOpen d (k.write e.addr (va % PGSIZE) (buf.take m)) k'
      (va + m) (buf.drop m).length) : WritesOpen d k k' va buf.length := by
    intro f
    rcases hrest f with hsame | ⟨x, e', hlo, hhi, he', hu', hf⟩
    · by_cases hf : f = e.addr
      · exact .inr ⟨va, e, le_rfl, by omega, he, hu, hf.symm⟩
      · exact .inl (hsame.trans (k.write_mem _ _ _ hf))
    · exact .inr ⟨x, e', by omega, by omega, he', hu', hf⟩
  cases h with
  | copied hrest hfree hbytes hwr =>
    refine .copied (hend ▸ hopen.mpr hrest) hfree (fun x hx => ?_) (hwrites hwr)
    have hfirst : d.byte (k.write e.addr (va % PGSIZE) (buf.take m)) x =
        store (d.byte k) va (buf.take m) x :=
      d.byte_write hnodup hva he k (by rw [htake]; exact hfit) hx
    rw [hbytes x hx]
    conv_rhs => rw [← take_append_drop m buf, store_append, htake]
    exact store_congr hfirst
  | stopped hclosed htables hfree hwr =>
    exact .stopped (fun h => hclosed (hopen.mp (hend ▸ h))) (htabled.mpr htables) hfree (hwrites hwr)
  | crashed htables => exact .crashed fun h => htables (htabled.mp h)

theorem uva2ka_cases (d : PageDir) (va : Nat) :
    (d.pde (PDX va) = none ∧ uva2ka d va = .error .nullPointer) ∨
      ((d.pde (PDX va)).isSome ∧ ¬ d.UserOk va ∧ uva2ka d va = .ok none) ∨
      ∃ e, d.entry va = some e ∧ e.u = true ∧ uva2ka d va = .ok (some e.addr) := by
  unfold uva2ka PageDir.UserOk PageDir.entry
  cases d.pde (PDX va) with
  | none => exact .inl ⟨rfl, rfl⟩
  | some t =>
    dsimp only [Option.bind_some]
    cases t.pte (PTX va) with
    | none => exact .inr (Or.inl ⟨rfl, by simp, rfl⟩)
    | some e =>
      cases hu : e.u with
      | false => exact .inr (Or.inl ⟨rfl, by simp [hu], by simp [hu]⟩)
      | true => exact .inr (Or.inr ⟨e, rfl, hu, by simp [hu]⟩)

theorem CopyoutResult.nil (d : PageDir) (k : Kmem) (va : Nat) :
    CopyoutResult d k va [] (.ok (true, k)) := by
  refine .copied ?_ rfl (fun x _ => by rw [store_nil]) fun f => .inl rfl
  intro x hlo hhi
  simp only [length_nil] at hhi
  omega

theorem CopyoutResult.closed (k : Kmem)
    (hpos : 0 < buf.length) (htable : (d.pde (PDX va)).isSome) (hclosed : ¬ d.UserOk va) :
    CopyoutResult d k va buf (.ok (false, k)) := by
  refine .stopped (fun hopen => hclosed (hopen va le_rfl (by omega))) ?_ rfl fun f => .inl rfl
  intro x hlo hhi hbefore
  by_cases hpage : PGROUNDDOWN va < PGROUNDDOWN x
  · exact absurd (hbefore va le_rfl hpage) hclosed
  · have hsame : PDX x = PDX va := by
      simp only [PDX, PGROUNDDOWN, PGSIZE] at *
      omega
    rw [hsame]
    exact htable

theorem CopyoutResult.noTable (k : Kmem) (hpos : 0 < buf.length) (htable : d.pde (PDX va) = none) :
    CopyoutResult d k va buf (.error .nullPointer) := by
  refine .crashed fun htables => ?_
  have hsome := htables va le_rfl (by omega) fun y hy hlt => by
    simp only [PGROUNDDOWN, PGSIZE] at hlt
    omega
  rw [htable] at hsome
  cases hsome

theorem copyout_noTable (k : Kmem) (hpos : 0 < buf.length) (htable : d.pde (PDX va) = none) :
    copyout k d va buf = .error .nullPointer := by
  have hpdx : PDX (PGROUNDDOWN va) = PDX va := by
    simp only [PDX, PGROUNDDOWN, PGSIZE]
    omega
  unfold copyout
  obtain ⟨n, hn⟩ := Nat.exists_eq_succ_of_ne_zero hpos.ne'
  rw [hn, copyoutLoop, if_neg (ne_nil_of_length_pos hpos)]
  simp only [uva2ka, hpdx, htable]
  rfl

theorem copyoutLoop_result (hkernel : d.KernelClosed) (hnodup : d.userFrames.Nodup)
    {n : Nat} (k : Kmem) (hva : va < 2 ^ 32) (hfuel : buf.length ≤ n) :
    CopyoutResult d k va buf (copyoutLoop d n k va buf) := by
  induction n generalizing k va buf with
  | zero =>
    have hempty : buf = [] := eq_nil_of_length_eq_zero (by omega)
    rw [hempty, copyoutLoop_nil]
    exact .nil d k va
  | succ n ih =>
    unfold copyoutLoop
    split
    · next hempty =>
      rw [hempty]
      exact .nil d k va
    · next hne =>
      have hpos : 0 < buf.length := length_pos_of_ne_nil hne
      have hpage : uva2ka d (PGROUNDDOWN va) = uva2ka d va := by
        have hpdx : PDX (PGROUNDDOWN va) = PDX va := by
          simp only [PDX, PGROUNDDOWN, PGSIZE]
          omega
        have hptx : PTX (PGROUNDDOWN va) = PTX va := by
          simp only [PTX, PGROUNDDOWN, PGSIZE]
          omega
        unfold uva2ka
        rw [hpdx, hptx]
      have hoff : va - PGROUNDDOWN va = va % PGSIZE := by
        simp only [PGROUNDDOWN, PGSIZE]
        omega
      dsimp only
      rw [hpage, hoff]
      obtain ⟨hnone, hka⟩ | ⟨htable, hclosed, hka⟩ | ⟨e, he, hu, hka⟩ := uva2ka_cases d va
      · rw [hka]
        exact .noTable k hpos hnone
      · rw [hka, ok_bind]
        exact .closed k hpos htable hclosed
      · rw [hka, ok_bind]
        have hlow : va < KERNBASE := by
          by_contra hge
          exact hkernel va hva (by omega) ⟨e, he, hu⟩
        have hmod : va % PGSIZE < PGSIZE := Nat.mod_lt _ (by decide)
        generalize hm : min (PGSIZE - va % PGSIZE) buf.length = m
        dsimp only
        refine CopyoutResult.cons (m := m) hnodup hlow he hu (by omega) (by omega) (by omega) ?_
        -- the rest starts at the next page, or is empty
        by_cases hlast : buf.length ≤ m
        · rw [drop_eq_nil_of_le hlast, copyoutLoop_nil]
          exact .nil d _ _
        · have hnext : u32 (PGROUNDDOWN va + PGSIZE) = va + m := by
            simp only [u32, PGROUNDDOWN, PGSIZE, KERNBASE] at *
            omega
          rw [hnext]
          refine ih _ ?_ ?_
          · simp only [PGSIZE, KERNBASE] at *
            omega
          · rw [length_drop]
            omega

theorem copyout_result (hkernel : d.KernelClosed) (hnodup : d.userFrames.Nodup)
    (k : Kmem) (buf : List UInt8) (hva : va < 2 ^ 32) :
    CopyoutResult d k va buf (copyout k d va buf) :=
  copyoutLoop_result hkernel hnodup k hva le_rfl

/-- The stack pointer of an argument that is longer than the image by 32 megabytes
lies between the direct mapping and the devices, where there is no page table. -/
theorem execStack_crashes {L : Layout} {guard : Nat} {arg : List UInt8}
    (rest : List (List UInt8)) (hd : Dense d guard) (hguard : guard % PGSIZE = 0)
    (htables : ∀ i, 568 ≤ i → i < 1016 → d.pde i = none)
    (hlt : guard + 2 * PGSIZE < KERNBASE) (hlong : guard + 2 * PGSIZE + 2 ^ 25 ≤ arg.length)
    (harg : arg.length < 2 ^ 30) (hfree : 4 ≤ k.freelist.length) :
    execStack L k d guard (arg :: rest) = .error .nullPointer := by
  obtain ⟨d1, k1, d2, halloc, hclear, _, _⟩ := stackPages_ok L hd hguard hlt hfree
  have hne : guard + 2 * PGSIZE ≠ 0 := by
    simp only [PGSIZE]
    omega
  have hpdx : 568 ≤ PDX (sub32 (guard + 2 * PGSIZE) (arg.length + 1) / 4 * 4) ∧
      PDX (sub32 (guard + 2 * PGSIZE) (arg.length + 1) / 4 * 4) < 1016 := by
    simp only [PDX, sub32, u32, PGSIZE, KERNBASE] at *
    omega
  have htable : d2.pde (PDX (sub32 (guard + 2 * PGSIZE) (arg.length + 1) / 4 * 4)) = none := by
    rw [clearpteu_pde hclear (by omega) (by omega), allocuvm_pde halloc hne (by omega)]
    exact htables _ hpdx.1 hpdx.2
  rw [execStack_of_allocStack (allocStack_eq hlt halloc hclear)]
  unfold pushStack pushArgs
  rw [if_neg (by decide)]
  dsimp only
  rw [copyout_noTable k1 (by simp) htable]
  rfl

theorem exec_crashes {L : Layout} {k1 : Kmem} {ip : List UInt8} {elf : Loaded} {arg : List UInt8}
    (p : Proc) (path : List UInt8) (rest : List (List UInt8))
    (hload : execLoad L k ip = .ok (some elf, k1)) (hnodup : k.free.Nodup)
    (hlt : PGROUNDUP elf.sz + 2 * PGSIZE < KERNBASE)
    (hlong : PGROUNDUP elf.sz + 2 * PGSIZE + 2 ^ 25 ≤ arg.length) (harg : arg.length < 2 ^ 30)
    (hfree : 4 ≤ k1.freelist.length) :
    exec L k p (some ip) path (arg :: rest) = .error .nullPointer := by
  obtain ⟨_, _, hdense, hsz⟩ := (execLoad_spec hload).2.2 elf rfl
  have hcrash := execStack_crashes (L := L) rest (hdense.roundup hsz) (Nat.mul_mod_left _ _)
    (execLoad_built hload hnodup).2 hlt hlong harg hfree
  unfold exec
  dsimp only
  rw [hload, ok_bind]
  dsimp only
  rw [hcrash]
  rfl

/-- `copyout` as it should be: it returns, it succeeds exactly on ranges that are
present and open to user code, and then stores the buffer there and nothing
else; whatever it does, it writes to such pages only. -/
def CopyoutCorrect (k : Kmem) (d : PageDir) (va : Nat) (buf : List UInt8) : Prop :=
  ∃ b k', copyout k d va buf = .ok (b, k') ∧ (b = true ↔ d.Open va (va + buf.length)) ∧
    (b = true → ∀ x < KERNBASE, d.byte k' x = store (d.byte k) va buf x) ∧
    k'.free = k.free ∧ WritesOpen d k k' va buf.length

/-- `copyout` is correct exactly where the first page that it cannot write to,
if there is one, has a page table. -/
theorem copyout_correct_iff {L : Layout} {d : PageDir} (hd : Built L d) (k : Kmem) {va : Nat}
    (hva : va < 2 ^ 32) (buf : List UInt8) :
    CopyoutCorrect k d va buf ↔ d.Tabled va buf.length := by
  have hresult := copyout_result hd.kernelHalf.closed hd.userFrames_nodup k buf hva
  unfold CopyoutCorrect
  generalize copyout k d va buf = r at hresult
  cases hresult with
  | @copied k' hopen hfree hbytes hwrites =>
    refine ⟨fun _ => .of_open hopen, fun _ => ?_⟩
    exact ⟨true, k', rfl, ⟨fun _ => hopen, fun _ => rfl⟩, fun _ => hbytes, hfree, hwrites⟩
  | @stopped k' hclosed htables hfree hwrites =>
    refine ⟨fun _ => htables, fun _ => ?_⟩
    exact ⟨false, k', rfl, ⟨by simp, fun h => absurd h hclosed⟩, by simp, hfree, hwrites⟩
  | crashed htables =>
    refine ⟨?_, fun h => absurd h htables⟩
    rintro ⟨b, k', h, _⟩
    cases h

theorem boot_load_tinyElf : ∃ κ0 : Kernel, ∃ d k, boot smallLayout 1 [0xEB, 0xFE] = .ok κ0 ∧
    execLoad smallLayout κ0.kmem tinyElf = .ok (some ⟨0, d, 1⟩, k) ∧ κ0.kmem.free.Nodup ∧
      (∀ f ∈ κ0.kmem.free, smallLayout.PageOk f) ∧ 4 ≤ k.freelist.length := by
  obtain ⟨κ0, hboot⟩ := smallLayout_boots 1 (by decide)
  obtain ⟨_, _, _, _, _, hfree, _⟩ := boot_first hboot
  obtain ⟨d, k, hload, hlen⟩ := execLoad_tinyElf smallLayout (k := κ0.kmem) (by omega)
  have hpages := (boot_spec hboot).1.pages
  refine ⟨κ0, d, k, hboot, hload, ?_, fun f hf => ?_, by omega⟩
  · have hnodup := handed_nodup smallLayout
    rw [← coe_nodup, ← hpages] at hnodup
    exact nodup_of_le (Multiset.le_add_right _ _) hnodup
  · apply handed_pageOk
    rw [← Multiset.mem_coe, ← hpages]
    exact Multiset.mem_add.mpr (Or.inl hf)

theorem copyout_correct_first_page : ∃ d k, Built smallLayout d ∧ CopyoutCorrect k d 0 [7] := by
  obtain ⟨κ0, d, k, _, hload, hnodup, _, _⟩ := boot_load_tinyElf
  have hbuilt := (execLoad_built hload hnodup).1
  obtain ⟨f, hf⟩ : ∃ f, d.entry 0 = some ⟨f, true, true⟩ :=
    ((execLoad_spec hload).2.2 _ rfl).2.2.1 0 (by decide)
  refine ⟨d, k, hbuilt, (copyout_correct_iff hbuilt k (by decide) [7]).mpr (.of_open ?_)⟩
  intro x _ hhi
  have hx : x = 0 := by
    rw [length_singleton] at hhi
    omega
  exact ⟨_, hx ▸ hf, rfl⟩

/-- An argument of 64 megabytes: `copyout` is asked to write where no page table
is, and `exec` dereferences a null pointer. -/
theorem copyout_missing_table : ∃ κ0 : Kernel, ∃ d k, ∃ arg : List UInt8,
    boot smallLayout 1 [0xEB, 0xFE] = .ok κ0 ∧ Built smallLayout d ∧ arg.length = 2 ^ 26 ∧
      ¬ CopyoutCorrect k d (sub32 12288 (arg.length + 1) / 4 * 4) (arg ++ [0]) ∧
      exec smallLayout κ0.kmem (κ0.proc κ0.initproc) (some tinyElf) [105] [arg] =
        .error .nullPointer := by
  obtain ⟨κ0, d, k, hboot, hload, hnodup, _, hfree⟩ := boot_load_tinyElf
  obtain ⟨hbuilt, htables⟩ := execLoad_built hload hnodup
  obtain ⟨arg, harg⟩ : ∃ arg : List UInt8, arg.length = 2 ^ 26 :=
    ⟨List.replicate (2 ^ 26) 97, length_replicate⟩
  refine ⟨κ0, d, k, arg, hboot, hbuilt, harg, ?_, ?_⟩
  · rintro ⟨b, k', h, _⟩
    rw [copyout_noTable k (by simp) (htables _ (by rw [harg]; decide) (by rw [harg]; decide))] at h
    cases h
  · refine exec_crashes _ _ _ hload hnodup ?_ ?_ (by rw [harg]; decide) hfree
    · change PGROUNDUP 1 + 2 * PGSIZE < KERNBASE
      decide
    · rw [harg]
      change PGROUNDUP 1 + 2 * PGSIZE + 2 ^ 25 ≤ 2 ^ 26
      decide

end Xv6.Vm

import Xv6.Vm.ExecImage
import Xv6.Vm.Progress

/-!
What `sys_sbrk` and the page fault handler do to the process that runs them.
-/

namespace Xv6.Vm

open Lib

variable {n : BitVec 32} {L : Layout} {k k' : Kmem} {p p' : Proc} {d : PageDir} {rcr2 : Nat}

theorem sysSbrk_pos (L : Layout) (k : Kmem) (p : Proc) (hn : 0 < n.toInt) :
    sysSbrk L k p (some n) = .ok (some p.sz, { p with sz := addInt p.sz n }, k) := by
  simp only [sysSbrk, if_pos hn]

theorem sysSbrk_zero (L : Layout) (k : Kmem) (p : Proc) (hn : n.toInt = 0) :
    sysSbrk L k p (some n) = .ok (some p.sz, p, k) := by
  simp [sysSbrk, hn]

/-- `sys_sbrk` with a negative argument is `deallocuvm`, whose result 0 is
taken for a failure. -/
theorem sysSbrk_neg {k1 : Kmem} {d' : PageDir} {sz : Nat} (hn : n.toInt < 0) (hd : p.pgdir = some d)
    (hdealloc : deallocuvm L k d p.sz (addInt p.sz n) = .ok (sz, d', k1)) :
    sysSbrk L k p (some n) = .ok (if sz = 0 then (none, { p with pgdir := some d' }, k1)
      else (some p.sz, { p with pgdir := some d', sz := sz }, k1)) := by
  have hpos : ¬ 0 < n.toInt := by omega
  simp only [sysSbrk, growproc, hd, if_neg hpos, if_pos hn, hdealloc]
  by_cases hsz : sz = 0 <;> simp [hsz, bind, Except.bind, pure, Except.pure]

theorem sysSbrk_neg_ok {r : Option Nat} (hn : n.toInt < 0) (hd : p.pgdir = some d)
    (h : sysSbrk L k p (some n) = .ok (r, p', k')) :
    ∃ sz d', deallocuvm L k d p.sz (addInt p.sz n) = .ok (sz, d', k') ∧
      (r, p') = if sz = 0 then (none, { p with pgdir := some d' })
        else (some p.sz, { p with pgdir := some d', sz := sz }) := by
  cases hdealloc : deallocuvm L k d p.sz (addInt p.sz n) with
  | error e =>
    have hpos : ¬ 0 < n.toInt := by omega
    simp [sysSbrk, growproc, hd, hpos, hn, hdealloc, bind, Except.bind] at h
  | ok res =>
    obtain ⟨sz, d', k1⟩ := res
    rw [sysSbrk_neg hn hd hdealloc] at h
    refine ⟨sz, d', ?_, ?_⟩
    · split at h <;> cases h <;> rfl
    · split at h
      · next hz =>
        cases h
        rw [if_pos hz]
      · next hz =>
        cases h
        rw [if_neg hz]

theorem sysSbrk_space {arg : Option (BitVec 32)} {r : Option Nat}
    (h : sysSbrk L k p arg = .ok (r, p', k')) (hd : p.pgdir = some d) (hsz : p.sz ≤ KERNBASE) :
    ∃ d' sz, p' = { p with pgdir := some d', sz := sz } ∧ SameKernel d d' ∧
      d'.pages + k'.free = d.pages + k.free := by
  have hsame : p = { p with pgdir := some d, sz := p.sz } := by rw [← hd]
  cases arg with
  | none =>
    cases h
    exact ⟨d, p.sz, hsame, fun _ _ _ => rfl, rfl⟩
  | some n =>
    rcases lt_trichotomy n.toInt 0 with hn | hn | hn
    · obtain ⟨sz, d', hdealloc, hres⟩ := sysSbrk_neg_ok hn hd h
      obtain ⟨_, hunmapped⟩ := deallocuvm_spec hdealloc hsz
      refine ⟨d', p'.sz, ?_, ?_, hunmapped.pages⟩
      · split at hres <;> cases hres <;> rfl
      · intro x hx hge
        apply hunmapped.kept x hx
        simp only [PGROUNDDOWN, PGSIZE, KERNBASE] at *
        omega
    · rw [sysSbrk_zero L k p hn] at h
      cases h
      exact ⟨d, p.sz, hsame, fun _ _ _ => rfl, rfl⟩
    · rw [sysSbrk_pos L k p hn] at h
      cases h
      exact ⟨d, addInt p.sz n, by rw [← hd], fun _ _ _ => rfl, rfl⟩

theorem pageFault_spec {r : Fault}
    (h : pageFault L k p rcr2 = .ok (r, p', k')) (hd : p.pgdir = some d) (hsz : p.sz ≤ KERNBASE) :
    (r = .outside ∧ p.sz ≤ rcr2 ∧ p' = { p with killed := true } ∧ k' = k) ∨
      (r = .guard ∧ rcr2 < p.sz ∧ PGROUNDDOWN rcr2 = p.guardPage ∧ p' = { p with killed := true } ∧
        k' = k) ∨
      (rcr2 < p.sz ∧ PGROUNDDOWN rcr2 ≠ p.guardPage ∧ ∃ d', d'.pages + k'.free = d.pages + k.free ∧
        ((r = .noMemory ∧ p' = { p with killed := true, pgdir := some d' } ∧
            ∀ x < 2 ^ 32, d'.entry x = d.entry x) ∨
          (r = .mapped ∧ p' = { p with pgdir := some d' } ∧ d.entry rcr2 = none ∧ ∃ mem,
            (∀ x < 2 ^ 32, d'.entry x = if x / PGSIZE = rcr2 / PGSIZE then some ⟨mem, true, true⟩
              else d.entry x) ∧
            (∀ i, k'.mem mem i = 0) ∧ ∀ f, f ∉ k.free → k'.mem f = k.mem f))) := by
  unfold pageFault at h
  simp only at h
  split at h
  · next hout =>
    cases h
    exact .inl ⟨rfl, hout, rfl, rfl⟩
  next hin =>
  split at h
  · next hguard =>
    cases h
    exact .inr (Or.inl ⟨rfl, Nat.lt_of_not_le hin, hguard, rfl, rfl⟩)
  next hguard =>
  refine .inr (Or.inr ⟨Nat.lt_of_not_le hin, hguard, ?_⟩)
  split at h
  · cases h
    exact ⟨d, rfl, .inl ⟨rfl, by rw [← hd], fun _ _ => rfl⟩⟩
  · next mem k1 halloc =>
    have hlt : PGROUNDDOWN rcr2 < KERNBASE := by
      simp only [PGROUNDDOWN, PGSIZE, KERNBASE] at *
      omega
    have hpage : PGROUNDDOWN rcr2 / PGSIZE = rcr2 / PGSIZE := by
      simp only [PGROUNDDOWN, PGSIZE]
      omega
    rw [hd] at h
    obtain ⟨⟨b, d', k2⟩, hmap, h⟩ := bind_eq_ok.mp h
    obtain ⟨_, _, hkeep, hpages, hnone, hentry⟩ := allocPage halloc (k1.zero_free mem)
      (k1.zero_mem mem) hmap (Nat.mul_mod_left _ _) hlt
    have hzeroed := (mappages_page hmap (Nat.mul_mod_left _ _) (lt_32_of_user hlt)).1.zeroed
    rw [hpage] at hentry
    cases b with
    | true =>
      cases h
      simp only [if_true, add_zero, true_and] at hpages hentry
      refine ⟨d', hpages, .inr ⟨rfl, rfl, ?_, mem, hentry, hzeroed mem (k1.zero_same mem), hkeep⟩⟩
      rw [← hnone rfl]
      exact d.entry_congr (lt_32_of_user (by omega)) (lt_32_of_user hlt) hpage.symm
    | false =>
      obtain ⟨k3, hfree, h⟩ := bind_eq_ok.mp h
      cases h
      simp only [Bool.false_eq_true, if_false, false_and] at hpages hentry
      refine ⟨d', ?_, .inl ⟨rfl, rfl, hentry⟩⟩
      rw [(kfree_ok hfree).2.1, ← hpages]
      abel

theorem pageFault_total (hd : p.pgdir = some d) (hsz : p.sz ≤ KERNBASE)
    (hok : ∀ f ∈ k.free, L.PageOk f) (habsent : d.entry rcr2 = none) :
    ∃ r p' k', pageFault L k p rcr2 = .ok (r, p', k') := by
  unfold pageFault
  simp only
  split
  · exact ⟨_, _, _, rfl⟩
  split
  · exact ⟨_, _, _, rfl⟩
  split
  · exact ⟨_, _, _, rfl⟩
  · next mem k1 halloc =>
    obtain ⟨b, d', k', hmap⟩ := mappages_page_total true true (k1.zero mem) (d := d)
      (PGROUNDDOWN rcr2) mem (Nat.mul_mod_left _ _)
      (by simp only [PGROUNDDOWN, PGSIZE, KERNBASE] at *; omega)
      (by
        rw [← habsent]
        apply d.entry_congr <;> simp only [PGROUNDDOWN, PGSIZE, KERNBASE] at * <;> omega)
    simp only [hd]
    cases b with
    | true => exact ⟨_, _, _, bind_eq_ok.mpr ⟨(true, d', k'), hmap, rfl⟩⟩
    | false =>
      have hmem : mem ∈ k.free := by simp [(kalloc_some halloc).1]
      obtain ⟨k2, hfree⟩ := kfree_of_pageOk (hok mem hmem) k'
      exact ⟨_, _, _, bind_eq_ok.mpr ⟨(false, d', k'), hmap, bind_eq_ok.mpr ⟨k2, hfree, rfl⟩⟩⟩

theorem pageFault_ok (L : Layout)
    (hd : p.pgdir = some d) (hlt : rcr2 < p.sz) (hsz : p.sz ≤ KERNBASE)
    (hguard : PGROUNDDOWN rcr2 ≠ p.guardPage) (habsent : d.entry rcr2 = none)
    (hfree : 2 ≤ k.freelist.length) :
    ∃ d' k', pageFault L k p rcr2 = .ok (.mapped, { p with pgdir := some d' }, k') := by
  obtain ⟨mem, k1, halloc, hlen⟩ := kalloc_ok (k := k) (by omega)
  have hone := d.missing_le_one (PGROUNDDOWN rcr2)
  have hzero : (k1.zero mem).freelist.length = k1.freelist.length := rfl
  obtain ⟨d', k', hmap, _⟩ := mappages_page_ok true true (k := k1.zero mem) (d := d)
    (PGROUNDDOWN rcr2) mem (Nat.mul_mod_left _ _)
    (by simp only [PGROUNDDOWN, PGSIZE, KERNBASE] at *; omega)
    (by
      rw [← habsent]
      apply d.entry_congr <;> simp only [PGROUNDDOWN, PGSIZE, KERNBASE] at * <;> omega)
    (by omega)
  refine ⟨d', k', ?_⟩
  unfold pageFault
  simp only [if_neg (Nat.not_le.mpr hlt), if_neg hguard, halloc, hd, hmap]
  rfl

/-- A fault on a page that is present, but not for user code, ends in the
panic of `mappages` unless it is the recorded guard page. -/
theorem pageFault_remap (L : Layout) {e : Pte}
    (hd : p.pgdir = some d) (hlt : rcr2 < p.sz) (hsz : p.sz ≤ KERNBASE)
    (hguard : PGROUNDDOWN rcr2 ≠ p.guardPage) (hentry : d.entry rcr2 = some e)
    (hfree : 0 < k.freelist.length) : pageFault L k p rcr2 = .error .remap := by
  obtain ⟨mem, k1, halloc, _⟩ := kalloc_ok hfree
  have hpage : d.entry (PGROUNDDOWN rcr2) = some e := by
    rw [← hentry]
    apply d.entry_congr <;> simp only [PGROUNDDOWN, PGSIZE, KERNBASE] at * <;> omega
  have hdown : PGROUNDDOWN (PGROUNDDOWN rcr2) = PGROUNDDOWN rcr2 := by
    simp only [PGROUNDDOWN, PGSIZE]
    omega
  obtain ⟨t, ht, hpte⟩ := d.table_of_entry hpage
  have hmap : mappages (k1.zero mem) d (PGROUNDDOWN rcr2) PGSIZE mem true true = .error .remap := by
    unfold mappages mappagesLoop walkpgdir
    simp only [hdown, ht, hpte]
  unfold pageFault
  simp only [if_neg (Nat.not_le.mpr hlt), if_neg hguard, halloc, hd, hmap]
  rfl

end Xv6.Vm

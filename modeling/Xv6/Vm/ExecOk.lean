import Xv6.Vm.ExecImage
import Xv6.Vm.Progress

/-!
`exec` succeeds with enough memory: arguments that fit into the stack page are
copied out, and the old address space, made of good pages, is freed.
-/

namespace Xv6.Vm

open Lib List

def PageDir.Open (d : PageDir) (lo hi : Nat) : Prop :=
  ∀ x, lo ≤ x → x < hi → ∃ e, d.entry x = some e ∧ e.u = true

/-- The most bytes that pushing the arguments takes, padding included. -/
def argBytes (argv : List (List UInt8)) : Nat := (argv.map fun arg => arg.length + 4).sum

theorem argBytes_cons (arg : List UInt8) (rest : List (List UInt8)) :
    argBytes (arg :: rest) = arg.length + 4 + argBytes rest := by
  simp [argBytes]

theorem pushArgs_ok {d : PageDir} (argv : List (List UInt8)) (ustack : List Nat) {lo : Nat}
    (sp : Nat) (k : Kmem) (hopen : d.Open lo sp) (hsp : sp ≤ KERNBASE) (hfit : lo + argBytes argv ≤ sp)
    (hargs : ustack.length + argv.length ≤ MAXARG) :
    ∃ args sp' k', pushArgs d argv ustack k sp = .ok (some (args, sp'), k') ∧
      args.length = ustack.length + argv.length ∧ sp' ≤ sp ∧ sp ≤ sp' + argBytes argv := by
  induction argv generalizing ustack k sp with
  | nil => exact ⟨ustack, sp, k, rfl, by simp, le_rfl, by simp [argBytes]⟩
  | cons arg rest ih =>
    rw [argBytes_cons] at hfit ⊢
    rw [length_cons] at hargs
    have hnext : sub32 sp (arg.length + 1) / 4 * 4 + (arg.length + 1) ≤ sp ∧
        sp ≤ sub32 sp (arg.length + 1) / 4 * 4 + (arg.length + 4) := by
      simp only [sub32, u32, KERNBASE] at *
      omega
    generalize hsp' : sub32 sp (arg.length + 1) / 4 * 4 = sp1 at hnext
    obtain ⟨k1, hcopy⟩ := copyout_ok (d := d) sp1 (arg ++ [0]) k
      (by rw [length_append, length_singleton]; omega)
      (fun x hlo hhi => hopen x (by omega) (by
        rw [length_append, length_singleton] at hhi
        omega))
    obtain ⟨args, sp', k', hrest, hlen, hle, hge⟩ := ih (ustack ++ [sp1]) sp1 k1
      (fun x hlo hhi => hopen x hlo (by omega)) (by omega) (by omega)
      (by rw [length_append, length_singleton]; omega)
    rw [length_append, length_singleton] at hlen
    refine ⟨args, sp', k', ?_, by rw [hlen, length_cons]; omega, by omega, by omega⟩
    unfold pushArgs
    rw [if_neg (by omega)]
    simp only [hsp']
    exact bind_eq_ok.mpr ⟨_, hcopy, hrest⟩

theorem length_words (words : List Nat) : (words.flatMap leBytes).length = words.length * 4 := by
  simp [length_flatMap, leBytes]

theorem allocStack_eq {L : Layout} {k k1 : Kmem} {d d1 d2 : PageDir} {guard : Nat}
    (hlt : guard + 2 * PGSIZE < KERNBASE)
    (halloc : allocuvm L k d guard (guard + 2 * PGSIZE) = .ok (guard + 2 * PGSIZE, d1, k1))
    (hclear : clearpteu d1 guard = .ok d2) :
    allocStack L k d guard = .ok (some (d2, guard + 2 * PGSIZE), k1) := by
  have hnew : u32 (guard + 2 * PGSIZE) = guard + 2 * PGSIZE := by
    simp only [u32, PGSIZE, KERNBASE] at *
    omega
  have hclearat : sub32 (guard + 2 * PGSIZE) (2 * PGSIZE) = guard := by
    simp only [sub32, u32, PGSIZE, KERNBASE] at *
    omega
  have hne : guard + 2 * PGSIZE ≠ 0 := by
    simp only [PGSIZE]
    omega
  unfold allocStack
  rw [hnew, halloc, ok_bind]
  dsimp only
  rw [if_neg hne, hclearat, hclear]
  rfl

theorem stackPages_ok (L : Layout) {k : Kmem} {d : PageDir} {guard : Nat} (hd : Dense d guard)
    (hguard : guard % PGSIZE = 0) (hlt : guard + 2 * PGSIZE < KERNBASE)
    (hfree : 4 ≤ k.freelist.length) :
    ∃ d1 k1 d2, allocuvm L k d guard (guard + 2 * PGSIZE) = .ok (guard + 2 * PGSIZE, d1, k1) ∧
      clearpteu d1 guard = .ok d2 ∧ ExecImage d2 guard (guard + 2 * PGSIZE) ∧
      k.freelist.length ≤ k1.freelist.length + 4 := by
  have hround : PGROUNDUP guard = guard := by
    simp only [PGROUNDUP, u32, PGSIZE, KERNBASE] at *
    omega
  have hcount : pagesBetween (PGROUNDUP guard) (guard + 2 * PGSIZE) = 2 := by
    rw [hround]
    simp only [pagesBetween, PGSIZE]
    omega
  obtain ⟨d1, k1, halloc, hlen⟩ := allocuvm_ok L guard (guard + 2 * PGSIZE) (k := k) (d := d)
    (by omega) hlt (fun x hx hge => by
      have hold := hd x hx
      rwa [if_neg] at hold
      rw [hround] at hge
      simp only [PGROUNDDOWN, PGSIZE] at *
      omega) (by rw [hcount]; exact hfree)
  rw [hcount] at hlen
  have hne : guard + 2 * PGSIZE ≠ 0 := by
    simp only [PGSIZE]
    omega
  obtain ⟨hdense, _, _⟩ := allocuvm_dense halloc hd (Or.inr (by omega)) hne
  obtain ⟨f, hf⟩ : ∃ f, d1.entry guard = some ⟨f, true, true⟩ := by
    have hentry := hdense guard (by omega)
    rwa [if_pos] at hentry
    simp only [PGROUNDDOWN, PGSIZE] at *
    omega
  obtain ⟨d2, hclear⟩ := clearpteu_ok hf
  exact ⟨d1, k1, d2, halloc, hclear, hdense.execImage hguard hlt hclear, hlen⟩

theorem ExecImage.stack_open {d : PageDir} {guard sz : Nat} (h : ExecImage d guard sz) :
    d.Open (guard + PGSIZE) (guard + 2 * PGSIZE) := by
  have hsize := h.size
  have hlt := h.lt
  have haligned := h.aligned
  intro x hlo hhi
  have hentry := h.entry x (by omega)
  rw [if_pos (by simp only [PGROUNDDOWN, PGSIZE] at *; omega)] at hentry
  obtain ⟨f, hf⟩ := hentry
  refine ⟨_, hf, decide_eq_true ?_⟩
  simp only [PGROUNDDOWN, PGSIZE] at *
  omega

theorem execStack_ok (L : Layout) {k : Kmem} {d : PageDir} {guard : Nat} (argv : List (List UInt8))
    (hd : Dense d guard) (hguard : guard % PGSIZE = 0) (hlt : guard + 2 * PGSIZE < KERNBASE)
    (hargs : argv.length ≤ MAXARG) (hfit : argBytes argv + 4 * (argv.length + 4) ≤ PGSIZE)
    (hfree : 4 ≤ k.freelist.length) :
    ∃ d' sp k', execStack L k d guard argv = .ok (some (d', guard + 2 * PGSIZE, sp), k') ∧
      k.freelist.length ≤ k'.freelist.length + 4 := by
  obtain ⟨d1, k1, d2, halloc, hclear, himage, hlen⟩ := stackPages_ok L hd hguard hlt hfree
  have hopen := himage.stack_open
  obtain ⟨args, sp, k2, hpush, hargc, hle, hge⟩ := pushArgs_ok argv [] _ k1 hopen
    hlt.le (by omega) (by simpa using hargs)
  rw [length_nil, zero_add] at hargc
  have hwords : (stackWords args sp).length = argv.length + 4 := by
    simp [stackWords, hargc]
  have hsp : sub32 sp ((argv.length + 4) * 4) + (argv.length + 4) * 4 = sp := by
    simp only [sub32, u32, PGSIZE, KERNBASE] at *
    omega
  obtain ⟨k3, hcopy⟩ := copyout_ok (d := d2) (sub32 sp ((argv.length + 4) * 4))
    ((stackWords args sp).flatMap leBytes) k2
    (by rw [length_words, hwords]; omega)
    (fun x hlo hhi => hopen x (by omega) (by
      rw [length_words, hwords] at hhi
      omega))
  have hfree3 : k3.freelist.length = k1.freelist.length := by
    change k3.free.card = k1.free.card
    rw [copyout_free hcopy, pushArgs_free hpush]
  refine ⟨d2, sub32 sp ((argv.length + 4) * 4), k3, ?_, by omega⟩
  rw [execStack_of_allocStack (allocStack_eq hlt halloc hclear)]
  refine bind_eq_ok.mpr ⟨_, hpush, ?_⟩
  simp only [hwords]
  exact bind_eq_ok.mpr ⟨_, hcopy, rfl⟩

theorem exec_ok (L : Layout) {k k1 : Kmem} {p : Proc} {d : PageDir} {ip : List UInt8} {elf : Loaded}
    (path : List UInt8) (argv : List (List UInt8)) (hload : execLoad L k ip = .ok (some elf, k1))
    (hd : p.pgdir = some d) (hframes : ∀ f ∈ d.pages, L.PageOk f)
    (hsz : PGROUNDUP elf.sz + 2 * PGSIZE < KERNBASE) (hargs : argv.length ≤ MAXARG)
    (hfit : argBytes argv + 4 * (argv.length + 4) ≤ PGSIZE) (hfree : 4 ≤ k1.freelist.length) :
    ∃ q k', exec L k p (some ip) path argv = .ok (true, q, k') ∧ q.guardPage = PGROUNDUP elf.sz ∧
      q.sz = PGROUNDUP elf.sz + 2 * PGSIZE ∧ k1.freelist.length ≤ k'.freelist.length + 4 := by
  obtain ⟨_, _, hdense, hlt⟩ := (execLoad_spec hload).2.2 elf rfl
  obtain ⟨d', sp, k2, hstack, hlen⟩ := execStack_ok L (k := k1) argv
    (hdense.roundup hlt) (Nat.mul_mod_left _ _) hsz hargs hfit hfree
  obtain ⟨k3, hfreevm⟩ := freevm_ok hframes k2
  have hfree3 : k2.freelist.length ≤ k3.freelist.length := by
    change k2.free.card ≤ k3.free.card
    rw [freevm_spec hfreevm, Multiset.card_add]
    omega
  refine ⟨{ p with
    guardPage := PGROUNDUP elf.sz, pgdir := some d', sz := PGROUNDUP elf.sz + 2 * PGSIZE
    eip := elf.entry, esp := sp, name := progName path }, k3,
    bind_eq_ok.mpr ⟨_, hload, bind_eq_ok.mpr ⟨_, hstack, ?_⟩⟩, rfl, rfl, by omega⟩
  simp only [hd]
  exact bind_eq_ok.mpr ⟨_, hfreevm, rfl⟩

end Xv6.Vm

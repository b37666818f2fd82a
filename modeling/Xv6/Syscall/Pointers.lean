import Xv6.Syscall.Args
import Xv6.Vm.Mmu

/-!
The pointer checks of `syscall.c` and the argument loop of `sys_exec`, over the
integers. With a size of at most `KERNBASE` none of the sums that the checks
make can wrap on an accepted input; only the address of an argument word,
computed from a stack pointer that nothing bounds, can.
-/

namespace Xv6.Syscall

open Option

open Vm (KERNBASE)

namespace User

def argAddr (u : User) (n : Nat) : Word := u.esp + 4 + 4 * BitVec.ofNat 32 n

def strLoop (u : User) (pp s : Word) : Option Word :=
  if s < u.sz then
    if u.mem s = 0 then some (s - pp) else strLoop u pp (s + 1)
  else none
termination_by u.sz.toNat - s.toNat
decreasing_by
  have := u.sz.isLt
  bv_omega

/-- `fetchstr`: the length, `none` for -1. -/
def fetchstr (u : User) (addr : Word) : Option Word :=
  if u.sz ≤ addr then none else u.strLoop addr addr

/-- `argstr`: the pointer and the length. -/
def argstr (u : User) (n : Nat) : Option (Word × Word) := do
  let addr ← u.argint n
  let len ← u.fetchstr addr
  return (addr, len)

/-- The loop of `sys_exec` from `argv[i]` on, with `n` entries left in the array. -/
def argvLoop (u : User) (uargv : Word) : Nat → Nat → Option (List Word)
  | 0, _ => none
  | n + 1, i => do
      let uarg ← u.fetchint (uargv + 4 * BitVec.ofNat 32 i)
      if uarg = 0 then return []
      else
        let _ ← u.fetchstr uarg
        let rest ← argvLoop u uargv n (i + 1)
        return uarg :: rest

/-- `sys_exec` up to the call of `exec`: the path and the argument pointers. -/
def sysExecArgs (u : User) : Option (Word × List Word) := do
  let (path, _) ← u.argstr 0
  let uargv ← u.argint 1
  let argv ← u.argvLoop uargv MAXARG 0
  return (path, argv)

/-- The first NUL of `[addr, sz)` is at distance `len`. -/
def NulAt (u : User) (addr len : Word) : Prop :=
  addr.toNat + len.toNat < u.sz.toNat ∧ u.mem (addr + len) = 0 ∧
    ∀ j < len.toNat, u.mem (addr + BitVec.ofNat 32 j) ≠ 0

section

variable {u : User}

theorem fetchint_isSome (hsz : u.sz.toNat ≤ KERNBASE) (addr : Word) :
    (u.fetchint addr).isSome ↔ addr.toNat + 4 ≤ u.sz.toNat := by
  unfold KERNBASE at hsz
  unfold fetchint
  split
  · next h =>
    simp only [isSome_none, Bool.false_eq_true, false_iff]
    bv_omega
  · next h =>
    simp only [isSome_some, true_iff]
    bv_omega

theorem fetchint_noWrap (hsz : u.sz.toNat ≤ KERNBASE) {addr v : Word}
    (h : u.fetchint addr = some v) : (addr + 4).toNat = addr.toNat + 4 := by
  have hlt := (fetchint_isSome hsz addr).mp (by rw [h]; rfl)
  unfold KERNBASE at hsz
  bv_omega

theorem argptr_some (hsz : u.sz.toNat ≤ KERNBASE) {n : Nat} {size i : Word} :
    u.argptr n size = some i ↔ u.argint n = some i ∧ 0 ≤ size.toInt ∧ 0 ≤ i.toInt ∧
      i.toInt < u.sz.toNat ∧ i.toInt + size.toInt ≤ u.sz.toNat := by
  have hi := i.isLt
  have hs := size.isLt
  unfold KERNBASE at hsz
  unfold argptr
  rw [bind_eq_bind, bind_eq_some_iff]
  constructor
  · rintro ⟨j, hj, h⟩
    split at h
    · cases h
    · next hok =>
      cases h
      simp only [not_or, BitVec.not_le, BitVec.not_lt] at hok
      refine ⟨hj, ?_⟩
      simp only [BitVec.toInt_eq_toNat_cond] at *
      bv_omega
  · rintro ⟨hj, h⟩
    refine ⟨i, hj, if_neg ?_⟩
    simp only [BitVec.toInt_eq_toNat_cond] at *
    bv_omega

theorem strLoop_some (pp s : Word) (len : Word) :
    u.strLoop pp s = some len ↔ ∃ e : Word, s ≤ e ∧ e < u.sz ∧ len = e - pp ∧ u.mem e = 0 ∧
      ∀ x, s ≤ x → x < e → u.mem x ≠ 0 := by
  induction hn : u.sz.toNat - s.toNat generalizing s with
  | zero =>
    unfold strLoop
    rw [if_neg (by bv_omega)]
    constructor
    · intro h
      cases h
    · rintro ⟨e, hle, hlt, _⟩
      bv_omega
  | succ n ih =>
    have hsz := u.sz.isLt
    have hlt : s < u.sz := by bv_omega
    unfold strLoop
    rw [if_pos hlt]
    by_cases hnul : u.mem s = 0
    · rw [if_pos hnul]
      constructor
      · intro h
        cases h
        exact ⟨s, BitVec.le_refl s, hlt, rfl, hnul, fun x hlo hhi => by bv_omega⟩
      · rintro ⟨e, hle, _, rfl, _, hbefore⟩
        by_cases hfirst : e = s
        · rw [hfirst]
        · exact absurd hnul (hbefore s (BitVec.le_refl s) (by bv_omega))
    · rw [if_neg hnul, ih (s + 1) (by bv_omega)]
      constructor
      · rintro ⟨e, hle, hend, hlen, he, hbefore⟩
        refine ⟨e, by bv_omega, hend, hlen, he, fun x hlo hhi => ?_⟩
        by_cases hx : x = s
        · rw [hx]
          exact hnul
        · exact hbefore x (by bv_omega) hhi
      · rintro ⟨e, hle, hend, hlen, he, hbefore⟩
        have hne : e ≠ s := fun h => hnul (h ▸ he)
        exact ⟨e, by bv_omega, hend, hlen, he, fun x hlo hhi => hbefore x (by bv_omega) hhi⟩

theorem fetchstr_some (addr len : Word) : u.fetchstr addr = some len ↔ u.NulAt addr len := by
  have hsz := u.sz.isLt
  unfold fetchstr NulAt
  split
  · next hout =>
    constructor
    · intro h
      cases h
    · rintro ⟨hlt, _⟩
      bv_omega
  · next hin =>
    rw [strLoop_some]
    constructor
    · rintro ⟨e, hle, hlt, rfl, hnul, hbefore⟩
      have hend : addr + (e - addr) = e := by bv_omega
      refine ⟨by bv_omega, by rw [hend]; exact hnul, fun j hj => ?_⟩
      apply hbefore
      · bv_omega
      · bv_omega
    · rintro ⟨hlt, hnul, hbefore⟩
      refine ⟨addr + len, by bv_omega, by bv_omega, by bv_omega, hnul, fun x hlo hhi => ?_⟩
      have hx : x = addr + BitVec.ofNat 32 (x - addr).toNat := by
        rw [BitVec.ofNat_toNat]
        bv_omega
      rw [hx]
      exact hbefore _ (by bv_omega)

theorem exists_nulAt_iff (addr : Word) : (∃ len, u.NulAt addr len) ↔
    ∃ j, addr.toNat + j < u.sz.toNat ∧ u.mem (addr + BitVec.ofNat 32 j) = 0 := by
  have hsz := u.sz.isLt
  constructor
  · rintro ⟨len, hlt, hnul, _⟩
    exact ⟨len.toNat, hlt, by rwa [BitVec.ofNat_toNat, BitVec.setWidth_eq]⟩
  · intro h
    classical
    obtain ⟨hlt, hnul⟩ := Nat.find_spec h
    have hfirst := fun j => Nat.find_min h (m := j)
    generalize Nat.find h = j at *
    have hj : (BitVec.ofNat 32 j).toNat = j := by
      rw [BitVec.toNat_ofNat]
      exact Nat.mod_eq_of_lt (by omega)
    refine ⟨BitVec.ofNat 32 j, by omega, hnul, fun i hi hzero => ?_⟩
    exact hfirst i (by omega) ⟨by omega, hzero⟩

theorem argstr_some (n : Nat) (addr len : Word) :
    u.argstr n = some (addr, len) ↔ u.argint n = some addr ∧ u.NulAt addr len := by
  unfold argstr
  simp only [bind_eq_bind, bind_eq_some_iff, pure_def, Option.some.injEq,
    Prod.mk.injEq, fetchstr_some]
  constructor
  · rintro ⟨a, ha, l, hl, rfl, rfl⟩
    exact ⟨ha, hl⟩
  · rintro ⟨ha, hl⟩
    exact ⟨addr, ha, len, hl, rfl, rfl⟩

theorem argvLoop_some (hsz : u.sz.toNat ≤ KERNBASE) {uargv : Word} {n i : Nat} {argv : List Word}
    (h : u.argvLoop uargv n i = some argv) (hle : i + n ≤ MAXARG)
    (hstart : uargv.toNat + 4 ≤ u.sz.toNat) :
    argv.length < n ∧ ∀ j, i ≤ j → j ≤ i + argv.length →
      (uargv + 4 * BitVec.ofNat 32 j).toNat = uargv.toNat + 4 * j ∧
        uargv.toNat + 4 * j + 4 ≤ u.sz.toNat := by
  induction n generalizing i argv with
  | zero => cases h
  | succ n ih =>
    have haddr (j : Nat) (hj : j < MAXARG) :
        (uargv + 4 * BitVec.ofNat 32 j).toNat = uargv.toNat + 4 * j := by
      have hj' : (BitVec.ofNat 32 j).toNat = j := by
        rw [BitVec.toNat_ofNat]
        exact Nat.mod_eq_of_lt (hj.trans (by decide))
      unfold KERNBASE at hsz
      unfold MAXARG at hj
      bv_omega
    unfold argvLoop at h
    rw [bind_eq_bind, bind_eq_some_iff] at h
    obtain ⟨uarg, hfetch, h⟩ := h
    have hword := (fetchint_isSome hsz _).mp (by rw [hfetch]; rfl)
    rw [haddr i (by omega)] at hword
    split at h
    · cases h
      refine ⟨Nat.succ_pos n, fun j hlo hhi => ?_⟩
      have hj : j = i := by
        rw [List.length_nil] at hhi
        omega
      rw [hj]
      exact ⟨haddr i (by omega), hword⟩
    · rw [bind_eq_bind, bind_eq_some_iff] at h
      obtain ⟨_, _, h⟩ := h
      rw [bind_eq_some_iff] at h
      obtain ⟨rest, hrest, h⟩ := h
      cases h
      obtain ⟨hlen, hwords⟩ := ih hrest (by omega)
      rw [List.length_cons]
      refine ⟨by omega, fun j hlo hhi => ?_⟩
      by_cases hj : j = i
      · rw [hj]
        exact ⟨haddr i (by omega), hword⟩
      · exact hwords j (by omega) (by omega)

theorem argvLoop_start (hsz : u.sz.toNat ≤ KERNBASE) {uargv : Word} {n : Nat} {argv : List Word}
    (h : u.argvLoop uargv n 0 = some argv) : uargv.toNat + 4 ≤ u.sz.toNat := by
  cases n with
  | zero => cases h
  | succ n =>
    unfold argvLoop at h
    rw [bind_eq_bind, bind_eq_some_iff] at h
    obtain ⟨uarg, hfetch, _⟩ := h
    have hword := (fetchint_isSome hsz _).mp (by rw [hfetch]; rfl)
    simpa using hword

theorem sysExecArgs_some {path : Word} {argv : List Word} (h : u.sysExecArgs = some (path, argv)) :
    ∃ uargv, u.argint 1 = some uargv ∧ u.argvLoop uargv MAXARG 0 = some argv := by
  unfold sysExecArgs at h
  simp only [bind_eq_bind, bind_eq_some_iff] at h
  obtain ⟨⟨_, _⟩, _, uargv, huargv, argv', hloop, h⟩ := h
  cases h
  exact ⟨uargv, huargv, hloop⟩

end

/-- The callers agree on everything below the size. -/
structure SameBelow (u v : User) : Prop where
  sz : v.sz = u.sz
  esp : v.esp = u.esp
  mem : ∀ a, a < u.sz → v.mem a = u.mem a

namespace SameBelow

variable {u v : User}

theorem fetchint (h : SameBelow u v) (hsz : u.sz.toNat ≤ KERNBASE) (addr : Word) :
    v.fetchint addr = u.fetchint addr := by
  unfold User.fetchint
  rw [h.sz]
  split
  · rfl
  · next hok =>
    unfold KERNBASE at hsz
    unfold word
    rw [h.mem addr (by bv_omega), h.mem (addr + 1) (by bv_omega), h.mem (addr + 2) (by bv_omega),
      h.mem (addr + 3) (by bv_omega)]

theorem argint (h : SameBelow u v) (hsz : u.sz.toNat ≤ KERNBASE) (n : Nat) :
    v.argint n = u.argint n := by
  unfold User.argint
  rw [h.esp, h.fetchint hsz]

theorem strLoop (h : SameBelow u v) (pp s : Word) : v.strLoop pp s = u.strLoop pp s := by
  have hsz := u.sz.isLt
  induction hn : u.sz.toNat - s.toNat generalizing s with
  | zero =>
    unfold User.strLoop
    rw [h.sz, if_neg (by bv_omega), if_neg (by bv_omega)]
  | succ n ih =>
    have hlt : s < u.sz := by bv_omega
    unfold User.strLoop
    rw [h.sz, if_pos hlt, if_pos hlt, h.mem s hlt, ih (s + 1) (by bv_omega)]

theorem fetchstr (h : SameBelow u v) (addr : Word) : v.fetchstr addr = u.fetchstr addr := by
  unfold User.fetchstr
  rw [h.sz, h.strLoop]

theorem argvLoop (h : SameBelow u v) (hsz : u.sz.toNat ≤ KERNBASE) (uargv : Word) (n i : Nat) :
    v.argvLoop uargv n i = u.argvLoop uargv n i := by
  induction n generalizing i with
  | zero => rfl
  | succ n ih =>
    unfold User.argvLoop
    simp only [h.fetchint hsz, h.fetchstr, ih]

theorem sysExecArgs (h : SameBelow u v) (hsz : u.sz.toNat ≤ KERNBASE) :
    v.sysExecArgs = u.sysExecArgs := by
  unfold User.sysExecArgs User.argstr
  simp only [h.argint hsz, h.fetchstr, h.argvLoop hsz]

end SameBelow

/-- The checks accept exactly what lies below the size. -/
structure ExactChecks (u : User) : Prop where
  fetchint : ∀ addr, (u.fetchint addr).isSome ↔ addr.toNat + 4 ≤ u.sz.toNat
  argint : ∀ n, (u.argint n).isSome ↔ (u.argAddr n).toNat + 4 ≤ u.sz.toNat
  argptr : ∀ n size, (u.argptr n size).isSome ↔ 0 ≤ size.toInt ∧ ∃ i, u.argint n = some i ∧
    0 ≤ i.toInt ∧ i.toInt < u.sz.toNat ∧ i.toInt + size.toInt ≤ u.sz.toNat
  fetchstr : ∀ addr, (u.fetchstr addr).isSome ↔
    ∃ j, addr.toNat + j < u.sz.toNat ∧ u.mem (addr + BitVec.ofNat 32 j) = 0
  fetchstr_len : ∀ addr len, u.fetchstr addr = some len ↔ u.NulAt addr len
  argstr : ∀ n addr len, u.argstr n = some (addr, len) ↔ u.argint n = some addr ∧ u.NulAt addr len
  exec_stops : ∀ path argv, u.sysExecArgs = some (path, argv) → argv.length < MAXARG
  exec_below : ∀ v, SameBelow u v → v.sysExecArgs = u.sysExecArgs

/-- The sums that the checks make do not wrap on an accepted input. -/
structure NoWrap (u : User) : Prop where
  fetchint : ∀ addr, (u.fetchint addr).isSome → (addr + 4).toNat = addr.toNat + 4
  argptr : ∀ n size i, u.argptr n size = some i → (i + size).toNat = i.toNat + size.toNat
  fetchstr : ∀ addr len, u.fetchstr addr = some len → (addr + len).toNat = addr.toNat + len.toNat
  exec : ∀ path argv, u.sysExecArgs = some (path, argv) → ∃ uargv, u.argint 1 = some uargv ∧
    ∀ i ≤ argv.length, (uargv + 4 * BitVec.ofNat 32 i).toNat = uargv.toNat + 4 * i ∧
      uargv.toNat + 4 * i + 4 ≤ u.sz.toNat

/-- For every caller of at most `KERNBASE` bytes the pointer checks are exact, and
no sum of a check wraps on an accepted input. -/
theorem pointer_checks_exact (u : User) (hsz : u.sz.toNat ≤ KERNBASE) :
    u.ExactChecks ∧ u.NoWrap := by
  have hexec {path : Word} {argv : List Word} (h : u.sysExecArgs = some (path, argv)) :
      ∃ uargv, u.argint 1 = some uargv ∧ argv.length < MAXARG ∧ ∀ i ≤ argv.length,
        (uargv + 4 * BitVec.ofNat 32 i).toNat = uargv.toNat + 4 * i ∧
          uargv.toNat + 4 * i + 4 ≤ u.sz.toNat := by
    obtain ⟨uargv, huargv, hloop⟩ := sysExecArgs_some h
    obtain ⟨hlen, hwords⟩ := argvLoop_some hsz hloop (by omega) (argvLoop_start hsz hloop)
    exact ⟨uargv, huargv, hlen, fun i hi => hwords i (Nat.zero_le i) (by omega)⟩
  constructor
  · refine ⟨fetchint_isSome hsz, fun n => fetchint_isSome hsz _, fun n size => ?_, fun addr => ?_,
      fetchstr_some, argstr_some, fun path argv h => ?_, fun v h => h.sysExecArgs hsz⟩
    · rw [isSome_iff_exists]
      simp only [argptr_some hsz]
      constructor
      · rintro ⟨i, hi, hsize, hrest⟩
        exact ⟨hsize, i, hi, hrest⟩
      · rintro ⟨hsize, i, hi, hrest⟩
        exact ⟨i, hi, hsize, hrest⟩
    · rw [isSome_iff_exists, ← exists_nulAt_iff]
      simp only [fetchstr_some]
    · obtain ⟨_, _, hlen, _⟩ := hexec h
      exact hlen
  · refine ⟨fun addr h => ?_, fun n size i h => ?_, fun addr len h => ?_, fun path argv h => ?_⟩
    · obtain ⟨v, hv⟩ := isSome_iff_exists.mp h
      exact fetchint_noWrap hsz hv
    · obtain ⟨_, hsize, hi, hlt, hle⟩ := (argptr_some hsz).mp h
      have := i.isLt
      have := size.isLt
      unfold KERNBASE at hsz
      simp only [BitVec.toInt_eq_toNat_cond] at *
      bv_omega
    · obtain ⟨hlt, _⟩ := (fetchstr_some addr len).mp h
      have := u.sz.isLt
      bv_omega
    · obtain ⟨uargv, huargv, _, hwords⟩ := hexec h
      exact ⟨uargv, huargv, hwords⟩

/-- A page of memory with a NUL behind the word 5, and the stack pointer of a
process that makes its call from the top of the address space. -/
def wrappedCaller : User where
  sz := 4096
  esp := 0xFFFFFFFC
  mem a := if a = 0 then 5 else 0

theorem pointer_checks_exact_page : wrappedCaller.ExactChecks ∧ wrappedCaller.NoWrap :=
  pointer_checks_exact wrappedCaller (by decide)

/-- `argint(0)` of that process is accepted although `esp + 4` wraps: it reads
address 0. -/
theorem argint_wraps : wrappedCaller.sz.toNat ≤ KERNBASE ∧ wrappedCaller.argint 0 = some 5 ∧
    (wrappedCaller.argAddr 0).toNat ≠ wrappedCaller.esp.toNat + 4 := by
  decide

end User

end Xv6.Syscall

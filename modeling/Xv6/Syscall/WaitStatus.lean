import Xv6.Sched.Table
import Xv6.Syscall.Args
import Xv6.Vm.Mmu

/-!
What `wait` does to the memory of its caller. The exit status of the child is stored
through the pointer that `argptr` has accepted, and `argptr` accepts the null pointer
of every process that has four bytes of memory. From `KERNBASE` on, which the size of a
process may exceed, the kernel's own mapping of the memory answers.
-/

namespace Xv6.Syscall

open BitVec

open Sched (Table Slot)

open Vm (KERNBASE)

/-- What a store of the kernel at or above `KERNBASE` makes of the memory of the process: it
goes to the frame that is mapped there, or traps. -/
abbrev DirectStore := Word → Int → (Word → BitVec 8) → Option (Word → BitVec 8)

namespace User

variable (direct : DirectStore)

/-- The memory after `*addr = value` for an `int` below `KERNBASE`. -/
def setInt (mem : Word → BitVec 8) (addr : Word) (value : Int) : Word → BitVec 8 := fun a =>
  if a - addr < 4 then (BitVec.ofInt 32 value).extractLsb' (8 * (a - addr).toNat) 8 else mem a

/-- `*addr = value` for an `int`; `none` is a trap in the kernel. -/
def storeInt (u : User) (addr : Word) (value : Int) : Option User :=
  if addr.toNat + 4 ≤ KERNBASE then some { u with mem := setInt u.mem addr value }
  else (direct addr value u.mem).map fun mem => { u with mem }

/-- The loop of `wait` for the process `cur`, over the process tables that its scans
find: it sleeps between them, and has not returned when they end or the store traps. -/
def wait (u : User) (status : Word) (cur : Slot) : List Table → Option (Int × User)
  | [] => none
  | t :: later =>
    match (t.wait cur).2 with
    | .reaped pid exitStatus => (u.storeInt direct status exitStatus).map fun u' => (pid, u')
    | .failed => some (-1, u)
    | .blocked => wait u status cur later

def sysWait (u : User) (cur : Slot) (tables : List Table) : Option (Int × User) :=
  match u.argptr 0 4 with
  | none => some (-1, u)
  | some status => u.wait direct status cur tables

/-- The child that is reaped: its pid and its exit status. -/
def reaps (cur : Slot) : List Table → Option (Int × Int)
  | [] => none
  | t :: later =>
    match (t.wait cur).2 with
    | .reaped pid exitStatus => some (pid, exitStatus)
    | .failed => none
    | .blocked => reaps cur later

variable {direct} {u u' : User} {status : Word} {cur : Slot} {tables : List Table} {r : Int}

/-- What a `wait` that has returned did: it reaped a child and stored its status, or nothing. -/
theorem wait_some (hbound : status.toNat + 4 ≤ KERNBASE)
    (h : u.wait direct status cur tables = some (r, u')) :
    (reaps cur tables = none ∧ u' = u) ∨ ∃ exitStatus, reaps cur tables = some (r, exitStatus) ∧
        u'.mem = setInt u.mem status exitStatus := by
  induction tables with
  | nil => cases h
  | cons t later ih =>
    unfold wait at h
    unfold reaps
    cases hscan : (t.wait cur).2 with
    | reaped pid exitStatus =>
      simp only [hscan, storeInt, if_pos hbound] at h
      cases h
      exact .inr ⟨exitStatus, rfl, rfl⟩
    | failed =>
      rw [hscan] at h
      cases h
      exact .inl ⟨rfl, rfl⟩
    | blocked =>
      rw [hscan] at h
      exact ih h

theorem bytes_append (v : Word) :
    v.extractLsb' 24 8 ++ v.extractLsb' 16 8 ++ v.extractLsb' 8 8 ++ v.extractLsb' 0 8 = v := by
  ext i hi
  simp only [getElem_append, getElem_extractLsb']
  grind

theorem word_extract (u : User) (addr : Word) {j : Nat} (hj : j < 4) :
    (u.word addr).extractLsb' (8 * j) 8 = u.mem (addr + BitVec.ofNat 32 j) := by
  unfold word
  obtain rfl | rfl | rfl | rfl : j = 0 ∨ j = 1 ∨ j = 2 ∨ j = 3 := by omega
  all_goals
    ext i hi
    simp [getElem_extractLsb']
    grind

/-- A store changes nothing exactly when the word it writes is there already. -/
theorem setInt_eq_iff (u : User) (addr : Word) (value : Int) :
    setInt u.mem addr value = u.mem ↔ u.word addr = BitVec.ofInt 32 value := by
  constructor
  · intro hmem
    have hbyte (j : Nat) (hj : j < 4) : u.mem (addr + BitVec.ofNat 32 j) =
        (BitVec.ofInt 32 value).extractLsb' (8 * j) 8 := by
      have hsub : addr + BitVec.ofNat 32 j - addr = BitVec.ofNat 32 j := by
        rw [BitVec.add_comm, BitVec.add_sub_cancel]
      have hval : (BitVec.ofNat 32 j).toNat = j := Nat.mod_eq_of_lt (by omega)
      have hself := congrFun hmem (addr + BitVec.ofNat 32 j)
      unfold setInt at hself
      rw [hsub, hval, if_pos (by rw [lt_def, hval]; exact hj)] at hself
      exact hself.symm
    have hzero := hbyte 0 (by decide)
    rw [BitVec.add_zero] at hzero
    rw [← bytes_append (BitVec.ofInt 32 value)]
    unfold word
    rw [hzero]
    congr 1
    congr 1
    · congr 1
      · exact hbyte 3 (by decide)
      · exact hbyte 2 (by decide)
    · exact hbyte 1 (by decide)
  · intro hword
    funext a
    unfold setInt
    split
    · next ha =>
      have hback : addr + BitVec.ofNat 32 (a - addr).toNat = a := by
        rw [ofNat_toNat, setWidth_eq, BitVec.add_comm, BitVec.sub_add_cancel]
      rw [← hword, word_extract u addr (lt_def.mp ha), hback]
    · rfl

/-- A call of `wait` with a pointer below `KERNBASE` that returns keeps what is not the
caller's `int`, and with the null pointer everything, if and only if the pointer is not null,
no child is reaped, or the status of the child is what the first four bytes of the caller
already are. -/
theorem wait_memory_iff (hstatus : u.argptr 0 4 = some status)
    (hbound : status.toNat + 4 ≤ KERNBASE) (h : u.sysWait direct cur tables = some (r, u')) :
    (∀ a, u'.mem a ≠ u.mem a →
      status ≠ 0 ∧ a - status < 4 ∧ ∃ exitStatus, reaps cur tables = some (r, exitStatus)) ↔
    status ≠ 0 ∨ reaps cur tables = none ∨ ∃ exitStatus, reaps cur tables = some (r, exitStatus) ∧
        u.word 0 = BitVec.ofInt 32 exitStatus := by
  unfold sysWait at h
  rw [hstatus] at h
  rcases wait_some hbound h with ⟨hnone, rfl⟩ | ⟨exitStatus, hreaps, hmem⟩
  · exact ⟨fun _ => .inr (Or.inl hnone), fun _ a hne => absurd rfl hne⟩
  · rw [hmem]
    constructor
    · intro hkeeps
      rcases eq_or_ne status 0 with rfl | hne
      · refine .inr (Or.inr ⟨exitStatus, hreaps, ?_⟩)
        apply (setInt_eq_iff u 0 exitStatus).mp
        funext a
        by_contra hchanged
        exact (hkeeps a hchanged).1 rfl
      · exact .inl hne
    · intro hcond a hchanged
      have hin : a - status < 4 := by
        by_contra hout
        exact hchanged (if_neg hout)
      refine ⟨?_, hin, exitStatus, hreaps⟩
      rintro rfl
      rcases hcond with hne | hnone | ⟨value, hvalue, hword⟩
      · exact hne rfl
      · rw [hnone] at hreaps
        cases hreaps
      · rw [hreaps] at hvalue
        cases hvalue
        exact hchanged (congrFun ((setInt_eq_iff u 0 exitStatus).mpr hword) a)

/-- A process of two pages whose memory begins with the byte 0x55, `push %ebp`; the
argument of its system call is `arg`. -/
def waiter (arg : BitVec 8) : User where
  sz := 8192
  esp := 4096
  mem a := if a = 0 then 0x55 else if a = 4100 then arg else 0

/-- The child in slot 1 has called `exit(1)`. -/
def exitedChild : Table := fun p =>
  if p.val = 1 then { Sched.Proc.zero with
    state := .ZOMBIE, pid := 3, parent := some ⟨0, NPROC_pos⟩, exitStatus := 256 }
  else Sched.Proc.zero

/-- With the pointer 16 only the four bytes there change. -/
theorem wait_memory_sixteen : ∃ u',
    (waiter 16).sysWait (fun _ _ _ => none) ⟨0, by decide⟩ [exitedChild] = some (3, u') ∧
    u'.mem 17 = 1 ∧ ∀ a, u'.mem a ≠ (waiter 16).mem a → a - 16 < 4 := by
  have hcall : (waiter 16).sysWait (fun _ _ _ => none) ⟨0, by decide⟩ [exitedChild] =
      some (3, { waiter 16 with mem := setInt (waiter 16).mem 16 256 }) := by rfl
  refine ⟨_, hcall, by decide, fun a ha => ?_⟩
  exact ((wait_memory_iff (by decide) (by decide) hcall).mpr (Or.inl (by decide)) a ha).2.1

/-- `wait(NULL)` overwrites the first instruction of the caller. -/
theorem wait_null_overwrites : ∃ u', (waiter 0).argptr 0 4 = some 0 ∧
    (waiter 0).sysWait (fun _ _ _ => none) ⟨0, by decide⟩ [exitedChild] = some (3, u') ∧
    (waiter 0).mem 0 = 0x55 ∧ u'.mem 0 = 0 :=
  ⟨{ waiter 0 with mem := setInt (waiter 0).mem 0 256 }, by decide, by rfl, by decide, by decide⟩

end User

end Xv6.Syscall

import Xv6.Vm.Mmu
import Xv6.Lib.Bytes

/-!
The search for the tables of the multiprocessor specification (`mp.c`), on any contents of
the memory. The loop over the entries of the configuration table has a bound on its number
of rounds; `none` means that the bound was reached.
-/

namespace Xv6.Mp

open Lib Vm

def NCPU : Nat := 8

/-- `sizeof(struct mp)` and `sizeof(struct mpconf)`. -/
def MPSIZE : Nat := 16
def MPCONFSIZE : Nat := 44

def MPPROC : UInt8 := 0
def MPBUS : UInt8 := 1
def MPIOAPIC : UInt8 := 2
def MPIOINTR : UInt8 := 3
def MPLINTR : UInt8 := 4

/-- `p + n` for a pointer to bytes. -/
def ahead (p n : Nat) : Nat := (p + n) % 2 ^ 32

def bytesAt (mem : Bytes) (p : Nat) : Bytes := fun i => mem (ahead p i)

def sum (addr : Bytes) : Nat → UInt8
  | 0 => 0
  | len + 1 => sum addr len + addr len

/-- `memcmp(p, text, 4) == 0`. -/
def signed (p : Bytes) (text : List UInt8) : Bool := (List.range 4).map p == text

/-- The loop of `mpsearch1`, over the given number of structures. -/
def mpsearch1Loop (mem : Bytes) : Nat → Nat → Option Nat
  | 0, _ => none
  | n + 1, p =>
    -- "_MP_"
    if signed (bytesAt mem p) [95, 77, 80, 95] ∧ sum (bytesAt mem p) MPSIZE = 0 then some p
    else mpsearch1Loop mem n (ahead p MPSIZE)

def mpsearch1 (mem : Bytes) (a len : Nat) : Option Nat :=
  mpsearch1Loop mem (len / MPSIZE) (P2V a)

def mpsearch (mem : Bytes) : Option Nat :=
  let bda := bytesAt mem (P2V 0x400)
  let ebda := le16 bda 0x0E * 16
  let first := if ebda ≠ 0 then mpsearch1 mem ebda 1024
    else mpsearch1 mem ((le16 bda 0x13 * 1024 + (2 ^ 32 - 1024)) % 2 ^ 32) 1024
  match first with
  | some mp => some mp
  | none => mpsearch1 mem 0xF0000 0x10000

/-- The addresses of the floating pointer and of the configuration table. -/
def mpconfig (mem : Bytes) : Option (Nat × Nat) :=
  match mpsearch mem with
  | none => none
  | some mp =>
    let physaddr := le32 (bytesAt mem mp) 4
    if physaddr = 0 then none
    else
      let conf := bytesAt mem (P2V physaddr)
      -- "PCMP"
      if ¬ signed conf [80, 67, 77, 80] then none
      else if conf 6 ≠ 1 ∧ conf 6 ≠ 4 then none
      else if sum conf (le16 conf 4) ≠ 0 then none
      else some (mp, P2V physaddr)

/-- The `length` that the header of the table has. -/
def tableLength (mem : Bytes) (conf : Nat) : Nat := le16 (bytesAt mem conf) 4

/-- What the entries of the table say: `cpus` has the `apicid` of each processor. -/
structure Machine where
  cpus : List UInt8
  ioapicid : UInt8
  ismp : Bool
  deriving DecidableEq, Repr

/-- A processor more, while there is room for it. -/
def Machine.addCpu (s : Machine) (apicid : UInt8) : Machine :=
  if s.cpus.length < NCPU then { s with cpus := s.cpus ++ [apicid] } else s

/-- The loop of `mpinit` from the entry at `p` on. -/
def entryLoop (mem : Bytes) (e : Nat) : Nat → Nat → Machine → Option Machine
  | 0, _, _ => none
  | fuel + 1, p, s =>
    if p < e then
      if mem p = MPPROC then entryLoop mem e fuel (ahead p 20) (s.addCpu (mem (ahead p 1)))
      else if mem p = MPIOAPIC then
        entryLoop mem e fuel (ahead p 8) { s with ioapicid := mem (ahead p 1) }
      else if mem p = MPBUS ∨ mem p = MPIOINTR ∨ mem p = MPLINTR then
        entryLoop mem e fuel (ahead p 8) s
      -- the break ends the switch, not the loop
      else entryLoop mem e fuel p { s with ismp := false }
    else some s

inductive Panic where
  /-- Expect to run on an SMP -/
  | expectSmp
  /-- Didn't find a suitable machine -/
  | unsuitable
  deriving DecidableEq, Repr

/-- `mpinit` on a machine whose `ncpu` is 0; `imcrp` says that the IMCR is written. -/
def mpinit (fuel : Nat) (mem : Bytes) : Option (Except Panic (Machine × Nat × Bool)) :=
  match mpconfig mem with
  | none => some (.error .expectSmp)
  | some (mp, conf) =>
    let lapic := le32 (bytesAt mem conf) 36
    let e := ahead conf (tableLength mem conf)
    match entryLoop mem e fuel (ahead conf MPCONFSIZE) ⟨[], 0, true⟩ with
    | none => none
    | some s =>
      if ¬ s.ismp then some (.error .unsuitable)
      else some (.ok (s, lapic, mem (ahead mp 12) ≠ 0))

/-- The length of an entry, for the types that the specification has. -/
def entryLength (type : UInt8) : Option Nat :=
  if type = MPPROC then some 20
  else if type = MPIOAPIC ∨ type = MPBUS ∨ type = MPIOINTR ∨ type = MPLINTR then some 8
  else none

/-- The entries from `p` to the end `e` all have a type of the specification. -/
inductive Known (mem : Bytes) (e : Nat) : Nat → Prop
  | done {p : Nat} (h : e ≤ p) : Known mem e p
  | entry {p n : Nat} (hlt : p < e) (hlen : entryLength (mem p) = some n)
      (hrest : Known mem e (p + n)) : Known mem e p

section

variable {mem : Bytes} {e p n fuel : Nat} {s s' : Machine}

theorem Machine.addCpu_length (h : s.cpus.length ≤ NCPU) (apicid : UInt8) :
    (s.addCpu apicid).cpus.length ≤ NCPU := by
  unfold addCpu
  split
  · next hlt =>
    rw [List.length_append]
    exact hlt
  · exact h

theorem Machine.addCpu_ismp (s : Machine) (apicid : UInt8) : (s.addCpu apicid).ismp = s.ismp := by
  unfold addCpu
  split <;> rfl

theorem entryLength_le (h : entryLength (mem p) = some n) : n ≤ 20 := by
  unfold entryLength at h
  split at h
  · cases h
    exact Nat.le_refl 20
  · split at h <;> cases h
    decide

/-- The machine is still suitable, and its processors fit. -/
def Machine.Ok (s : Machine) : Prop := s.ismp = true ∧ s.cpus.length ≤ NCPU

theorem entryLoop_entry (hs : s.Ok) (hlt : p < e) (hlen : entryLength (mem p) = some n)
    (hroom : e + 20 ≤ 2 ^ 32) :
    ∃ s1 : Machine, s1.Ok ∧
      ∀ fuel, entryLoop mem e (fuel + 1) p s = entryLoop mem e fuel (p + n) s1 := by
  have hle := entryLength_le hlen
  have hnext : ahead p n = p + n := Nat.mod_eq_of_lt (by omega)
  rw [← hnext]
  unfold entryLength at hlen
  split at hlen
  · next hproc =>
    cases hlen
    refine ⟨s.addCpu (mem (ahead p 1)), ⟨?_, Machine.addCpu_length hs.2 _⟩, fun fuel => ?_⟩
    · rw [Machine.addCpu_ismp]
      exact hs.1
    · rw [entryLoop, if_pos hlt, if_pos hproc]
  · next hproc =>
    split at hlen <;> cases hlen
    next hother =>
    by_cases hio : mem p = MPIOAPIC
    · refine ⟨{ s with ioapicid := mem (ahead p 1) }, hs, fun fuel => ?_⟩
      rw [entryLoop, if_pos hlt, if_neg hproc, if_pos hio]
    · refine ⟨s, hs, fun fuel => ?_⟩
      rw [entryLoop, if_pos hlt, if_neg hproc, if_neg hio, if_pos (hother.resolve_left hio)]

theorem entryLoop_stuck (hlt : p < e) (hlen : entryLength (mem p) = none) :
    entryLoop mem e fuel p s = none := by
  have hproc : mem p ≠ MPPROC := fun h => by
    unfold entryLength at hlen
    rw [if_pos h] at hlen
    cases hlen
  have hother : ¬ (mem p = MPIOAPIC ∨ mem p = MPBUS ∨ mem p = MPIOINTR ∨ mem p = MPLINTR) :=
    fun h => by
      unfold entryLength at hlen
      rw [if_neg hproc, if_pos h] at hlen
      cases hlen
  obtain ⟨hio, hrest⟩ := not_or.mp hother
  induction fuel generalizing s with
  | zero => rfl
  | succ fuel ih =>
    rw [entryLoop, if_pos hlt, if_neg hproc, if_neg hio, if_neg hrest]
    exact ih

theorem entryLoop_ends (h : Known mem e p) (hroom : e + 20 ≤ 2 ^ 32) (hs : s.Ok) :
    ∃ fuel s', entryLoop mem e fuel p s = some s' := by
  induction h generalizing s with
  | done hle => exact ⟨1, s, if_neg (Nat.not_lt.mpr hle)⟩
  | entry hlt hlen _ ih =>
    obtain ⟨s1, hs1, hstep⟩ := entryLoop_entry hs hlt hlen hroom
    obtain ⟨fuel, s', hrest⟩ := ih hs1
    exact ⟨fuel + 1, s', (hstep fuel).trans hrest⟩

theorem entryLoop_sound (hloop : entryLoop mem e fuel p s = some s')
    (hroom : e + 20 ≤ 2 ^ 32) (hs : s.Ok) : Known mem e p ∧ s'.Ok := by
  induction fuel generalizing p s with
  | zero => cases hloop
  | succ fuel ih =>
    by_cases hlt : p < e
    · cases hlen : entryLength (mem p) with
      | none =>
        rw [entryLoop_stuck hlt hlen] at hloop
        cases hloop
      | some n =>
        obtain ⟨s1, hs1, hstep⟩ := entryLoop_entry hs hlt hlen hroom
        obtain ⟨hrest, hok⟩ := ih ((hstep fuel).symm.trans hloop) hs1
        exact ⟨.entry hlt hlen hrest, hok⟩
    · rw [entryLoop, if_neg hlt] at hloop
      cases hloop
      exact ⟨.done (Nat.not_lt.mp hlt), hs⟩

end

/-- With a table that passes the tests, `mpinit` ends if and only if the entries of the table
all have a known type. It then has walked all of them, with at most `NCPU` processors, and
never reports an unsuitable machine. -/
theorem mpinit_ends_iff {mem : Bytes} {mp conf : Nat} (hconf : mpconfig mem = some (mp, conf))
    (hroom : conf + tableLength mem conf + MPCONFSIZE < 2 ^ 32) :
    ((∃ fuel r, mpinit fuel mem = some r) ↔
      Known mem (conf + tableLength mem conf) (conf + MPCONFSIZE)) ∧
    ∀ fuel r, mpinit fuel mem = some r → ∃ s lapic imcrp, r = .ok (s, lapic, imcrp) ∧
      s.cpus.length ≤ NCPU := by
  have hend : ahead conf (tableLength mem conf) = conf + tableLength mem conf :=
    Nat.mod_eq_of_lt (by omega)
  have hfirst : ahead conf MPCONFSIZE = conf + MPCONFSIZE := Nat.mod_eq_of_lt (by omega)
  have hspace : conf + tableLength mem conf + 20 ≤ 2 ^ 32 := by
    unfold MPCONFSIZE at hroom
    omega
  have hstart : Machine.Ok ⟨[], 0, true⟩ := ⟨rfl, Nat.zero_le _⟩
  have hreturns (fuel : Nat) (r : Except Panic (Machine × Nat × Bool))
      (hr : mpinit fuel mem = some r) :
      Known mem (conf + tableLength mem conf) (conf + MPCONFSIZE) ∧
        ∃ s lapic imcrp, r = .ok (s, lapic, imcrp) ∧ s.cpus.length ≤ NCPU := by
    unfold mpinit at hr
    simp only [hconf, hend, hfirst] at hr
    split at hr
    · cases hr
    · next s hloop =>
      obtain ⟨hknown, hismp, hlen⟩ := entryLoop_sound hloop hspace hstart
      rw [if_neg (not_not_intro hismp)] at hr
      cases hr
      exact ⟨hknown, s, _, _, rfl, hlen⟩
  refine ⟨⟨?_, ?_⟩, fun fuel r hr => (hreturns fuel r hr).2⟩
  · rintro ⟨fuel, r, hr⟩
    exact (hreturns fuel r hr).1
  · intro hknown
    obtain ⟨fuel, s, hloop⟩ := entryLoop_ends hknown hspace hstart
    have hok := (entryLoop_sound hloop hspace hstart).2
    refine ⟨fuel, .ok (s, le32 (bytesAt mem conf) 36, mem (ahead mp 12) ≠ 0), ?_⟩
    unfold mpinit
    simp only [hconf, hend, hfirst, hloop]
    exact if_neg (not_not_intro hok.1)

namespace Sample

/-- A table with these entries, at physical address 32. -/
def table (entries : List UInt8) : List UInt8 :=
  let length := UInt8.ofNat (MPCONFSIZE + entries.length)
  let head (checksum : UInt8) : List UInt8 := [80, 67, 77, 80, length, 0, 1, checksum]
  let rest := List.replicate 36 0 ++ entries
  head (0 - (head 0 ++ rest).foldl (· + ·) 0) ++ rest

/-- A memory with a floating pointer at physical address 16, which the BIOS data area says. -/
def memory (entries : List UInt8) : Bytes :=
  let mp : List UInt8 := [95, 77, 80, 95, 32, 0, 0, 0, 1, 1, 131, 0, 0, 0, 0, 0]
  storeAll (fun _ => 0) [(P2V 0x40E, [1, 0]), (P2V 16, mp), (P2V 32, table entries)]

def processor : List UInt8 := MPPROC :: 7 :: List.replicate 18 0

end Sample

/-- An entry of type 5 is never left. -/
theorem mpinit_never_ends : mpconfig (Sample.memory [5]) = some (P2V 16, P2V 32) ∧
    ∀ fuel, mpinit fuel (Sample.memory [5]) = none := by
  have hconf : mpconfig (Sample.memory [5]) = some (P2V 16, P2V 32) := by decide +kernel
  refine ⟨hconf, fun fuel => ?_⟩
  have hstuck : entryLoop (Sample.memory [5])
      (ahead (P2V 32) (tableLength (Sample.memory [5]) (P2V 32))) fuel
      (ahead (P2V 32) MPCONFSIZE) ⟨[], 0, true⟩ = none :=
    entryLoop_stuck (by decide +kernel) (by decide +kernel)
  unfold mpinit
  simp only [hconf, hstuck]

theorem mpinit_ends_one : ∃ fuel r, mpinit fuel (Sample.memory Sample.processor) = some r := by
  have hconf : mpconfig (Sample.memory Sample.processor) = some (P2V 16, P2V 32) := by
    decide +kernel
  refine (mpinit_ends_iff hconf (by decide +kernel)).1.mpr ?_
  refine .entry (n := 20) (by decide +kernel) (by decide +kernel) (.done ?_)
  decide +kernel

end Xv6.Mp

import Xv6.Vm.Origin
import Xv6.Vm.Owners

/-!
The contract of `sbrk`. Growth only moves `sz`, without a bound, and shrinking
takes the size 0 that `deallocuvm` returns for a failure; so the contract
holds exactly for arguments that stay below `KERNBASE` and leave at least one
byte. Along runs that pass only such arguments, `sz` stays below `KERNBASE`,
page 0 stays mapped, and nothing is mapped at or above `PGROUNDUP(sz)`.
-/

namespace Xv6.Vm

open Lib Relation
open Sched (Slot ProcState)

/-- Arguments that keep the new size in `(0, KERNBASE)`. -/
def SbrkFits (sz : Nat) (n : BitVec 32) : Prop :=
  (0 ≤ n.toInt → (sz : ℤ) + n.toInt < KERNBASE) ∧ (n.toInt < 0 → 0 < (sz : ℤ) + n.toInt)

/-- `sys_sbrk(n)` returns the old size and moves `sz` by exactly `n` within
`[0, KERNBASE)`, with no page left at or above the new end, or it returns -1 and
changes nothing. -/
def SbrkContract (L : Layout) (k : Kmem) (p : Proc) (n : BitVec 32) : Prop :=
  ∃ r p' k', sysSbrk L k p (some n) = .ok (r, p', k') ∧
    ((r = some p.sz ∧ (p'.sz : ℤ) = p.sz + n.toInt ∧ p'.sz < KERNBASE ∧
        ∀ d, p.pgdir = some d → ∃ d', p'.pgdir = some d' ∧ ∀ x < 2 ^ 32,
          d'.entry x = if PGROUNDUP p'.sz ≤ x ∧ x < KERNBASE then none else d.entry x) ∨
      (r = none ∧ p'.sz = p.sz ∧ ∀ d, p.pgdir = some d → ∃ d', p'.pgdir = some d' ∧
        ∀ x < 2 ^ 32, d'.entry x = d.entry x))

/-- What holds of the size of a process along fitting runs. -/
structure SizeOk (q : Proc) : Prop where
  lt : q.sz < KERNBASE
  first : ∀ d, q.pgdir = some d → (d.entry 0).isSome
  above : ∀ d, q.pgdir = some d → ∀ x < KERNBASE, PGROUNDUP q.sz ≤ x → d.entry x = none

variable {n : BitVec 32} {p q p' : Proc} {d : PageDir} {L : Layout} {k k' : Kmem} {κ : Kernel}
variable {ncpu : Nat} {initcode : List UInt8}

theorem addInt_eq {sz : Nat} (hlo : 0 ≤ (sz : ℤ) + n.toInt)
    (hhi : (sz : ℤ) + n.toInt < 2 ^ 32) : (addInt sz n : ℤ) = sz + n.toInt := by
  rw [BitVec.toInt_eq_toNat_cond] at *
  have hn := n.isLt
  unfold addInt u32
  split at hlo <;> omega

/-- Below zero `sz + n` wraps around to a large size. -/
theorem addInt_wrap {sz : Nat} (hneg : (sz : ℤ) + n.toInt < 0) :
    (addInt sz n : ℤ) = sz + n.toInt + 2 ^ 32 := by
  rw [BitVec.toInt_eq_toNat_cond] at *
  have hn := n.isLt
  unfold addInt u32
  split at hneg <;> omega

theorem SizeOk.pos (h : SizeOk q) (hd : q.pgdir = some d) : 0 < q.sz := by
  by_contra hzero
  have hsz : q.sz = 0 := by omega
  have hfirst := h.first d hd
  rw [h.above d hd 0 (by decide) (by rw [hsz]; decide)] at hfirst
  cases hfirst

theorem sysSbrk_fits (hok : SizeOk p) (hd : p.pgdir = some d)
    (hframes : ∀ f ∈ d.userFrames, L.PageOk f) (hfits : SbrkFits p.sz n) :
    ∃ p' k' d', sysSbrk L k p (some n) = .ok (some p.sz, p', k') ∧
      p' = { p with sz := p'.sz, pgdir := some d' } ∧ (p'.sz : ℤ) = p.sz + n.toInt ∧ 0 < p'.sz ∧
      p'.sz < KERNBASE ∧ ∀ x < 2 ^ 32,
        d'.entry x = if PGROUNDUP p'.sz ≤ x ∧ x < KERNBASE then none else d.entry x := by
  have hpos := hok.pos hd
  have hlt := hok.lt
  have habove (sz x : Nat) (hsz : p.sz ≤ sz) (hsz' : sz < KERNBASE) :
      d.entry x = if PGROUNDUP sz ≤ x ∧ x < KERNBASE then none else d.entry x := by
    split
    · next hin =>
      apply hok.above d hd x hin.2
      simp only [PGROUNDUP, u32, PGSIZE, KERNBASE] at *
      omega
    · rfl
  rcases lt_trichotomy n.toInt 0 with hn | hn | hn
  · have hnew := @addInt_eq n p.sz (hfits.2 hn).le (by
      simp only [KERNBASE] at hlt
      omega)
    have hfit := hfits.2 hn
    obtain ⟨r, d', k', hdealloc⟩ := deallocuvm_ok k (addInt p.sz n) hframes hlt.le
    obtain ⟨hr, hunmapped⟩ := deallocuvm_spec hdealloc hlt.le
    have hr' : r = addInt p.sz n := by omega
    subst hr'
    refine ⟨{ p with pgdir := some d', sz := addInt p.sz n }, k', d', ?_, rfl, hnew,
      by simp only; omega, by simp only; omega, ?_⟩
    · rw [sysSbrk_neg hn hd hdealloc, if_neg (by omega)]
    · intro x hx
      simp only
      by_cases hgone : PGROUNDUP (addInt p.sz n) ≤ x ∧ PGROUNDDOWN x < p.sz
      · rw [hunmapped.absent x hx ⟨by omega, hgone⟩, if_pos]
        refine ⟨hgone.1, ?_⟩
        simp only [PGROUNDDOWN, PGSIZE, KERNBASE] at *
        omega
      · rw [hunmapped.kept x hx fun h => hgone h.2]
        split
        · next hin =>
          apply hok.above d hd x hin.2
          simp only [PGROUNDUP, PGROUNDDOWN, u32, PGSIZE, KERNBASE] at *
          omega
        · rfl
  · refine ⟨p, k, d, sysSbrk_zero L k p hn, by rw [← hd], by omega, hpos, hlt, fun x _ => ?_⟩
    exact habove p.sz x le_rfl hlt
  · have hfit := hfits.1 hn.le
    have hnew := @addInt_eq n p.sz (by omega) (by
      simp only [KERNBASE] at hfit
      omega)
    refine ⟨{ p with sz := addInt p.sz n }, k, d, sysSbrk_pos L k p hn, by rw [← hd], hnew,
      by simp only; omega, by simp only; omega, fun x _ => ?_⟩
    exact habove (addInt p.sz n) x (by omega) (by omega)

/-- The contract fails for every other argument: growth past the bound is
granted, shrinking to 0 unmaps everything and reports a failure, and shrinking
further reports success and does nothing. -/
theorem sbrkFits_of_contract (hok : SizeOk p) (hd : p.pgdir = some d) (h : SbrkContract L k p n) :
    SbrkFits p.sz n := by
  have hpos := hok.pos hd
  have hlt := hok.lt
  obtain ⟨r, p', k', hsbrk, hcase⟩ := h
  refine ⟨fun hn => ?_, fun hn => ?_⟩
  · rcases hcase with ⟨_, hsz, hlt', _⟩ | ⟨rfl, _⟩
    · omega
    · rcases hn.lt_or_eq with hn | hn
      · rw [sysSbrk_pos L k p hn] at hsbrk
        cases hsbrk
      · rw [sysSbrk_zero L k p hn.symm] at hsbrk
        cases hsbrk
  · obtain ⟨sz, d', hdealloc, hres⟩ := sysSbrk_neg_ok hn hd hsbrk
    obtain ⟨hr, hunmapped⟩ := deallocuvm_spec hdealloc hlt.le
    by_contra hle
    rcases (not_lt.mp hle).lt_or_eq with hneg | hzero
    · -- the wrapped size is not below the old one
      have hwrap := addInt_wrap hneg
      have hmin : sz = p.sz := by
        rw [BitVec.toInt_eq_toNat_cond] at hwrap
        have hbound := n.isLt
        split at hwrap <;> omega
      rw [hmin, if_neg (by omega)] at hres
      cases hres
      rcases hcase with ⟨_, hsz, _⟩ | ⟨hnone, _⟩
      · simp only at hsz
        omega
      · cases hnone
    · have hnew := @addInt_eq n p.sz hzero.symm.le (by omega)
      rw [if_pos (by omega)] at hres
      cases hres
      rcases hcase with ⟨hsome, _⟩ | ⟨_, _, hsame⟩
      · cases hsome
      · obtain ⟨d1, hd1, hentry⟩ := hsame d hd
        cases hd1
        have hgone := hunmapped.absent 0 (by decide) ⟨by omega, by
          rw [show addInt p.sz n = 0 by omega]
          decide, by
          change 0 < p.sz
          exact hpos⟩
        have hfirst := hok.first d hd
        rw [← hentry 0 (by decide), hgone] at hfirst
        cases hfirst

theorem SizeOk.copy {d' : PageDir} (h : SizeOk p) (hd : p.pgdir = some d)
    (hd' : q.pgdir = some d') (hcopy : UserCopy d d' p.sz) (hsz : q.sz = p.sz) : SizeOk q := by
  have hpos := h.pos hd
  have hlt := h.lt
  refine ⟨by rw [hsz]; exact hlt, fun d1 hd1 => ?_, fun d1 hd1 x hx hge => ?_⟩
  · cases hd'.symm.trans hd1
    have hfirst := hcopy 0 (by decide)
    rw [if_pos (by exact hpos)] at hfirst
    have hold := h.first d hd
    rw [← Option.isSome_map (f := Pte.flags), hfirst, Option.isSome_map]
    exact hold
  · cases hd'.symm.trans hd1
    rw [hsz] at hge
    have hentry := hcopy x hx
    rwa [if_neg] at hentry
    simp only [PGROUNDUP, PGROUNDDOWN, u32, PGSIZE, KERNBASE] at *
    omega

theorem ExecImage.sizeOk {guard : Nat} (h : ExecImage d guard q.sz)
    (hd : q.pgdir = some d) : SizeOk q := by
  have hlt := h.lt
  have hsize := h.size
  refine ⟨hlt, fun d1 hd1 => ?_, fun d1 hd1 x hx hge => ?_⟩
  · cases hd.symm.trans hd1
    have hfirst := h.entry 0 (by decide)
    rw [if_pos (by change 0 < q.sz; simp only [PGSIZE] at hsize; omega)] at hfirst
    obtain ⟨f, hf⟩ := hfirst
    rw [hf]
    rfl
  · cases hd.symm.trans hd1
    have hentry := h.entry x hx
    rwa [if_neg] at hentry
    simp only [PGROUNDUP, PGROUNDDOWN, u32, PGSIZE, KERNBASE] at *
    omega

theorem SizeOk.exec {ip : Option (List UInt8)}
    {path : List UInt8} {argv : List (List UInt8)} {b : Bool} (hok : SizeOk p)
    (h : Vm.exec L k p ip path argv = .ok (b, p', k')) : SizeOk p' := by
  rcases exec_spec h with ⟨_, _, g, rfl⟩ | ⟨_, _, d', _, _, _, _, hproc, _, _, himage⟩
  · exact ⟨hok.lt, hok.first, hok.above⟩
  · exact himage.sizeOk (by rw [hproc])

theorem SizeOk.sbrk {arg : Option (BitVec 32)}
    {r : Option Nat} (hok : SizeOk p) (hd : p.pgdir = some d)
    (hframes : ∀ f ∈ d.userFrames, L.PageOk f) (hfits : ∀ n, arg = some n → SbrkFits p.sz n)
    (h : sysSbrk L k p arg = .ok (r, p', k')) : SizeOk p' := by
  cases arg with
  | none =>
    cases h
    exact hok
  | some n =>
    obtain ⟨q, k1, d', hsbrk, hproc, hsz, hpos, hlt, hentry⟩ :=
      sysSbrk_fits (k := k) hok hd hframes (hfits n rfl)
    cases hsbrk.symm.trans h
    have hd' : p'.pgdir = some d' := by rw [hproc]
    refine ⟨hlt, fun d1 hd1 => ?_, fun d1 hd1 x hx hge => ?_⟩
    · cases hd'.symm.trans hd1
      rw [hentry 0 (by decide), if_neg]
      · exact hok.first d hd
      · simp only [PGROUNDUP, u32, PGSIZE, KERNBASE] at *
        omega
    · cases hd'.symm.trans hd1
      rw [hentry x (lt_32_of_user hx), if_pos ⟨hge, hx⟩]

theorem SizeOk.fault {addr : Nat} {r : Fault}
    (hok : SizeOk p) (hd : p.pgdir = some d) (h : pageFault L k p addr = .ok (r, p', k')) :
    SizeOk p' := by
  have hlt := hok.lt
  -- the directory maps what it did, and perhaps the page of the address
  have hgrow {d' : PageDir} (hin : addr < p.sz)
      (hentry : ∀ x < 2 ^ 32, x / PGSIZE ≠ addr / PGSIZE → d'.entry x = d.entry x)
      (hfirst : (d'.entry 0).isSome) : SizeOk { p with pgdir := some d' } := by
    refine ⟨hlt, fun d1 hd1 => ?_, fun d1 hd1 x hx hge => ?_⟩
    · cases hd1
      exact hfirst
    · cases hd1
      rw [hentry x (lt_32_of_user hx)]
      · exact hok.above d hd x hx hge
      · simp only [PGROUNDUP, u32, PGSIZE, KERNBASE] at *
        omega
  rcases pageFault_spec h hd hlt.le with ⟨_, _, rfl, _⟩ | ⟨_, _, _, rfl, _⟩ |
    ⟨hin, _, d', _, ⟨_, rfl, hentry⟩ | ⟨_, rfl, _, mem, hentry, _⟩⟩
  · exact ⟨hok.lt, hok.first, hok.above⟩
  · exact ⟨hok.lt, hok.first, hok.above⟩
  · have hsame := hgrow hin (fun x hx _ => hentry x hx)
      (by rw [hentry 0 (by decide)]; exact hok.first d hd)
    exact ⟨hsame.lt, hsame.first, hsame.above⟩
  · refine hgrow hin (fun x hx hne => by rw [hentry x hx, if_neg hne]) ?_
    rw [hentry 0 (by decide)]
    split
    · rfl
    · exact hok.first d hd

namespace Kernel

/-- A call that completes, where `sbrk` gets a fitting argument. -/
def FittingStep (L : Layout) (κ κ' : Kernel) : Prop :=
  ∃ a, κ.Enabled a ∧ (∀ p n, a = .sbrk p (some n) → SbrkFits (κ.proc p).sz n) ∧ step L κ a = .ok κ'

theorem sizeOk_step {κ' : Kernel} {a : Act} {q : Slot} (h : Inv L (handed L) κ)
    (hok : ∀ p, κ.Live p → SizeOk (κ.proc p)) (horigin : Origin L κ κ' q a)
    (hfits : ∀ p n, a = .sbrk p (some n) → SbrkFits (κ.proc p).sz n) : SizeOk (κ'.proc q) := by
  cases horigin with
  | same _ hlive hsame =>
    obtain ⟨hsz, hpgdir, _⟩ := hsame
    have hold := hok q hlive
    exact ⟨by rw [hsz]; exact hold.lt, by rw [hpgdir]; exact hold.first,
      by rw [hsz, hpgdir]; exact hold.above⟩
  | @fork p _ _ hlive _ hd hd' hcopy hsz _ => exact (hok p hlive).copy hd hd' hcopy hsz
  | exec hlive hexec => exact (hok q hlive).exec hexec
  | sbrk hlive hsbrk =>
    obtain ⟨_, d, _, hd, _⟩ := h.space hlive
    refine (hok q hlive).sbrk hd (h.userFrames_ok hlive hd) (fun n hn => ?_) hsbrk
    exact hfits q n (by rw [hn])
  | fault hlive hfault =>
    obtain ⟨_, d, _, hd, _⟩ := h.space hlive
    exact (hok q hlive).fault hd hfault

theorem boot_live (hboot : boot L ncpu initcode = .ok κ) (p : Slot) :
    κ.Live p ↔ p = κ.initproc := by
  obtain ⟨kstack, d, mem, hproc, _, _, hothers⟩ := boot_first hboot
  unfold Live
  constructor
  · intro hlive
    by_contra hp
    rw [hothers p hp] at hlive
    cases hlive
  · rintro rfl
    rw [hproc]
    rfl

theorem boot_sizeOk (hboot : boot L ncpu initcode = .ok κ) : SizeOk (κ.proc κ.initproc) := by
  obtain ⟨kstack, d, mem, hproc, hentry, _⟩ := boot_first hboot
  have hsz : (firstProcess kstack d).sz = PGSIZE := rfl
  rw [hproc]
  refine ⟨by rw [hsz]; decide, fun d1 hd1 => ?_, fun d1 hd1 x hx hge => ?_⟩
  · cases hd1
    rw [hentry 0 (by decide), if_pos (by decide)]
    rfl
  · cases hd1
    rw [hsz, show PGROUNDUP PGSIZE = PGSIZE by decide] at hge
    rw [hentry x hx, if_neg (Nat.not_lt.mpr hge)]

theorem sizeOk_of_run {κ0 : Kernel}
    (hboot : boot L ncpu initcode = .ok κ0) (hrun : ReflTransGen (FittingStep L) κ0 κ) :
    Inv L (handed L) κ ∧ ∀ p, κ.Live p → SizeOk (κ.proc p) := by
  refine invariant_of_run (fun κ => Inv L (handed L) κ ∧ ∀ p, κ.Live p → SizeOk (κ.proc p)) hrun
    ⟨(boot_spec hboot).1, ?_⟩ ?_
  · intro p hlive
    rw [(boot_live hboot p).mp hlive]
    exact boot_sizeOk hboot
  · rintro κ1 κ2 ⟨hinv, hok⟩ ⟨a, henabled, hfits, hstep⟩
    have hbounded : κ1.Bounded := fun p hlive => (hok p hlive).lt.le
    refine ⟨step_inv hinv (handed_nodup L) hbounded henabled hstep, fun q hq => ?_⟩
    exact sizeOk_step hinv hok (step_origin hinv (handed_nodup L) hbounded henabled hstep hq) hfits

/-- In every state that fitting calls reach, `sz` is below `KERNBASE`, and the
contract of `sbrk` holds for exactly the fitting arguments. -/
theorem sbrk_contract_iff {L : Layout} {ncpu : Nat} {initcode : List UInt8} {κ0 κ : Kernel}
    (hboot : boot L ncpu initcode = .ok κ0) (hrun : ReflTransGen (FittingStep L) κ0 κ) {p : Slot}
    (hlive : κ.Live p) (n : BitVec 32) :
    (κ.proc p).sz < KERNBASE ∧ (SbrkContract L κ.kmem (κ.proc p) n ↔ SbrkFits (κ.proc p).sz n) := by
  obtain ⟨hinv, hsizes⟩ := sizeOk_of_run hboot hrun
  have hok := hsizes p hlive
  obtain ⟨_, d, _, hd, _⟩ := hinv.space hlive
  refine ⟨hok.lt, sbrkFits_of_contract hok hd, fun hfits => ?_⟩
  obtain ⟨p', k', d', hsbrk, hproc, hsz, _, hlt, hentry⟩ :=
    sysSbrk_fits (k := κ.kmem) hok hd (hinv.userFrames_ok hlive hd) hfits
  refine ⟨some (κ.proc p).sz, p', k', hsbrk, .inl ⟨rfl, hsz, hlt, fun d1 hd1 => ?_⟩⟩
  cases hd.symm.trans hd1
  exact ⟨d', by rw [hproc], hentry⟩

/-- The first process grows by a page and gives it back. -/
theorem sbrk_contract_shrink : ∃ κ0 κ : Kernel, boot smallLayout 1 [0xEB, 0xFE] = .ok κ0 ∧
    ReflTransGen (FittingStep smallLayout) κ0 κ ∧ (κ.proc κ0.initproc).sz = 8192 ∧
      SbrkContract smallLayout κ.kmem (κ.proc κ0.initproc) (-4096) := by
  obtain ⟨κ0, hboot⟩ := smallLayout_boots 1 (by decide)
  have hlive := (boot_live hboot _).mpr rfl
  obtain ⟨kstack, d, mem, hproc, _⟩ := boot_first hboot
  have hsz : (κ0.proc κ0.initproc).sz = PGSIZE := by
    rw [hproc]
    rfl
  have hrun : ReflTransGen (FittingStep smallLayout) κ0
      ({ κ0 with kmem := κ0.kmem }.setProc κ0.initproc
        { κ0.proc κ0.initproc with sz := addInt (κ0.proc κ0.initproc).sz 4096 }) := by
    refine .single ⟨.sbrk κ0.initproc (some 4096), hlive, ?_,
      step_sbrk (sysSbrk_pos smallLayout _ _ (by decide))⟩
    rintro p n hact
    cases hact
    rw [hsz]
    exact ⟨by decide, by decide⟩
  have hsz' : (({ κ0 with kmem := κ0.kmem } : Kernel).setProc κ0.initproc
      { κ0.proc κ0.initproc with sz := addInt (κ0.proc κ0.initproc).sz 4096 }).proc κ0.initproc =
        { κ0.proc κ0.initproc with sz := 8192 } := by
    rw [setProc_proc, if_pos rfl, hsz, show addInt PGSIZE 4096 = 8192 by decide]
  refine ⟨κ0, _, hboot, hrun, by rw [hsz'], ?_⟩
  refine (sbrk_contract_iff hboot hrun (by unfold Live; rw [hsz']; exact hlive) (-4096)).2.mpr ?_
  rw [hsz']
  change SbrkFits 8192 (-4096)
  exact ⟨by decide, by decide⟩

/-- The first process, of one page, asks for too much, for its whole size back,
and for more than its size back: each breaks the contract, and the first puts
`sz` into the kernel half. -/
theorem sbrk_contract_broken : ∃ κ0 κ : Kernel, boot smallLayout 1 [0xEB, 0xFE] = .ok κ0 ∧
    κ0.Live κ0.initproc ∧ ¬ SbrkContract smallLayout κ0.kmem (κ0.proc κ0.initproc) 0x7FFFFFFF ∧
      ¬ SbrkContract smallLayout κ0.kmem (κ0.proc κ0.initproc) (-4096) ∧
      ¬ SbrkContract smallLayout κ0.kmem (κ0.proc κ0.initproc) (-8192) ∧
      step smallLayout κ0 (.sbrk κ0.initproc (some 0x7FFFFFFF)) = .ok κ ∧
      KERNBASE ≤ (κ.proc κ0.initproc).sz := by
  obtain ⟨κ0, hboot⟩ := smallLayout_boots 1 (by decide)
  have hlive := (boot_live hboot _).mpr rfl
  have hok := boot_sizeOk hboot
  obtain ⟨kstack, d, mem, hproc, _⟩ := boot_first hboot
  have hd : (κ0.proc κ0.initproc).pgdir = some d := by
    rw [hproc]
    rfl
  have hsz : (κ0.proc κ0.initproc).sz = PGSIZE := by
    rw [hproc]
    rfl
  have hbroken (n : BitVec 32) (hn : ¬ SbrkFits PGSIZE n) :
      ¬ SbrkContract smallLayout κ0.kmem (κ0.proc κ0.initproc) n := by
    intro hcontract
    have hfits := sbrkFits_of_contract hok hd hcontract
    rw [hsz] at hfits
    exact hn hfits
  refine ⟨κ0, _, hboot, hlive, hbroken _ ?_, hbroken _ ?_, hbroken _ ?_,
    step_sbrk (sysSbrk_pos smallLayout _ _ (by decide)), ?_⟩
  · exact fun hfits => absurd (hfits.1 (by decide)) (by decide)
  · exact fun hfits => absurd (hfits.2 (by decide)) (by decide)
  · exact fun hfits => absurd (hfits.2 (by decide)) (by decide)
  · rw [setProc_proc, if_pos rfl, hsz]
    change KERNBASE ≤ addInt PGSIZE 0x7FFFFFFF
    decide

end Kernel

end Xv6.Vm

import Xv6.Vm.ExecOk
import Xv6.Vm.Sbrk

/-!
The stack guard page. Its mapping without `PTE_U` is copied by `fork` with the
page table, but the field `guard_page` that the fault handler compares with is
written by `exec` only: before its last points of failure, and never for a
child, whose slot still has the value of an earlier process. Which page is the
guard page of a process is kept beside the state, as the page `clearpteu`
closed in its current address space.
-/

namespace Xv6.Vm

open Lib Relation Function Option
open Sched (Slot ProcState)

/-- For each process, the page that `clearpteu` closed in its address space. -/
abbrev OwnGuard := Slot → Option Nat

namespace Kernel

/-- A successful `exec` closes a page, `fork` hands the parent's on. -/
def ownAfter (L : Layout) (κ : Kernel) (own : OwnGuard) : Act → OwnGuard
  | .exec p ip path argv =>
    match Vm.exec L κ.kmem (κ.proc p) ip path argv with
    | .ok (true, q, _) => update own p (some (q.sz - 2 * PGSIZE))
    | _ => own
  | .fork p =>
    match κ.firstProc fun q => q.state == .UNUSED with
    | some np => update own np (own p)
    | none => own
  | _ => own

/-- An access to the process's own guard page faults and kills; a fault on
another page below `sz` is not taken for one on the guard page. -/
def GuardHolds (L : Layout) (κ : Kernel) (own : OwnGuard) : Prop :=
  ∀ p, κ.Live p → ∀ addr < 2 ^ 32,
    (∀ g, own p = some g → addr / PGSIZE = g / PGSIZE → κ.Faults p addr true ∧
      ∃ r q k, pageFault L κ.kmem (κ.proc p) addr = .ok (r, q, k) ∧ r.kills = true) ∧
    ((∀ g, own p = some g → addr / PGSIZE ≠ g / PGSIZE) → addr < (κ.proc p).sz →
      κ.Faults p addr true → ∀ q k, pageFault L κ.kmem (κ.proc p) addr ≠ .ok (.guard, q, k))

/-- `sbrk` keeps the size in `[0, KERNBASE)`. -/
def SbrkInRange (κ : Kernel) (a : Act) : Prop :=
  ∀ p n, a = .sbrk p (some n) →
    0 ≤ ((κ.proc p).sz : ℤ) + n.toInt ∧ ((κ.proc p).sz : ℤ) + n.toInt < KERNBASE

/-- A call that completes, with the guard pages behind it. -/
def GuardStep (L : Layout) (s s' : Kernel × OwnGuard) (a : Act) : Prop :=
  s.1.Enabled a ∧ s.1.SbrkInRange a ∧ step L s.1 a = .ok s'.1 ∧ s'.2 = ownAfter L s.1 s.2 a

/-- The calls that keep the recorded guard page right: the slot of a child has
the parent's value already, the program of an `exec` that fails, if it can be loaded, has
its guard page where the process has one, and a process that never ran `exec` keeps its
first page. -/
def GuardSafe (L : Layout) (s : Kernel × OwnGuard) : Act → Prop
  | .fork p => ∀ np, (s.1.firstProc fun q => q.state == .UNUSED) = some np →
      (s.1.proc np).guardPage = (s.1.proc p).guardPage
  | .exec p ip path argv =>
      (∃ q k, Vm.exec L s.1.kmem (s.1.proc p) ip path argv = .ok (false, q, k)) →
        ∀ file elf k, ip = some file → execLoad L s.1.kmem file = .ok (some elf, k) →
          PGROUNDUP elf.sz = (s.1.proc p).guardPage
  | .sbrk p (some n) => s.2 p = none → ((s.1.proc p).sz : ℤ) + n.toInt ≠ 0
  | _ => True

end Kernel

/-- The recorded guard page of a process is its own one; without one, it is the
first page, which user code can access. -/
structure GuardOk (own : Option Nat) (q : Proc) : Prop where
  lt : q.sz < KERNBASE
  guarded : ∀ g, own = some g → q.guardPage = g ∧ g % PGSIZE = 0 ∧ g < KERNBASE ∧
    ∀ d e, q.pgdir = some d → d.entry g = some e → e.u = false
  plain : own = none → q.guardPage = 0 ∧ 0 < q.sz ∧ ∀ d, q.pgdir = some d → d.UserOk 0

variable {own : Option Nat} {p q : Proc} {d d' : PageDir} {L : Layout} {k : Kmem} {κ : Kernel}

theorem GuardOk.mono (h : GuardOk own p)
    (hd : p.pgdir = some d) (hd' : q.pgdir = some d') (hguard : q.guardPage = p.guardPage)
    (hlt : q.sz < KERNBASE)
    (hentry : ∀ g, own = some g → ∀ e', d'.entry g = some e' → ∃ e, d.entry g = some e ∧ e'.u = e.u)
    (hfirst : own = none → 0 < q.sz ∧ d'.UserOk 0) : GuardOk own q := by
  refine ⟨hlt, fun g hg => ?_, fun hnone => ?_⟩
  · obtain ⟨hpage, haligned, hg32, hclosed⟩ := h.guarded g hg
    refine ⟨hguard.trans hpage, haligned, hg32, fun d1 e' hd1 he' => ?_⟩
    cases hd'.symm.trans hd1
    obtain ⟨e, he, hu⟩ := hentry g hg e' he'
    rw [hu]
    exact hclosed d e hd he
  · refine ⟨hguard.trans (h.plain hnone).1, (hfirst hnone).1, fun d1 hd1 => ?_⟩
    cases hd'.symm.trans hd1
    exact (hfirst hnone).2

theorem UserCopy.entry_u {sz x : Nat} (h : UserCopy d d' sz) (hx : x < KERNBASE)
    {e' : Pte} (he' : d'.entry x = some e') : ∃ e, d.entry x = some e ∧ e'.u = e.u := by
  have hcopy := h x hx
  split at hcopy
  · rw [he', map_some] at hcopy
    obtain ⟨e, he, hflags⟩ := map_eq_some_iff.mp hcopy.symm
    exact ⟨e, he, (congrArg Prod.snd hflags).symm⟩
  · rw [he'] at hcopy
    cases hcopy

theorem UserCopy.userOk {sz x : Nat} (h : UserCopy d d' sz) (hx : x < KERNBASE)
    (hlt : PGROUNDDOWN x < sz) (hok : d.UserOk x) : d'.UserOk x := by
  obtain ⟨e, he, hu⟩ := hok
  have hcopy := h x hx
  rw [if_pos hlt, he, map_some] at hcopy
  obtain ⟨e', he', hflags⟩ := map_eq_some_iff.mp hcopy
  exact ⟨e', he', (congrArg Prod.snd hflags).trans hu⟩

theorem GuardOk.copy (h : GuardOk own p)
    (hd : p.pgdir = some d) (hd' : q.pgdir = some d') (hcopy : UserCopy d d' p.sz)
    (hsz : q.sz = p.sz) (hguard : q.guardPage = p.guardPage) : GuardOk own q := by
  refine h.mono hd hd' hguard (by rw [hsz]; exact h.lt) (fun g hg e' he' => ?_) fun hnone => ?_
  · exact hcopy.entry_u (h.guarded g hg).2.2.1 he'
  · obtain ⟨_, hpos, hok⟩ := h.plain hnone
    exact ⟨by rw [hsz]; exact hpos, hcopy.userOk (by decide) hpos (hok d hd)⟩

theorem ExecImage.guardOk (h : ExecImage d q.guardPage q.sz)
    (hd : q.pgdir = some d) : GuardOk (some (q.sz - 2 * PGSIZE)) q := by
  have hlt := h.lt
  have hsize := h.size
  have haligned := h.aligned
  have hg : q.sz - 2 * PGSIZE = q.guardPage := by omega
  rw [hg]
  refine ⟨hlt, fun g hg => ?_, fun hnone => by cases hnone⟩
  cases hg
  refine ⟨rfl, haligned, by omega, fun d1 e hd1 he => ?_⟩
  cases hd.symm.trans hd1
  have hdown : PGROUNDDOWN q.guardPage = q.guardPage := by
    simp only [PGROUNDDOWN, PGSIZE] at *
    omega
  have hentry := h.entry q.guardPage (by omega)
  rw [if_pos (by rw [hdown, hsize]; simp only [PGSIZE]; omega)] at hentry
  obtain ⟨f, hf⟩ := hentry
  rw [hf, hdown] at he
  cases he
  simp

theorem GuardOk.sbrk {k' : Kmem} {p' : Proc}
    {arg : Option (BitVec 32)} {r : Option Nat} (hok : GuardOk own p) (hd : p.pgdir = some d)
    (hrange : ∀ n, arg = some n → 0 ≤ (p.sz : ℤ) + n.toInt ∧ (p.sz : ℤ) + n.toInt < KERNBASE)
    (hkeep : ∀ n, arg = some n → own = none → (p.sz : ℤ) + n.toInt ≠ 0)
    (h : sysSbrk L k p arg = .ok (r, p', k')) : GuardOk own p' := by
  have hlt := hok.lt
  cases arg with
  | none =>
    cases h
    exact hok
  | some n =>
    obtain ⟨hlo, hhi⟩ := hrange n rfl
    have hnew := addInt_eq hlo (by simp only [KERNBASE] at hhi; omega)
    rcases lt_trichotomy n.toInt 0 with hn | hn | hn
    · obtain ⟨sz, d', hdealloc, hres⟩ := sysSbrk_neg_ok hn hd h
      obtain ⟨hr, hunmapped⟩ := deallocuvm_spec hdealloc hlt.le
      have hd' : p'.pgdir = some d' ∧ p'.guardPage = p.guardPage ∧ p'.sz < KERNBASE ∧
          (sz ≠ 0 → p'.sz = sz) := by
        split at hres <;> cases hres
        · exact ⟨rfl, rfl, hlt, fun hne => absurd ‹_› hne⟩
        · exact ⟨rfl, rfl, by simp only; omega, fun _ => rfl⟩
      obtain ⟨hd', hguard, hlt', hsz'⟩ := hd'
      refine hok.mono hd hd' hguard hlt' (fun g hg e' he' => ?_) fun hnone => ?_
      · have hg32 := lt_32_of_user (hok.guarded g hg).2.2.1
        by_cases hgone : addInt p.sz n < p.sz ∧ PGROUNDUP (addInt p.sz n) ≤ g ∧ PGROUNDDOWN g < p.sz
        · rw [hunmapped.absent g hg32 hgone] at he'
          cases he'
        · rw [hunmapped.kept g hg32 hgone] at he'
          exact ⟨e', he', rfl⟩
      · have hne := hkeep n rfl hnone
        refine ⟨by rw [hsz' (by omega)]; omega, ?_⟩
        obtain ⟨e, he, hu⟩ := (hok.plain hnone).2.2 d hd
        refine ⟨e, ?_, hu⟩
        rw [hunmapped.kept 0 (by decide), he]
        simp only [PGROUNDUP, u32, PGSIZE, KERNBASE] at *
        omega
    · rw [sysSbrk_zero L k p hn] at h
      cases h
      exact hok
    · rw [sysSbrk_pos L k p hn] at h
      cases h
      refine hok.mono hd hd rfl (by simp only; omega) (fun g _ e' he' => ⟨e', he', rfl⟩)
        fun hnone => ?_
      exact ⟨by simp only; omega, (hok.plain hnone).2.2 d hd⟩

/-- The handler maps pages other than the recorded guard page. -/
theorem GuardOk.fault {k' : Kmem} {p' : Proc}
    {addr : Nat} {r : Fault} (hok : GuardOk own p) (hd : p.pgdir = some d)
    (h : pageFault L k p addr = .ok (r, p', k')) : GuardOk own p' := by
  have hlt := hok.lt
  rcases pageFault_spec h hd hlt.le with ⟨_, _, rfl, _⟩ | ⟨_, _, _, rfl, _⟩ |
    ⟨hin, hguard, d', _, ⟨_, rfl, hentry⟩ | ⟨_, rfl, _, mem, hentry, _⟩⟩
  · exact ⟨hok.lt, hok.guarded, hok.plain⟩
  · exact ⟨hok.lt, hok.guarded, hok.plain⟩
  · refine hok.mono hd rfl rfl hlt (fun g hg e' he' => ?_) fun hnone => ?_
    · rw [hentry g (lt_32_of_user (hok.guarded g hg).2.2.1)] at he'
      exact ⟨e', he', rfl⟩
    · obtain ⟨_, hpos, hfirst⟩ := hok.plain hnone
      refine ⟨hpos, ?_⟩
      unfold PageDir.UserOk
      rw [hentry 0 (by decide)]
      exact hfirst d hd
  · refine hok.mono hd rfl rfl hlt (fun g hg e' he' => ?_) fun hnone => ?_
    · obtain ⟨hpage, haligned, hg, _⟩ := hok.guarded g hg
      rw [hentry g (lt_32_of_user hg), if_neg] at he'
      · exact ⟨e', he', rfl⟩
      · simp only [PGROUNDDOWN, PGSIZE] at *
        omega
    · obtain ⟨_, hpos, hfirst⟩ := hok.plain hnone
      refine ⟨hpos, ?_⟩
      unfold PageDir.UserOk
      rw [hentry 0 (by decide)]
      split
      · exact ⟨_, rfl, rfl⟩
      · exact hfirst d hd

namespace Kernel

theorem ownAfter_other {own : OwnGuard} {a : Act} {q : Slot}
    (hnot : ¬ a.Remaps q) (hlive : κ.Live q) : ownAfter L κ own a q = own q := by
  cases a with
  | exec p ip path argv =>
    simp only [ownAfter]
    rcases Vm.exec L κ.kmem (κ.proc p) ip path argv with e | ⟨_ | _, q', k⟩
    · rfl
    · rfl
    · exact update_of_ne hnot _ _
  | fork p =>
    simp only [ownAfter]
    cases hfirst : κ.firstProc fun q => q.state == .UNUSED with
    | none => rfl
    | some np =>
      have hne : q ≠ np := by
        rintro rfl
        have hunused : (κ.proc q).state = .UNUSED := by simpa using firstProc_some hfirst
        exact (live_ne hlive).1 hunused
      exact update_of_ne hne _ _
  | _ => rfl

theorem guardOk_step {s s' : Kernel × OwnGuard} {a : Act} {q : Slot}
    (hinv : Inv L (handed L) s.1) (hok : ∀ p, s.1.Live p → GuardOk (s.2 p) (s.1.proc p))
    (hstep : GuardStep L s s' a) (hsafe : GuardSafe L s a) (horigin : Origin L s.1 s'.1 q a) :
    GuardOk (s'.2 q) (s'.1.proc q) := by
  obtain ⟨_, hrange, _, hown⟩ := hstep
  rw [hown]
  cases horigin with
  | same hnot hlive hsame =>
    obtain ⟨hsz, hpgdir, hguard, _⟩ := hsame
    obtain ⟨_, d, _, hd, _⟩ := hinv.space hlive
    have hold := hok q hlive
    rw [ownAfter_other hnot hlive]
    refine hold.mono hd (hpgdir.trans hd) hguard (by rw [hsz]; exact hold.lt)
      (fun g _ e he => ⟨e, he, rfl⟩) fun hnone => ?_
    obtain ⟨_, hpos, hfirst⟩ := hold.plain hnone
    exact ⟨by rw [hsz]; exact hpos, hfirst d hd⟩
  | fork hlive hfirst hd hd' hcopy hsz hguard =>
    simp only [ownAfter, hfirst, update_self]
    exact (hok _ hlive).copy hd hd' hcopy hsz (hguard.trans (hsafe q hfirst))
  | @exec ip path argv b hlive hexec =>
    rcases exec_spec hexec with ⟨rfl, _, g, hproc⟩ | ⟨rfl, _, d', _, _, _, _, hproc, _, _, himage⟩
    · have hold := hok q hlive
      have hguard : (s'.1.proc q).guardPage = (s.1.proc q).guardPage := by
        obtain ⟨_, _, ⟨hsame, _⟩ | ⟨file, elf, k1, hip, hload, hnew⟩⟩ := exec_fails hexec
        · rw [hsame]
        · rw [hnew]
          exact hsafe ⟨_, _, hexec⟩ file elf k1 hip hload
      simp only [ownAfter, hexec]
      rw [hproc] at hguard ⊢
      exact ⟨hold.lt, fun g hg => ⟨hguard.trans (hold.guarded g hg).1, (hold.guarded g hg).2⟩,
        fun hnone => ⟨hguard.trans (hold.plain hnone).1, (hold.plain hnone).2⟩⟩
    · simp only [ownAfter, hexec, update_self]
      exact himage.guardOk (by rw [hproc])
  | sbrk hlive hsbrk =>
    obtain ⟨_, d, _, hd, _⟩ := hinv.space hlive
    refine (hok q hlive).sbrk hd (fun n hn => hrange q n (by rw [hn])) (fun n hn => ?_) hsbrk
    subst hn
    exact hsafe
  | fault hlive hfault =>
    obtain ⟨_, d, _, hd, _⟩ := hinv.space hlive
    exact (hok q hlive).fault hd hfault

theorem guardOk_of_run {ncpu : Nat} {initcode : List UInt8} {κ0 : Kernel}
    {s : Kernel × OwnGuard} (hboot : boot L ncpu initcode = .ok κ0)
    (hrun : ReflTransGen (fun s s' => ∃ a, GuardStep L s s' a ∧ GuardSafe L s a)
      (κ0, fun _ => none) s) :
    Inv L (handed L) s.1 ∧ ∀ p, s.1.Live p → GuardOk (s.2 p) (s.1.proc p) := by
  refine invariant_of_run (fun s => Inv L (handed L) s.1 ∧
    ∀ p, s.1.Live p → GuardOk (s.2 p) (s.1.proc p)) hrun ⟨(boot_spec hboot).1, ?_⟩ ?_
  · intro p hlive
    obtain ⟨kstack, d, mem, hproc, hentry, _⟩ := boot_first hboot
    rw [(boot_live hboot p).mp hlive, hproc]
    refine ⟨by change PGSIZE < KERNBASE; decide, fun g hg => (by cases hg), fun _ => ⟨rfl, ?_, ?_⟩⟩
    · change 0 < PGSIZE
      decide
    · rintro d1 hd1
      cases hd1
      exact ⟨_, (hentry 0 (by decide)).trans (if_pos (by decide)), rfl⟩
  · rintro s1 s2 ⟨hinv, hok⟩ ⟨a, hstep, hsafe⟩
    have hbounded : s1.1.Bounded := fun p hlive => (hok p hlive).lt.le
    have ⟨henabled, _, hcall, _⟩ := hstep
    refine ⟨step_inv hinv (handed_nodup L) hbounded henabled hcall, fun q hq => ?_⟩
    exact guardOk_step hinv hok hstep hsafe
      (step_origin hinv (handed_nodup L) hbounded henabled hcall hq)

theorem kills_of_guardOk {own : OwnGuard} {p : Slot} {g addr : Nat}
    (h : GuardOk (own p) (κ.proc p)) (hg : own p = some g) (hpage : addr / PGSIZE = g / PGSIZE) :
    κ.Faults p addr true ∧
      ∃ r q k, pageFault L κ.kmem (κ.proc p) addr = .ok (r, q, k) ∧ r.kills = true := by
  obtain ⟨hguard, haligned, hlt, hclosed⟩ := h.guarded g hg
  have haddr : addr < 2 ^ 32 := by
    simp only [PGSIZE, KERNBASE] at *
    omega
  refine ⟨⟨haddr, fun d e hd he => ⟨rfl, hclosed d e hd ?_⟩⟩, ?_⟩
  · rw [← he]
    exact d.entry_congr (lt_32_of_user hlt) haddr hpage.symm
  · have hdown : PGROUNDDOWN addr = (κ.proc p).guardPage := by
      rw [hguard]
      simp only [PGROUNDDOWN, PGSIZE] at *
      omega
    unfold pageFault
    simp only [hdown, if_true]
    split
    · exact ⟨_, _, _, rfl, rfl⟩
    · exact ⟨_, _, _, rfl, rfl⟩

/-- Along every run of safe calls the guard page protects its process. -/
theorem guard_survives {L : Layout} {ncpu : Nat} {initcode : List UInt8} {κ0 κ : Kernel}
    {own : OwnGuard} (hboot : boot L ncpu initcode = .ok κ0)
    (hrun : ReflTransGen (fun s s' => ∃ a, GuardStep L s s' a ∧ GuardSafe L s a)
      (κ0, fun _ => none) (κ, own)) : GuardHolds L κ own := by
  obtain ⟨hinv, hguards⟩ := guardOk_of_run hboot hrun
  intro p hlive addr haddr
  have hok := hguards p hlive
  obtain ⟨_, d, _, hd, _⟩ := hinv.space hlive
  refine ⟨fun g hg hpage => kills_of_guardOk hok hg hpage, fun hother hlt hfaults q k hfault => ?_⟩
  rcases pageFault_spec hfault hd hok.lt.le with
    ⟨hr, _⟩ | ⟨_, _, hpage, _⟩ | ⟨_, _, _, _, ⟨hr, _⟩ | ⟨hr, _⟩⟩
  · cases hr
  · cases hown : own p with
    | some g =>
      obtain ⟨hguard, haligned, _⟩ := hok.guarded g hown
      apply hother g hown
      rw [hguard] at hpage
      simp only [PGROUNDDOWN, PGSIZE] at *
      omega
    | none =>
      obtain ⟨hguard, _, hfirst⟩ := hok.plain hown
      obtain ⟨e, he, hu⟩ := hfirst d hd
      have hclosed := (hfaults.2 d e hd (by
        rw [← he]
        apply d.entry_congr haddr (by decide)
        rw [hguard] at hpage
        simp only [PGROUNDDOWN, PGSIZE] at *
        omega)).2
      rw [hu] at hclosed
      cases hclosed
  · cases hr
  · cases hr

end Kernel

/-- A smallest program: an ELF header and one segment, of one byte that the file
does not hold. -/
def tinyElf : List UInt8 :=
  [0x7F, 0x45, 0x4C, 0x46] ++ List.replicate 24 0 ++ [52, 0, 0, 0] ++ List.replicate 12 0 ++ [1, 0] ++
    List.replicate 6 0 ++ [1, 0, 0, 0] ++ List.replicate 16 0 ++ [1, 0, 0, 0] ++ List.replicate 8 0

theorem tinyElf_header : ∃ b, readExact tinyElf 0 elfhdrSize = some b ∧
    decodeElfHdr b = { magic := ELF_MAGIC, entry := 0, phoff := 52, phnum := 1 } := by
  refine ⟨tinyElf.take 52, ?_, ?_⟩ <;> decide

theorem tinyElf_segment : ∃ b, readExact tinyElf 52 proghdrSize = some b ∧
    decodeProgHdr b = { type := ELF_PROG_LOAD, off := 0, vaddr := 0, filesz := 0, memsz := 1 } := by
  refine ⟨tinyElf.drop 52, ?_, ?_⟩ <;> decide

theorem execLoad_tinyElf (L : Layout) (hfree : 69 ≤ k.freelist.length) :
    ∃ d k', execLoad L k tinyElf = .ok (some ⟨0, d, 1⟩, k') ∧
      k.freelist.length ≤ k'.freelist.length + 69 := by
  obtain ⟨b, hb, hheader⟩ := tinyElf_header
  obtain ⟨c, hc, hsegment⟩ := tinyElf_segment
  obtain ⟨d0, k0, hsetup, hlen0⟩ := setupkvm_ok L (k := k) (by omega)
  obtain ⟨_, huser, _⟩ := (setupkvm_spec hsetup).2 d0 rfl
  have hcount : pagesBetween (PGROUNDUP 0) 1 = 1 := by decide
  obtain ⟨d1, k1, halloc, hlen1⟩ := allocuvm_ok L 0 1 (k := k0) (d := d0) (by decide) (by decide)
    (fun x hx _ => huser x hx) (by omega)
  have hloop : segmentLoop L tinyElf 1 52 k0 d0 0 = .ok (some 1, d1, k1) := by
    unfold segmentLoop
    rw [hc]
    simp only [hsegment]
    rw [if_neg (by decide), if_neg (by decide), if_neg (by decide)]
    exact bind_eq_ok.mpr ⟨_, halloc, rfl⟩
  refine ⟨d1, k1, ?_, by omega⟩
  unfold execLoad
  rw [hb]
  simp only [hheader]
  rw [if_neg (by decide)]
  exact bind_eq_ok.mpr ⟨_, hsetup, bind_eq_ok.mpr ⟨_, hloop, rfl⟩⟩

namespace Kernel

theorem boot_exec_tinyElf : ∃ κ0 κ : Kernel, boot smallLayout 1 [0xEB, 0xFE] = .ok κ0 ∧
    Vm.exec smallLayout κ0.kmem (κ0.proc κ0.initproc) (some tinyElf) [105] [] =
      .ok (true, κ.proc κ0.initproc, κ.kmem) ∧
      step smallLayout κ0 (.exec κ0.initproc (some tinyElf) [105] []) = .ok κ ∧
      (∀ p ≠ κ0.initproc, κ.proc p = Proc.zero) ∧ (κ.proc κ0.initproc).guardPage = 4096 ∧
      (κ.proc κ0.initproc).sz = 12288 ∧ 55000 ≤ κ.kmem.freelist.length := by
  obtain ⟨κ0, hboot⟩ := smallLayout_boots 1 (by decide)
  have hlive := (boot_live hboot _).mpr rfl
  obtain ⟨kstack, d, mem, hproc, _, hfree, hothers⟩ := boot_first hboot
  have hd : (κ0.proc κ0.initproc).pgdir = some d := by
    rw [hproc]
    rfl
  obtain ⟨d', k1, hload, hlen1⟩ := execLoad_tinyElf smallLayout (k := κ0.kmem) (by omega)
  obtain ⟨q, k, hexec, hguard, hsz, hlen⟩ := exec_ok smallLayout [105] [] hload hd
    ((boot_spec hboot).1.pages_ok hlive hd) (by change PGROUNDUP 1 + 2 * PGSIZE < KERNBASE; decide)
    (by decide) (by decide) (by omega)
  refine ⟨κ0, { κ0 with kmem := k }.setProc κ0.initproc q, hboot, ?_, bind_eq_ok.mpr ⟨_, hexec, rfl⟩,
    fun p hp => ?_, ?_⟩
  · rw [setProc_proc, if_pos rfl]
    exact hexec
  · rw [setProc_proc, if_neg hp]
    exact hothers p hp
  rw [setProc_proc, if_pos rfl]
  refine ⟨?_, ?_, ?_⟩
  · rw [hguard]
    change PGROUNDUP 1 = 4096
    decide
  · rw [hsz]
    change PGROUNDUP 1 + 2 * PGSIZE = 12288
    decide
  · change 55000 ≤ k.freelist.length
    omega

theorem guardStep_exec_tinyElf {κ0 : Kernel} (hboot : boot smallLayout 1 [0xEB, 0xFE] = .ok κ0)
    (hexec : Vm.exec smallLayout κ0.kmem (κ0.proc κ0.initproc) (some tinyElf) [105] [] =
      .ok (true, κ.proc κ0.initproc, κ.kmem))
    (hstep : step smallLayout κ0 (.exec κ0.initproc (some tinyElf) [105] []) = .ok κ)
    (hsz : (κ.proc κ0.initproc).sz = 12288) :
    ∃ own : OwnGuard, own κ0.initproc = some 4096 ∧ GuardStep smallLayout (κ0, fun _ => none) (κ, own)
      (.exec κ0.initproc (some tinyElf) [105] []) := by
  refine ⟨_, ?_, (boot_live hboot _).mpr rfl, ?_, hstep, rfl⟩
  · simp only [hexec, update_self, hsz]
    rfl
  · intro p n hact
    cases hact

/-- The guard page of the first process that runs a program. -/
theorem guard_survives_exec : ∃ κ0 κ : Kernel, ∃ own : OwnGuard,
    boot smallLayout 1 [0xEB, 0xFE] = .ok κ0 ∧
      ReflTransGen (fun s s' => ∃ a, GuardStep smallLayout s s' a ∧ GuardSafe smallLayout s a)
        (κ0, fun _ => none) (κ, own) ∧
      own κ0.initproc = some 4096 ∧ GuardHolds smallLayout κ own := by
  obtain ⟨κ0, κ, hboot, hexec, hstep, _, _, hsz, _⟩ := boot_exec_tinyElf
  obtain ⟨own, hown, hguard⟩ := guardStep_exec_tinyElf hboot hexec hstep hsz
  have hsafe : GuardSafe smallLayout (κ0, fun _ => none)
      (.exec κ0.initproc (some tinyElf) [105] []) := by
    rintro ⟨q, k, hfail⟩
    cases hexec.symm.trans hfail
  have hrun := ReflTransGen.single (r := fun s s' => ∃ a, GuardStep smallLayout s s' a ∧
    GuardSafe smallLayout s a) ⟨_, hguard, hsafe⟩
  exact ⟨κ0, κ, own, hboot, hrun, hown, guard_survives hboot hrun⟩

/-- The child of that process: its slot was never used, so the recorded guard
page is 0, and an access to the real one at 4096 ends in `panic("remap")`. -/
theorem fork_loses_guard : ∃ κ0 κ : Kernel, ∃ own : OwnGuard, ∃ child : Slot,
    boot smallLayout 1 [0xEB, 0xFE] = .ok κ0 ∧
      ReflTransGen (fun s s' => ∃ a, GuardStep smallLayout s s' a) (κ0, fun _ => none) (κ, own) ∧
      κ.Live child ∧ own child = some 4096 ∧
      pageFault smallLayout κ.kmem (κ.proc child) 4096 = .error .remap ∧
      ¬ GuardHolds smallLayout κ own := by
  obtain ⟨κ0, κ1, hboot, hexec, hstep, hothers, hguard, hsz, hfree⟩ := boot_exec_tinyElf
  obtain ⟨own, hown, hguard1⟩ := guardStep_exec_tinyElf hboot hexec hstep hsz
  have hlive0 := (boot_live hboot _).mpr rfl
  have hinv := step_inv (boot_spec hboot).1 (handed_nodup _) (boot_bounded hboot)
    hguard1.1 hstep
  obtain ⟨kstack, _, _, hproc0, _⟩ := boot_first hboot
  rcases exec_spec hexec with ⟨hb, _⟩ | ⟨_, _, d, _, _, _, _, hproc, _, _, himage⟩
  · cases hb
  rw [hguard, hsz] at himage
  have hlive : κ1.Live κ0.initproc := by
    unfold Live
    rw [hproc]
    exact hlive0
  have hd : (κ1.proc κ0.initproc).pgdir = some d := by rw [hproc]
  obtain ⟨np, hfirst⟩ := exists_unused hothers
  have hunused : (κ1.proc np).state = .UNUSED := by simpa using firstProc_some hfirst
  have hne : κ0.initproc ≠ np := by
    rintro rfl
    exact (live_ne hlive).1 hunused
  obtain ⟨pid, κ, hfork, hchild, hlen⟩ := fork_ok smallLayout hfirst hne hd (by rw [hsz]; decide)
    (fun fd => by rw [hproc, hproc0]; rfl) (by
      rw [hsz, show pagesBetween 0 12288 = 3 by decide]
      omega)
  rw [hsz, show pagesBetween 0 12288 = 3 by decide] at hlen
  have hguard2 : GuardStep smallLayout (κ1, own) (κ, update own np (own κ0.initproc))
      (.fork κ0.initproc) := by
    refine ⟨hlive, fun p n hact => ?_, bind_eq_ok.mpr ⟨_, hfork, rfl⟩, ?_⟩
    · cases hact
    · simp only [ownAfter, hfirst]
  have hcopied : (κ.proc np).guardPage = 0 ∧ (κ.proc np).sz = 12288 ∧ ∃ d' e,
      (κ.proc np).pgdir = some d' ∧ d'.entry 4096 = some e := by
    cases fork_origin hinv hlive (by rw [hsz]; decide) hfork hchild with
    | same _ hsame _ => exact absurd hunused (live_ne hsame).1
    | fork _ _ hd1 hd' hcopy hsz' hguard' =>
      cases hd.symm.trans hd1
      refine ⟨by rw [hguard', hothers np hne.symm]; rfl, hsz'.trans hsz, ?_⟩
      have hentry := himage.entry 4096 (by decide)
      rw [if_pos (by decide)] at hentry
      obtain ⟨f, hf⟩ := hentry
      have hflags := hcopy 4096 (by decide)
      rw [hsz, if_pos (by decide), hf, map_some] at hflags
      obtain ⟨e, he, _⟩ := map_eq_some_iff.mp hflags
      exact ⟨_, e, hd', he⟩
  obtain ⟨hstale, hchildsz, d', e, hd', he⟩ := hcopied
  have hpanic := pageFault_remap smallLayout (k := κ.kmem) hd' (by rw [hchildsz]; decide)
    (by rw [hchildsz]; decide) (by rw [hstale]; decide) he (by omega)
  refine ⟨κ0, κ, _, np, hboot, .tail (.single ⟨_, hguard1⟩) ⟨_, hguard2⟩, hchild,
    by rw [update_self, hown], hpanic, fun hholds => ?_⟩
  obtain ⟨_, r, q, k, hok, _⟩ := (hholds np hchild 4096 (by decide)).1 4096
    (by rw [update_self, hown]) rfl
  cases hpanic.symm.trans hok

end Kernel

end Xv6.Vm

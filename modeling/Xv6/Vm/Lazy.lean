import Xv6.Vm.Access
import Xv6.Vm.Guard

/-!
Lazy allocation is eager allocation, as long as memory lasts. Both systems
implement the same view of memory: a fault that maps a zeroed page and an
`allocuvm` that maps zeroed pages leave every byte as it was, shrinking forgets
whole pages in both, and the guard page kills in both. So along every trace
each of them shows exactly what `UserMem` says.
-/

namespace Xv6.Vm

open Lib Relation Function Multiset PageDir
open Sched (Slot ProcState)

/-- The page table, the allocator and `sz` show the memory `m`. `pages` are the
pages of the address space and of the free list together. -/
structure Shows (g : Nat) (pages : Multiset Nat) (k : Kmem) (p : Proc) (d : PageDir)
    (m : UserMem) : Prop where
  pgdir : p.pgdir = some d
  guard : p.guardPage = g
  sz : p.sz = m.sz
  above : g < m.sz
  lt : m.sz < KERNBASE
  owned : d.pages + k.free = pages
  entry : ∀ x < KERNBASE, ∀ e, d.entry x = some e →
    PGROUNDDOWN x < m.sz ∧ e.w = true ∧ e.u = decide (PGROUNDDOWN x ≠ g)
  byte : ∀ x < KERNBASE, d.byte k x = m.byte x

variable {x va sz0 top : Nat} {k' : Kmem} {d' : PageDir} {n : BitVec 32} {sbrk : SbrkCall}

namespace Shows

variable {L : Layout} {g : Nat} {pages : Multiset Nat} {k : Kmem} {p : Proc} {d : PageDir}
  {m : UserMem}

theorem not_free (h : Shows g pages k p d m) (hnodup : pages.Nodup) {e : Pte}
    (hx : x < KERNBASE) (he : d.entry x = some e) : e.addr ∉ k.free := by
  rw [← h.owned] at hnodup
  have hmem : e.addr ∈ d.pages :=
    mem_add.mpr (Or.inr (mem_userFrames.mpr ⟨x, hx, e, he, rfl⟩))
  exact disjoint_left.mp (nodup_add.mp hnodup).2.2 hmem

theorem userFrames_nodup (h : Shows g pages k p d m) (hnodup : pages.Nodup) :
    d.userFrames.Nodup := by
  rw [← h.owned] at hnodup
  exact (nodup_add.mp (nodup_add.mp hnodup).1).2.1

theorem absent_above (h : Shows g pages k p d m) (hx : x < KERNBASE)
    (hge : m.sz ≤ PGROUNDDOWN x) : d.entry x = none := by
  cases he : d.entry x with
  | none => rfl
  | some e =>
    have hlt := (h.entry x hx e he).1
    omega

theorem byte_above (h : Shows g pages k p d m) (hx : x < KERNBASE)
    (hge : m.sz ≤ PGROUNDDOWN x) : m.byte x = 0 := by
  rw [← h.byte x hx, byte_none (h.absent_above hx hge)]

theorem card_tableFrames_le (d : PageDir) : d.tableFrames.card ≤ 1024 := by
  unfold PageDir.tableFrames
  rw [card_sum]
  refine (Finset.sum_le_card_nsmul _ _ 1 fun i _ => ?_).trans (by simp [NPDENTRIES])
  cases d.pde i <;> simp

theorem card_userFrames_le (h : Shows g pages k p d m) :
    d.userFrames.card ≤ pagesBetween 0 m.sz := by
  unfold PageDir.userFrames
  rw [card_sum]
  have hpage (v : Nat) (hv : v ∈ Finset.range userPages) :
      (pteFrame (d.entry (v * PGSIZE))).card ≤ if v < pagesBetween 0 m.sz then 1 else 0 := by
    cases he : d.entry (v * PGSIZE) with
    | none => simp
    | some e =>
      have hlt := (h.entry _ (user_page_lt hv) e he).1
      rw [if_pos]
      · simp
      · simp only [pagesBetween, PGROUNDDOWN, PGSIZE] at *
        omega
  refine (Finset.sum_le_sum hpage).trans ?_
  rw [← Finset.sum_filter, Finset.sum_const, smul_eq_mul, mul_one]
  refine (Finset.card_le_card fun v hv => ?_).trans_eq (Finset.card_range (pagesBetween 0 m.sz))
  exact Finset.mem_range.mpr (Finset.mem_filter.mp hv).2

theorem card_pages_le (h : Shows g pages k p d m) :
    pages.card ≤ k.freelist.length + 1025 + pagesBetween 0 m.sz := by
  have htables := card_tableFrames_le d
  have huser := h.card_userFrames_le
  have hfree : k.free.card = k.freelist.length := rfl
  rw [← h.owned, PageDir.pages, card_add, card_add, card_add, card_singleton, hfree]
  omega

theorem write (h : Shows g pages k p d m) (hnodup : pages.Nodup) {e : Pte}
    (hx : x < KERNBASE) (he : d.entry x = some e) (b : UInt8) :
    Shows g pages (k.write e.addr (x % PGSIZE) [b]) p d
      { m with byte := update m.byte x b } := by
  refine ⟨h.pgdir, h.guard, h.sz, h.above, h.lt, h.owned, h.entry, ?_⟩
  intro y hy
  cases he' : d.entry y with
  | none =>
    have hne : y ≠ x := by
      rintro rfl
      rw [he] at he'
      cases he'
    rw [byte_none he']
    simp only [update_of_ne hne, ← h.byte y hy, byte_none he']
  | some e' =>
    rw [byte_some he']
    have hold := h.byte y hy
    rw [byte_some he'] at hold
    by_cases hframe : e'.addr = e.addr
    · have hpage := page_of_frame (h.userFrames_nodup hnodup) hy hx he' he hframe
      rw [hframe, Kmem.write_byte]
      rw [hframe] at hold
      by_cases hyx : y = x
      · subst hyx
        simp
      · rw [if_neg (by simp only [PGSIZE] at *; omega), hold]
        simp [update_of_ne hyx]
    · have hyx : y ≠ x := by
        rintro rfl
        rw [he] at he'
        cases he'
        exact hframe rfl
      rw [Kmem.write_mem _ _ _ _ hframe, hold]
      simp [update_of_ne hyx]

theorem byte_kept (h : Shows g pages k p d m) (hx : x < KERNBASE) (hentry : d'.entry x = d.entry x)
    (hmem : ∀ e, d.entry x = some e → k'.mem e.addr = k.mem e.addr) : d'.byte k' x = m.byte x := by
  rw [← h.byte x hx]
  unfold PageDir.byte
  rw [hentry]
  cases he : d.entry x with
  | none => rfl
  | some e => simp only [hmem e he]

theorem fault (h : Shows g pages k p d m) (hnodup : pages.Nodup) {p' : Proc}
    (hfault : pageFault L k p va = .ok (.mapped, p', k')) :
    ∃ d' e, Shows g pages k' p' d' m ∧ d'.entry va = some e := by
  have hlt := h.lt
  rcases pageFault_spec hfault h.pgdir (by rw [h.sz]; exact hlt.le) with ⟨hr, _⟩ | ⟨hr, _⟩ |
    ⟨hva, hguard, d', hpages, ⟨hr, _⟩ | ⟨_, rfl, habsent, mem, hentry, hzero, hkeep⟩⟩
  iterate 3 cases hr
  rw [h.sz] at hva
  rw [h.guard] at hguard
  have hnone {x : Nat} (hx : x < KERNBASE) (hpage : x / PGSIZE = va / PGSIZE) :
      d.entry x = none := by
    rw [d.entry_congr (lt_32_of_user hx) (lt_32_of_user (hva.trans hlt)) hpage, habsent]
  have hsame {x : Nat} (hpage : x / PGSIZE = va / PGSIZE) : PGROUNDDOWN x = PGROUNDDOWN va := by
    simp only [PGROUNDDOWN, hpage]
  refine ⟨d', ⟨mem, true, true⟩, ⟨rfl, h.guard, h.sz, h.above, h.lt, hpages.trans h.owned, ?_, ?_⟩,
    by rw [hentry va (lt_32_of_user (hva.trans hlt)), if_pos rfl]⟩
  · intro x hx e he
    rw [hentry x (lt_32_of_user hx)] at he
    split at he
    · next hpage =>
      cases he
      rw [hsame hpage]
      refine ⟨?_, rfl, by simp [hguard]⟩
      simp only [PGROUNDDOWN, PGSIZE] at *
      omega
    · exact h.entry x hx e he
  · intro x hx
    by_cases hpage : x / PGSIZE = va / PGSIZE
    · rw [byte_some ((hentry x (lt_32_of_user hx)).trans (if_pos hpage)), hzero,
        ← h.byte x hx, byte_none (hnone hx hpage)]
    · refine h.byte_kept hx ((hentry x (lt_32_of_user hx)).trans (if_neg hpage)) fun e he => ?_
      exact hkeep _ (h.not_free hnodup hx he)

theorem grow (h : Shows g pages k p d m) (hnodup : pages.Nodup) (hn : 0 < n.toInt)
    (hnew : (m.sz : ℤ) + n.toInt < KERNBASE)
    (hgrown : Grown k d k' d' (PGROUNDUP m.sz) (m.sz + n.toInt).toNat) :
    Shows g pages k' { p with pgdir := some d', sz := (m.sz + n.toInt).toNat } d' (m.sbrk n) := by
  have habove := h.above
  have hlt := h.lt
  have hle : m.sz ≤ ((m.sz : ℤ) + n.toInt).toNat := by omega
  refine ⟨rfl, h.guard, rfl, habove.trans_le hle, by rw [UserMem.sbrk_sz]; omega,
    hgrown.pages.trans h.owned, ?_, ?_⟩
  · intro x hx e he
    change PGROUNDDOWN x < (m.sz + n.toInt).toNat ∧ _
    by_cases hin : PGROUNDUP m.sz ≤ x ∧ PGROUNDDOWN x < (m.sz + n.toInt).toNat
    · obtain ⟨f, hfresh, _⟩ := hgrown.fresh x (lt_32_of_user hx) hin.1 hin.2
      rw [hfresh] at he
      cases he
      refine ⟨hin.2, rfl, ?_⟩
      symm
      rw [decide_eq_true_iff]
      have hge := hin.1
      simp only [PGROUNDUP, PGROUNDDOWN, u32, PGSIZE, KERNBASE] at *
      omega
    · rw [hgrown.kept x (lt_32_of_user hx) hin] at he
      obtain ⟨hold, hflags⟩ := h.entry x hx e he
      exact ⟨by omega, hflags⟩
  · intro x hx
    change _ = if PGROUNDDOWN x < (m.sz + n.toInt).toNat then m.byte x else 0
    by_cases hin : PGROUNDUP m.sz ≤ x ∧ PGROUNDDOWN x < (m.sz + n.toInt).toNat
    · obtain ⟨f, hfresh, hzero⟩ := hgrown.fresh x (lt_32_of_user hx) hin.1 hin.2
      rw [byte_some hfresh, hzero, if_pos hin.2, ← h.byte x hx,
        byte_none (hgrown.absent x (lt_32_of_user hx) hin.1 hin.2)]
    · rw [h.byte_kept hx (hgrown.kept x (lt_32_of_user hx) hin)
        fun e he => hgrown.mem _ (h.not_free hnodup hx he)]
      split
      · rfl
      · exact h.byte_above hx (by omega)

theorem extend (h : Shows g pages k p d m) (hn : 0 ≤ n.toInt)
    (hnew : (m.sz : ℤ) + n.toInt < KERNBASE) :
    Shows g pages k { p with sz := (m.sz + n.toInt).toNat } d (m.sbrk n) := by
  have habove := h.above
  have hle : m.sz ≤ ((m.sz : ℤ) + n.toInt).toNat := by omega
  refine ⟨h.pgdir, h.guard, rfl, habove.trans_le hle, by rw [UserMem.sbrk_sz]; omega, h.owned, ?_, ?_⟩
  · intro x hx e he
    obtain ⟨hold, hflags⟩ := h.entry x hx e he
    exact ⟨hold.trans_le hle, hflags⟩
  · intro x hx
    change _ = if PGROUNDDOWN x < (m.sz + n.toInt).toNat then m.byte x else 0
    rw [h.byte x hx]
    split
    · rfl
    · exact h.byte_above hx (by omega)

theorem shrink (h : Shows g pages k p d m) (hnodup : pages.Nodup) (hn : n.toInt < 0)
    (hlo : (g : ℤ) < m.sz + n.toInt)
    (hgone : Unmapped k d k' d' fun x => (m.sz + n.toInt).toNat < m.sz ∧
      PGROUNDUP (m.sz + n.toInt).toNat ≤ x ∧ PGROUNDDOWN x < m.sz) :
    Shows g pages k' { p with pgdir := some d', sz := (m.sz + n.toInt).toNat } d' (m.sbrk n) := by
  have hlt := h.lt
  have hpages : d'.pages + k'.free = pages := hgone.pages.trans h.owned
  have hcut {x : Nat} (hx : x < KERNBASE) (hin : ¬ PGROUNDDOWN x < (m.sz + n.toInt).toNat) :
      d'.entry x = none := by
    by_cases hold : PGROUNDDOWN x < m.sz
    · refine hgone.absent x (lt_32_of_user hx) ⟨by omega, ?_, hold⟩
      simp only [PGROUNDUP, PGROUNDDOWN, u32, PGSIZE, KERNBASE] at *
      omega
    · rw [hgone.kept x (lt_32_of_user hx) fun hin => hold hin.2.2]
      exact h.absent_above hx (by omega)
  have hkept {x : Nat} (hx : x < KERNBASE) (hin : PGROUNDDOWN x < (m.sz + n.toInt).toNat) :
      d'.entry x = d.entry x := by
    apply hgone.kept x (lt_32_of_user hx)
    simp only [PGROUNDUP, PGROUNDDOWN, u32, PGSIZE, KERNBASE] at *
    omega
  refine ⟨rfl, h.guard, rfl, by rw [UserMem.sbrk_sz]; omega, by rw [UserMem.sbrk_sz]; omega,
    hpages, ?_, ?_⟩
  · intro x hx e he
    by_cases hin : PGROUNDDOWN x < (m.sz + n.toInt).toNat
    · rw [hkept hx hin] at he
      exact ⟨hin, (h.entry x hx e he).2⟩
    · rw [hcut hx hin] at he
      cases he
  · intro x hx
    change _ = if PGROUNDDOWN x < (m.sz + n.toInt).toNat then m.byte x else 0
    by_cases hin : PGROUNDDOWN x < (m.sz + n.toInt).toNat
    · rw [if_pos hin]
      refine h.byte_kept hx (hkept hx hin) fun e he => hgone.mem _ ?_
      rw [← hpages] at hnodup
      refine disjoint_left.mp (nodup_add.mp hnodup).2.2 ?_
      rw [← hkept hx hin] at he
      exact mem_add.mpr (Or.inr (mem_userFrames.mpr ⟨x, hx, e, he, rfl⟩))
    · rw [if_neg hin, byte_none (hcut hx hin)]

end Shows

section

variable {L : Layout} {g : Nat} {pages : Multiset Nat} {k : Kmem} {p : Proc} {d : PageDir}
  {m : UserMem}

theorem access_guard (h : Shows g pages k p d m) (write : Bool) (hva : va < m.sz)
    (hguard : PGROUNDDOWN va = g) :
    ∃ p', access L k p write va = .ok (.error .guard, p', k) := by
  have hclosed : d.translate write va = none := by
    unfold PageDir.translate
    cases he : d.entry va with
    | none => rfl
    | some e =>
      obtain ⟨_, _, hu⟩ := h.entry va (hva.trans h.lt) e he
      simp [hu, hguard]
  obtain ⟨p', hfault⟩ : ∃ p', pageFault L k p va = .ok (.guard, p', k) := by
    unfold pageFault
    simp only
    rw [if_neg (by rw [h.sz]; omega), if_pos (by rw [h.guard, hguard])]
    exact ⟨_, rfl⟩
  refine ⟨p', ?_⟩
  unfold access
  simp only [h.pgdir, hclosed]
  exact bind_eq_ok.mpr ⟨_, hfault, rfl⟩

theorem access_spec (h : Shows g pages k p d m) (hnodup : pages.Nodup)
    (hok : ∀ f ∈ pages, L.PageOk f) (write : Bool) (hva : va < m.sz)
    (hguard : PGROUNDDOWN va ≠ g) :
    (∃ p' k', access L k p write va = .ok (.error .noMemory, p', k') ∧ k.freelist.length < 2) ∨
      ∃ e p' k' d', access L k p write va = .ok (.ok e.addr, p', k') ∧ Shows g pages k' p' d' m ∧
        d'.entry va = some e := by
  have hopen {k' : Kmem} {p' : Proc} {d' : PageDir} {e : Pte} (h' : Shows g pages k' p' d' m)
      (he : d'.entry va = some e) : d'.translate write va = some e.addr := by
    obtain ⟨_, hw, hu⟩ := h'.entry va (hva.trans h'.lt) e he
    simp [PageDir.translate, he, hw, hu, hguard]
  unfold access
  simp only [h.pgdir]
  cases he : d.entry va with
  | some e =>
    rw [hopen h he]
    exact .inr ⟨e, p, k, d, rfl, h, he⟩
  | none =>
    have hclosed : d.translate write va = none := by
      unfold PageDir.translate
      rw [he]
    rw [hclosed]
    have hsz : p.sz ≤ KERNBASE := by
      rw [h.sz]
      exact h.lt.le
    obtain ⟨r, p', k', hfault⟩ := pageFault_total (L := L) h.pgdir hsz
      (fun f hf => hok f (by rw [← h.owned]; exact mem_add.mpr (Or.inr hf))) he
    cases r with
    | outside =>
      rcases pageFault_spec hfault h.pgdir hsz with ⟨_, hge, _⟩ | ⟨hr, _⟩ |
        ⟨_, _, _, _, ⟨hr, _⟩ | ⟨hr, _⟩⟩
      · rw [h.sz] at hge
        omega
      all_goals cases hr
    | guard =>
      rcases pageFault_spec hfault h.pgdir hsz with ⟨hr, _⟩ | ⟨_, _, hpage, _⟩ |
        ⟨_, _, _, _, ⟨hr, _⟩ | ⟨hr, _⟩⟩
      · cases hr
      · exact (hguard (hpage.trans h.guard)).elim
      all_goals cases hr
    | noMemory =>
      refine .inl ⟨p', k', bind_eq_ok.mpr ⟨_, hfault, rfl⟩, ?_⟩
      by_contra hfree
      obtain ⟨d', k1, hmapped⟩ := pageFault_ok L h.pgdir (by rw [h.sz]; exact hva) hsz
        (by rw [h.guard]; exact hguard) he (Nat.le_of_not_lt hfree)
      rw [hmapped] at hfault
      cases hfault
    | mapped =>
      obtain ⟨d', e, h', he'⟩ := h.fault hnodup hfault
      refine .inr ⟨e, p', k', d', bind_eq_ok.mpr ⟨_, hfault, ?_⟩, h', he'⟩
      simp only [Fault.kills, h'.pgdir, Option.bind_some, hopen h' he']
      rfl

/-- What an implementation of `sbrk` has to do: it returns the old size and
shows the memory with the end moved, or it reports that memory ran out. -/
def SbrkShows (L : Layout) (sbrk : SbrkCall) : Prop :=
  ∀ {g : Nat} {pages : Multiset Nat} {k : Kmem} {p : Proc} {d : PageDir} {m : UserMem}
    {n : BitVec 32}, Shows g pages k p d m → pages.Nodup → (∀ f ∈ pages, L.PageOk f) →
    (g : ℤ) < m.sz + n.toInt → (m.sz : ℤ) + n.toInt < KERNBASE →
    ∃ r p' k', sbrk k p n = .ok (r, p', k') ∧ (r = none ∧ k.freelist.length < m.cost (.sbrk n) ∨
        r = some m.sz ∧ ∃ d', Shows g pages k' p' d' (m.sbrk n))

theorem addInt_toNat {sz : Nat} (hlo : 0 ≤ (sz : ℤ) + n.toInt)
    (hhi : (sz : ℤ) + n.toInt < KERNBASE) : addInt sz n = (sz + n.toInt).toNat := by
  have hadd := addInt_eq hlo (by simp only [KERNBASE] at hhi; omega)
  omega

theorem sysSbrk_shows (h : Shows g pages k p d m) (hnodup : pages.Nodup)
    (hok : ∀ f ∈ pages, L.PageOk f) (hlo : (g : ℤ) < m.sz + n.toInt)
    (hhi : (m.sz : ℤ) + n.toInt < KERNBASE) :
    ∃ p' k' d', sysSbrk L k p (some n) = .ok (some m.sz, p', k') ∧
      Shows g pages k' p' d' (m.sbrk n) := by
  have hadd : addInt p.sz n = (m.sz + n.toInt).toNat := by
    rw [h.sz]
    exact addInt_toNat (by omega) hhi
  have hsz : p.sz ≤ KERNBASE := by
    rw [h.sz]
    exact h.lt.le
  rcases lt_trichotomy n.toInt 0 with hn | hn | hn
  · obtain ⟨r, d', k', hdealloc⟩ := deallocuvm_ok k (addInt p.sz n) (d := d)
      (fun f hf => hok f (by rw [← h.owned, PageDir.pages_eq]; simp [hf])) hsz
    obtain ⟨hr, hgone⟩ := deallocuvm_spec hdealloc hsz
    rw [hadd, h.sz] at hr hgone
    rw [min_eq_right (by omega)] at hr
    have hshow := h.shrink hnodup hn hlo hgone
    refine ⟨_, k', d', ?_, hshow⟩
    rw [sysSbrk_neg hn h.pgdir hdealloc, if_neg (by omega), h.sz, hr]
  · refine ⟨p, k, d, by rw [sysSbrk_zero L k p hn, h.sz], ?_⟩
    have hshow := h.extend hn.ge hhi
    have hsame : { p with sz := ((m.sz : ℤ) + n.toInt).toNat } = p := by
      rw [hn, add_zero, Int.toNat_natCast, ← h.sz]
    rwa [hsame] at hshow
  · refine ⟨_, k, d, ?_, h.extend hn.le hhi⟩
    rw [sysSbrk_pos L k p hn, hadd, h.sz]

theorem lazySbrk_shows (L : Layout) : SbrkShows L (lazySbrk L) := by
  intro g pages k p d m n h hnodup hok hlo hhi
  obtain ⟨p', k', d', hsbrk, h'⟩ := sysSbrk_shows h hnodup hok hlo hhi
  exact ⟨_, p', k', hsbrk, .inr ⟨rfl, d', h'⟩⟩

theorem eagerSbrk_shows (L : Layout) : SbrkShows L (eagerSbrk L) := by
  intro g pages k p d m n h hnodup hok hlo hhi
  by_cases hn : 0 < n.toInt
  · have hadd : addInt p.sz n = (m.sz + n.toInt).toNat := by
      rw [h.sz]
      exact addInt_toNat (by omega) hhi
    have habsent (x : Nat) (hx : x < KERNBASE) (hge : PGROUNDUP p.sz ≤ x) : d.entry x = none := by
      apply h.absent_above hx
      have hlt := h.lt
      rw [h.sz] at hge
      simp only [PGROUNDUP, PGROUNDDOWN, u32, PGSIZE, KERNBASE] at *
      omega
    obtain ⟨r, d', k', halloc⟩ := allocuvm_total (L := L) p.sz (addInt p.sz n) (k := k) (d := d)
      (by rw [h.owned]; exact hok) habsent
    rw [eagerSbrk_pos hn h.pgdir halloc]
    rcases allocuvm_spec halloc with ⟨_, _, _, hbig⟩ | ⟨_, _, _, hless, _⟩ |
      ⟨hr, _, _, hgrown⟩ | ⟨hr, _⟩
    · omega
    · rw [hadd, h.sz] at hless
      omega
    · rw [if_neg (by omega), hr, hadd, h.sz]
      rw [hadd, h.sz] at hgrown
      exact ⟨_, _, k', rfl, .inr ⟨rfl, d', h.grow hnodup hn hhi hgrown⟩⟩
    · rw [if_pos hr]
      refine ⟨_, _, k', rfl, .inl ⟨rfl, ?_⟩⟩
      by_contra hfree
      obtain ⟨d1, k1, hall, _⟩ := allocuvm_ok L p.sz (addInt p.sz n) (k := k) (d := d)
        (by rw [hadd, h.sz]; omega) (by rw [hadd]; omega) habsent (by
          rw [hadd, h.sz]
          simpa [UserMem.cost] using hfree)
      rw [hall] at halloc
      cases halloc
      omega
  · obtain ⟨p', k', d', hsbrk, h'⟩ := sysSbrk_shows h hnodup hok hlo hhi
    refine ⟨_, p', k', ?_, .inr ⟨rfl, d', h'⟩⟩
    unfold eagerSbrk
    rw [if_neg hn, hsbrk]

theorem userStep_shows (hsbrk : SbrkShows L sbrk) (h : Shows g pages k p d m)
    (hnodup : pages.Nodup) (hok : ∀ f ∈ pages, L.PageOk f) {op : UserOp}
    {ops : List UserOp} (hg : g < sz0) (htop : top ≤ KERNBASE)
    (hops : Within sz0 top m.sz (op :: ops)) :
    ∃ o p' k', userStep L sbrk k p op = .ok (o, p', k') ∧
      (o.exhausted = true ∧ k.freelist.length < m.cost op ∨
        o = (m.step g op).1 ∧ o.exhausted = false ∧ (o.kills = true ∨
          (∃ d', Shows g pages k' p' d' (m.step g op).2) ∧
            Within sz0 top (m.step g op).2.sz ops)) := by
  cases op with
  | sbrk n =>
    obtain ⟨hlo, hhi, hrest⟩ := hops
    obtain ⟨r, p', k', hcall, hres⟩ := hsbrk h hnodup hok (n := n) (by omega) (by omega)
    refine ⟨.sbrk r, p', k', bind_eq_ok.mpr ⟨_, hcall, rfl⟩, ?_⟩
    rcases hres with ⟨rfl, hfree⟩ | ⟨rfl, h'⟩
    · exact .inl ⟨rfl, hfree⟩
    · exact .inr ⟨rfl, rfl, .inr ⟨h', hrest⟩⟩
  | load addr =>
    obtain ⟨haddr, hrest⟩ := hops
    by_cases hguard : PGROUNDDOWN addr = g
    · have hstep : m.step g (.load addr) = (.killed .guard, m) := if_pos hguard
      obtain ⟨p', hcall⟩ := access_guard (L := L) h false haddr hguard
      rw [hstep]
      exact ⟨_, p', k, bind_eq_ok.mpr ⟨_, hcall, rfl⟩, .inr ⟨rfl, rfl, .inl rfl⟩⟩
    have hstep : m.step g (.load addr) = (.loaded (m.byte addr), m) := if_neg hguard
    rw [hstep]
    rcases access_spec h hnodup hok false haddr hguard with ⟨p', k', hcall, hfree⟩ |
      ⟨e, p', k', d', hcall, h', he⟩
    · exact ⟨_, p', k', bind_eq_ok.mpr ⟨_, hcall, rfl⟩, .inl ⟨rfl, hfree⟩⟩
    · refine ⟨_, p', k', bind_eq_ok.mpr ⟨_, hcall, rfl⟩, .inr ⟨?_, rfl, .inr ⟨⟨d', h'⟩, hrest⟩⟩⟩
      rw [← h'.byte addr (haddr.trans h.lt), byte_some he]
  | store addr b =>
    obtain ⟨haddr, hrest⟩ := hops
    by_cases hguard : PGROUNDDOWN addr = g
    · have hstep : m.step g (.store addr b) = (.killed .guard, m) := if_pos hguard
      obtain ⟨p', hcall⟩ := access_guard (L := L) h true haddr hguard
      rw [hstep]
      exact ⟨_, p', k, bind_eq_ok.mpr ⟨_, hcall, rfl⟩, .inr ⟨rfl, rfl, .inl rfl⟩⟩
    have hstep : m.step g (.store addr b) =
        (.stored, { m with byte := update m.byte addr b }) := if_neg hguard
    rw [hstep]
    rcases access_spec h hnodup hok true haddr hguard with ⟨p', k', hcall, hfree⟩ |
      ⟨e, p', k', d', hcall, h', he⟩
    · exact ⟨_, p', k', bind_eq_ok.mpr ⟨_, hcall, rfl⟩, .inl ⟨rfl, hfree⟩⟩
    · exact ⟨_, p', _, bind_eq_ok.mpr ⟨_, hcall, rfl⟩, .inr ⟨rfl, rfl, .inr
        ⟨⟨d', h'.write hnodup (haddr.trans h.lt) he b⟩, hrest⟩⟩⟩

theorem userRun_shows (hsbrk : SbrkShows L sbrk) (h : Shows g pages k p d m)
    (hnodup : pages.Nodup) (hok : ∀ f ∈ pages, L.PageOk f) {ops : List UserOp}
    (hg : g < sz0) (hops : Within sz0 KERNBASE m.sz ops) (hample : Ample L sbrk k p ops) :
    userRun L sbrk k p ops = .ok (m.run g ops) := by
  induction ops generalizing k p d m with
  | nil => rfl
  | cons op ops ih =>
    obtain ⟨o, p', k', hstep, hres⟩ := userStep_shows hsbrk h hnodup hok hg le_rfl hops
    obtain ⟨hlasts, hmore⟩ := hample o p' k' hstep
    rcases hres with ⟨hout, _⟩ | ⟨ho, _, hnext⟩
    · rw [hlasts] at hout
      cases hout
    unfold userRun UserMem.run
    refine bind_eq_ok.mpr ⟨_, hstep, ?_⟩
    simp only [← ho]
    by_cases hkills : o.kills = true
    · rw [if_pos hkills, if_pos hkills]
      rfl
    · obtain ⟨⟨d', h'⟩, hrest⟩ := hnext.resolve_left hkills
      rw [if_neg hkills, if_neg hkills, ih h' hrest (hmore.resolve_left hkills)]
      rfl

/-- Sizes below `top` never exhaust a memory that holds them twice over. -/
theorem ample_of_card (hsbrk : SbrkShows L sbrk) (h : Shows g pages k p d m)
    (hnodup : pages.Nodup) (hok : ∀ f ∈ pages, L.PageOk f) {ops : List UserOp}
    (hg : g < sz0) (htop : top ≤ KERNBASE) (hsz : m.sz < top) (hops : Within sz0 top m.sz ops)
    (hcard : 1027 + 3 * pagesBetween 0 top ≤ pages.card) : Ample L sbrk k p ops := by
  induction ops generalizing k p d m with
  | nil => trivial
  | cons op ops ih =>
    obtain ⟨o, p', k', hstep, hres⟩ := userStep_shows hsbrk h hnodup hok hg htop hops
    intro o1 p1 k1 hstep1
    cases hstep.symm.trans hstep1
    have hpages := h.card_pages_le
    have hcost : m.cost op ≤ 2 + 2 * pagesBetween 0 top := by
      cases op with
      | sbrk n =>
        obtain ⟨_, hhi, _⟩ := hops
        simp only [UserMem.cost, pagesBetween, PGSIZE] at *
        omega
      | load addr => exact Nat.le_add_right _ _
      | store addr b => exact Nat.le_add_right _ _
    have hsmall : pagesBetween 0 m.sz ≤ pagesBetween 0 top := by
      simp only [pagesBetween, PGSIZE]
      omega
    rcases hres with ⟨_, hfree⟩ | ⟨_, hlasts, hnext⟩
    · omega
    refine ⟨hlasts, hnext.imp_right fun hshows => ?_⟩
    obtain ⟨⟨d', h'⟩, hrest⟩ := hshows
    refine ih h' ?_ hrest
    cases op with
    | sbrk n =>
      obtain ⟨_, hhi, _⟩ := hops
      change (m.sz + n.toInt).toNat < top
      omega
    | load addr =>
      change (if _ then _ else _ : Outcome × UserMem).2.sz < top
      split <;> exact hsz
    | store addr b =>
      change (if _ then _ else _ : Outcome × UserMem).2.sz < top
      split <;> exact hsz

theorem Within.mono {top' : Nat} (htop : top ≤ top') {sz : Nat} {ops : List UserOp}
    (h : Within sz0 top sz ops) : Within sz0 top' sz ops := by
  induction ops generalizing sz with
  | nil => trivial
  | cons op ops ih =>
    cases op with
    | sbrk n => exact ⟨h.1, by have := h.2.1; omega, ih h.2.2⟩
    | load addr => exact ⟨h.1, ih h.2⟩
    | store addr b => exact ⟨h.1, ih h.2⟩

/-- What `exec` leaves behind: the image, with pages that nothing else uses. -/
theorem exec_shows {κ : Kernel} (hinv : κ.Inv L (handed L)) {s : Slot} (hlive : κ.Live s)
    {ip : Option (List UInt8)} {path : List UInt8} {argv : List (List UInt8)} {q : Proc} {k : Kmem}
    (hexec : exec L κ.kmem (κ.proc s) ip path argv = .ok (true, q, k)) :
    ∃ d m, Shows q.guardPage (d.pages + k.free) k q d m ∧ m.sz = q.sz ∧ q.guardPage < q.sz ∧
      (d.pages + k.free).Nodup ∧ ∀ f ∈ d.pages + k.free, L.PageOk f := by
  rcases exec_spec hexec with ⟨hb, _⟩ | ⟨_, d0, d, _, _, _, hd0, hproc, hpages, _, himage⟩
  · cases hb
  have hle := hinv.space_le hlive hd0
  rw [← hpages] at hle
  have hguard : q.guardPage < q.sz := by
    have hsize := himage.size
    simp only [PGSIZE] at hsize
    omega
  refine ⟨d, ⟨q.sz, d.byte k⟩, ⟨by rw [hproc], rfl, rfl, hguard, himage.lt, rfl, ?_, fun _ _ => rfl⟩,
    rfl, hguard, nodup_of_le hle (coe_nodup.mpr (handed_nodup L)), ?_⟩
  · intro x hx e he
    have hentry := himage.entry x hx
    split at hentry
    · next hlt =>
      obtain ⟨f, hf⟩ := hentry
      rw [hf] at he
      cases he
      exact ⟨hlt, rfl, rfl⟩
    · rw [hentry] at he
      cases he
  · intro f hf
    exact handed_pageOk L f (mem_coe.mp (mem_of_le hle hf))

end

namespace Kernel

/-- From a process that has just done `exec`, every trace of `sbrk` calls and
byte accesses below `sz` ends the same under lazy and under eager allocation,
as long as neither runs out of memory. -/
theorem lazy_matches_eager {L : Layout} {ncpu : Nat} {initcode : List UInt8} {κ0 κ : Kernel}
    (hboot : boot L ncpu initcode = .ok κ0) (hrun : ReflTransGen (BoundedStep L) κ0 κ) {s : Slot}
    (hlive : κ.Live s) {ip : Option (List UInt8)} {path : List UInt8} {argv : List (List UInt8)}
    {q : Proc} {k : Kmem} (hexec : Vm.exec L κ.kmem (κ.proc s) ip path argv = .ok (true, q, k))
    {ops : List UserOp} (hops : Within q.sz KERNBASE q.sz ops)
    (hlazy : Ample L (lazySbrk L) k q ops) (heager : Ample L (eagerSbrk L) k q ops) :
    ∃ outs, userRun L (lazySbrk L) k q ops = .ok outs ∧
      userRun L (eagerSbrk L) k q ops = .ok outs := by
  obtain ⟨d, m, hshows, hsz, hguard, hnodup, hok⟩ := exec_shows (inv_of_run hboot hrun) hlive hexec
  rw [← hsz] at hops
  exact ⟨_, userRun_shows (lazySbrk_shows L) hshows hnodup hok (by omega) hops hlazy,
    userRun_shows (eagerSbrk_shows L) hshows hnodup hok (by omega) hops heager⟩

/-- A heap page is written, dropped and regained, and then the guard page is
read. -/
theorem lazy_matches_eager_heap : ∃ κ0 q k,
    boot smallLayout 1 [0xEB, 0xFE] = .ok κ0 ∧ Vm.exec smallLayout κ0.kmem (κ0.proc κ0.initproc)
      (some tinyElf) [105] [] = .ok (true, q, k) ∧
    ∃ outs, userRun smallLayout (lazySbrk smallLayout) k q [.sbrk 4096, .store 12288 7, .load 12288,
        .sbrk (-4096), .sbrk 4096, .load 12288, .load 4096] = .ok outs ∧
      userRun smallLayout (eagerSbrk smallLayout) k q [.sbrk 4096, .store 12288 7, .load 12288,
        .sbrk (-4096), .sbrk 4096, .load 12288, .load 4096] = .ok outs := by
  obtain ⟨κ0, κ, hboot, hexec, _, _, _, hsz, hfree⟩ := boot_exec_tinyElf
  have hlive := (boot_live hboot _).mpr rfl
  obtain ⟨d, m, hshows, hm, hguard, hnodup, hok⟩ := exec_shows (boot_spec hboot).1 hlive hexec
  have hwithin : Within (κ.proc κ0.initproc).sz 16385 m.sz [.sbrk 4096, .store 12288 7, .load 12288,
      .sbrk (-4096), .sbrk 4096, .load 12288, .load 4096] := by
    rw [hm, hsz]
    simp only [Within]
    decide
  have hcard : 1027 + 3 * pagesBetween 0 16385 ≤ (d.pages + κ.kmem.free).card := by
    have hlen : κ.kmem.free.card = κ.kmem.freelist.length := rfl
    rw [card_add, hlen, show pagesBetween 0 16385 = 5 by decide]
    omega
  refine ⟨κ0, _, _, hboot, hexec, lazy_matches_eager hboot .refl hlive hexec ?_ ?_ ?_⟩
  · rw [← hm] at hwithin ⊢
    exact hwithin.mono (by decide)
  · exact ample_of_card (lazySbrk_shows _) hshows hnodup hok hguard (by decide)
      (by rw [hm, hsz]; decide) hwithin hcard
  · exact ample_of_card (eagerSbrk_shows _) hshows hnodup hok hguard (by decide)
      (by rw [hm, hsz]; decide) hwithin hcard

end Kernel

end Xv6.Vm

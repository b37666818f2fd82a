import Xv6.Vm.AddressSpace

/-!
With enough free pages nothing fails. `mappages` takes a page only for a table
that is missing, so a range costs at most one page for each table it touches.
-/

namespace Xv6.Vm

open Lib List Multiset

/-- The pages a walk to `a` takes from the free list. -/
def PageDir.missing (d : PageDir) (a : Nat) : Nat := if (d.pde (PDX a)).isSome then 0 else 1

theorem PageDir.missing_le_one (d : PageDir) (a : Nat) : d.missing a ≤ 1 := by
  unfold missing
  split <;> omega

variable {k : Kmem} {a n sz va : Nat} {L : Layout} {e : Pte}

theorem kalloc_ok (h : 0 < k.freelist.length) :
    ∃ r k', kalloc k = some (r, k') ∧ k.freelist.length = k'.freelist.length + 1 := by
  unfold kalloc
  cases hlist : k.freelist with
  | nil => simp [hlist] at h
  | cons r next => exact ⟨r, _, rfl, rfl⟩

theorem walkpgdir_ok {d : PageDir} (h : d.missing a ≤ k.freelist.length) :
    ∃ d' k', walkpgdir k d a true = some (d.entry a, d', k') ∧
      k.freelist.length = k'.freelist.length + d.missing a := by
  unfold walkpgdir PageDir.missing PageDir.entry at *
  cases ht : d.pde (PDX a) with
  | some t => exact ⟨d, k, rfl, rfl⟩
  | none =>
    rw [ht] at h
    obtain ⟨r, k', halloc, hlen⟩ := kalloc_ok (k := k) (Nat.lt_of_succ_le h)
    simp only [if_true, halloc]
    exact ⟨_, k'.zero r, rfl, hlen⟩

theorem setPte_pde_isSome (d : PageDir) (a : Nat) (e : Option Pte) (i : Nat) :
    ((d.setPte a e).pde i).isSome = (d.pde i).isSome := by
  unfold PageDir.setPte
  split
  · next t ht =>
    by_cases hi : i = PDX a
    · subst hi
      simp [PageDir.setPde, ht]
    · simp [PageDir.setPde, hi]
  · rfl

theorem PDX_eq_div (ha : a < 2 ^ 32) : PDX a = a / 2 ^ 22 := by
  unfold PDX
  omega

theorem mappagesLoop_ok (w u : Bool) {d : PageDir} (pa : Nat)
    (ha : a % PGSIZE = 0) (hend : a + n * PGSIZE < 2 ^ 32)
    (habsent : ∀ x, a ≤ x → x < a + (n + 1) * PGSIZE → d.entry x = none)
    (hfree : PDX (a + n * PGSIZE) - PDX a + d.missing a ≤ k.freelist.length) :
    ∃ d' k', mappagesLoop w u n k d a pa = .ok (true, d', k') ∧ k.freelist.length ≤
      k'.freelist.length + (PDX (a + n * PGSIZE) - PDX a + d.missing a) := by
  induction n generalizing k d a pa with
  | zero =>
    obtain ⟨d', k', hwalk, hlen⟩ := walkpgdir_ok (k := k) (d := d) (a := a) (by omega)
    rw [habsent a le_rfl (by simp [PGSIZE])] at hwalk
    unfold mappagesLoop
    rw [hwalk]
    exact ⟨_, k', rfl, by omega⟩
  | succ n ih =>
    obtain ⟨d0, k1, hwalk, hlen⟩ := walkpgdir_ok (k := k) (d := d) (a := a) (by omega)
    rw [habsent a le_rfl (by simp only [PGSIZE]; omega)] at hwalk
    obtain ⟨_, hsame, htable, _⟩ := walkpgdir_alloc hwalk
    have hlast : a + PGSIZE + n * PGSIZE = a + (n + 1) * PGSIZE := by ring
    have ha32 : a < 2 ^ 32 := by omega
    have hnext32 : a + PGSIZE < 2 ^ 32 := by
      simp only [PGSIZE] at *
      omega
    have hnext : u32 (a + PGSIZE) = a + PGSIZE := Nat.mod_eq_of_lt hnext32
    -- the next page needs a table only if it is the first of one
    have hneed : PDX (a + (n + 1) * PGSIZE) - PDX (a + PGSIZE) +
        (d0.setPte a (some ⟨pa, w, u⟩)).missing (a + PGSIZE) ≤
          PDX (a + (n + 1) * PGSIZE) - PDX a := by
      by_cases htab : PDX (a + PGSIZE) = PDX a
      · simp [PageDir.missing, setPte_pde_isSome, htab, htable]
      · have hone := (d0.setPte a (some ⟨pa, w, u⟩)).missing_le_one (a + PGSIZE)
        rw [PDX_eq_div hnext32, PDX_eq_div ha32] at htab
        rw [PDX_eq_div hend, PDX_eq_div hnext32, PDX_eq_div ha32]
        simp only [PGSIZE] at *
        omega
    obtain ⟨d', k', hloop, hrest⟩ := ih (k := k1) (d := d0.setPte a (some ⟨pa, w, u⟩))
      (a := a + PGSIZE) (u32 (pa + PGSIZE)) (by simp only [PGSIZE] at *; omega)
      (by rw [hlast]; exact hend)
      (by
        intro x hlo hhi
        have hx32 : x < 2 ^ 32 := by
          simp only [PGSIZE] at *
          omega
        rw [PageDir.entry_setPte _ _ ha32 hx32 htable, if_neg, hsame]
        · exact habsent x (by omega) (by simp only [PGSIZE] at *; omega)
        · simp only [PGSIZE] at *
          omega)
      (by rw [hlast]; omega)
    refine ⟨d', k', ?_, ?_⟩
    · unfold mappagesLoop
      rw [hwalk]
      simp only [hnext]
      exact hloop
    · rw [hlast] at hrest
      omega

theorem mappages_page_ok (w u : Bool) {d : PageDir} (va pa : Nat)
    (hva : va % PGSIZE = 0) (hlt : va < 2 ^ 32) (habsent : d.entry va = none)
    (hfree : d.missing va ≤ k.freelist.length) :
    ∃ d' k', mappages k d va PGSIZE pa w u = .ok (true, d', k') ∧
      k.freelist.length ≤ k'.freelist.length + d.missing va := by
  obtain ⟨d', k', hloop, hlen⟩ := mappagesLoop_ok w u (n := 0) (k := k) (d := d) pa hva (by omega)
    (by
      intro x hlo hhi
      rw [d.entry_congr (y := va), habsent]
      all_goals
        simp only [PGSIZE] at *
        omega)
    (by simpa using hfree)
  exact ⟨d', k', (mappages_one hva hlt).trans hloop, by simpa using hlen⟩

/-- The most pages that mapping a range can take. -/
def tableCost (va size : Nat) : Nat := PDX (va + size - PGSIZE) - PDX va + 1

theorem mappages_range_ok (w u : Bool) {d : PageDir} {size : Nat} (pa : Nat)
    (hva : va % PGSIZE = 0) (hsize : size % PGSIZE = 0) (hpos : 0 < size)
    (hend : va + size ≤ 2 ^ 32) (habsent : ∀ x, va ≤ x → x < va + size → d.entry x = none)
    (hfree : tableCost va size ≤ k.freelist.length) :
    ∃ d' k', mappages k d va size pa w u = .ok (true, d', k') ∧
      k.freelist.length ≤ k'.freelist.length + tableCost va size := by
  have hlast : va + (size / PGSIZE - 1) * PGSIZE = va + size - PGSIZE := by
    simp only [PGSIZE] at *
    omega
  have hmissing := d.missing_le_one va
  have hcost : PDX (va + (size / PGSIZE - 1) * PGSIZE) - PDX va + d.missing va ≤
      tableCost va size := by
    rw [hlast]
    unfold tableCost
    omega
  obtain ⟨d', k', hloop, hlen⟩ := mappagesLoop_ok w u (n := size / PGSIZE - 1) (k := k) (d := d) pa
    hva (by simp only [PGSIZE] at *; omega)
    (by
      intro x hlo hhi
      exact habsent x hlo (by simp only [PGSIZE] at *; omega))
    (hcost.trans hfree)
  exact ⟨d', k', (mappages_eq hva hsize hpos hend).trans hloop, by omega⟩

def Kmap.cost (m : Kmap) : Nat := tableCost m.virt m.size

/-- The most pages that the tables of a list of ranges can take. -/
def setupCost (ms : List Kmap) : Nat := (ms.map Kmap.cost).sum

theorem setupCost_cons (m : Kmap) (ms : List Kmap) :
    setupCost (m :: ms) = m.cost + setupCost ms := by
  simp [setupCost]

def Ascending (ms : List Kmap) : Prop := ms.Pairwise fun m m' => m.virt + m.size ≤ m'.virt

theorem setupLoop_ok (L : Layout) {ms : List Kmap} {d : PageDir}
    (hok : ∀ m ∈ ms, m.Ok) (hsorted : Ascending ms)
    (habsent : ∀ m ∈ ms, ∀ x, m.virt ≤ x → x < m.virt + m.size → d.entry x = none)
    (hfree : setupCost ms ≤ k.freelist.length) :
    ∃ d' k', setupLoop L ms k d = .ok (some d', k') ∧
      k.freelist.length ≤ k'.freelist.length + setupCost ms := by
  induction ms generalizing k d with
  | nil => exact ⟨d, k, rfl, by simp⟩
  | cons m rest ih =>
    have hm : m.Ok := hok m (by simp)
    obtain ⟨hfirst, hrest⟩ := pairwise_cons.mp hsorted
    have hcost : setupCost (m :: rest) = tableCost m.virt m.size + setupCost rest :=
      setupCost_cons m rest
    obtain ⟨d1, k1, hmap, hlen⟩ := mappages_range_ok m.w false (k := k) (d := d) m.physStart
      hm.virt hm.size hm.pos hm.virt_le (habsent m (by simp)) (by omega)
    have hentry := (mappages_range hmap hm.virt hm.size hm.pos hm.virt_le hm.phys_le).2.2 rfl
    obtain ⟨d', k', hloop, hlen'⟩ := ih (k := k1) (d := d1)
      (fun m' hm' => hok m' (List.mem_cons_of_mem m hm')) hrest
      (by
        intro m' hm' x hlo hhi
        have hnext := hfirst m' hm'
        have hend := (hok m' (List.mem_cons_of_mem m hm')).virt_le
        rw [(hentry x (by omega)).2, if_neg (by omega)]
        exact habsent m' (List.mem_cons_of_mem m hm') x hlo hhi)
      (by omega)
    refine ⟨d', k', ?_, by omega⟩
    unfold setupLoop
    change (mappages k d m.virt m.size m.physStart m.w false >>= _) = _
    rw [hmap]
    exact hloop

theorem kmap_ascending (L : Layout) : Ascending (kmap L) := by
  have htext := L.text_nonempty
  have hdata := L.data_le_end
  have hend := L.end_le
  refine .cons ?_ (.cons ?_ (.cons ?_ (.cons ?_ .nil)))
  all_goals
    intro m hm
    simp only [List.mem_cons, not_mem_nil, or_false] at hm
  · obtain rfl | rfl | rfl := hm
    all_goals
      simp only [Kmap.size, sub32, u32, KERNLINK, KERNBASE, EXTMEM, DEVSPACE] at *
      omega
  · obtain rfl | rfl := hm
    all_goals
      simp only [Kmap.size, sub32, u32, KERNLINK, KERNBASE, EXTMEM, DEVSPACE] at *
      omega
  · subst hm
    simp only [Kmap.size, sub32, u32, KERNLINK, KERNBASE, EXTMEM, PHYSTOP, DEVSPACE] at *
    omega

theorem data_bounds (L : Layout) : KERNLINK < L.data ∧ L.data ≤ KERNBASE + 4 * 1024 * 1024 :=
  ⟨L.text_nonempty, L.data_le_end.trans L.end_le⟩

theorem text_cost (L : Layout) :
    Kmap.cost ⟨KERNLINK, KERNLINK - KERNBASE, L.data - KERNBASE, false⟩ ≤ 1 := by
  obtain ⟨htext, hdata⟩ := data_bounds L
  simp only [Kmap.cost, Kmap.size, tableCost, PDX, sub32, u32, KERNLINK, KERNBASE, EXTMEM,
    PGSIZE] at *
  omega

theorem data_cost (L : Layout) : Kmap.cost ⟨L.data, L.data - KERNBASE, PHYSTOP, true⟩ ≤ 56 := by
  obtain ⟨htext, hdata⟩ := data_bounds L
  have hend : L.data + sub32 PHYSTOP (L.data - KERNBASE) = KERNBASE + PHYSTOP := by
    simp only [sub32, u32, KERNLINK, KERNBASE, EXTMEM, PHYSTOP] at *
    omega
  have hfirst : 512 ≤ PDX L.data := by
    simp only [PDX, KERNLINK, KERNBASE, EXTMEM] at *
    omega
  have hlast : PDX (KERNBASE + PHYSTOP - PGSIZE) = 567 := by decide
  simp only [Kmap.cost, Kmap.size, tableCost, hend, hlast]
  omega

theorem setupCost_kmap (L : Layout) : setupCost (kmap L) ≤ 66 := by
  have hio : Kmap.cost ⟨KERNBASE, 0, EXTMEM, true⟩ = 1 := by decide
  have hdevices : Kmap.cost ⟨DEVSPACE, DEVSPACE, 0, true⟩ = 8 := by decide
  unfold kmap
  rw [setupCost_cons, setupCost_cons, setupCost_cons, setupCost_cons, hio, hdevices]
  exact Nat.add_le_add le_rfl (Nat.add_le_add (text_cost L) (Nat.add_le_add (data_cost L) le_rfl))

theorem setupkvm_ok (L : Layout) (hfree : 67 ≤ k.freelist.length) :
    ∃ d k', setupkvm L k = .ok (some d, k') ∧ k.freelist.length ≤ k'.freelist.length + 67 := by
  obtain ⟨r, k1, halloc, hlen⟩ := kalloc_ok (k := k) (by omega)
  have hcost := setupCost_kmap L
  have hlen1 : (k1.zero r).freelist.length = k1.freelist.length := rfl
  obtain ⟨d, k', hloop, hlen'⟩ := setupLoop_ok L (k := k1.zero r) (d := PageDir.empty r) (kmap_ok L)
    (kmap_ascending L) (fun _ _ _ _ _ => rfl) (by omega)
  refine ⟨d, k', ?_, by omega⟩
  unfold setupkvm
  rw [halloc]
  exact hloop

theorem allocLoop_ok (L : Layout) (oldsz newsz : Nat) {d : PageDir}
    (ha : a % PGSIZE = 0) (hend : a + n * PGSIZE ≤ KERNBASE)
    (habsent : ∀ x, a ≤ x → x < a + n * PGSIZE → d.entry x = none)
    (hfree : 2 * n ≤ k.freelist.length) :
    ∃ d' k', allocLoop L oldsz newsz n k d a = .ok (newsz, d', k') ∧
      k.freelist.length ≤ k'.freelist.length + 2 * n := by
  induction n generalizing k d a with
  | zero => exact ⟨d, k, rfl, by omega⟩
  | succ n ih =>
    have hlt : a < KERNBASE := by
      simp only [PGSIZE, KERNBASE] at *
      omega
    have hlt32 : a < 2 ^ 32 := by
      simp only [KERNBASE] at hlt
      omega
    obtain ⟨mem, k1, halloc, hlen⟩ := kalloc_ok (k := k) (by omega)
    have hone := d.missing_le_one a
    have hzero : (k1.zero mem).freelist.length = k1.freelist.length := rfl
    obtain ⟨d1, k2, hmap, hlen'⟩ := mappages_page_ok true true (k := k1.zero mem) (d := d) a mem ha
      hlt32 (habsent a le_rfl (by simp only [PGSIZE]; omega)) (by omega)
    have hentry := (mappages_page hmap ha hlt32).2.2
    obtain ⟨d', k', hloop, hrest⟩ := ih (k := k2) (d := d1) (a := a + PGSIZE)
      (by simp only [PGSIZE] at *; omega) (by simp only [PGSIZE] at *; omega)
      (by
        intro x hlo hhi
        have hx : x < 2 ^ 32 := by
          simp only [PGSIZE, KERNBASE] at *
          omega
        rw [hentry x hx, if_neg, habsent x (by omega) (by simp only [PGSIZE] at *; omega)]
        simp only [PGSIZE, true_and] at *
        omega)
      (by omega)
    refine ⟨d', k', ?_, by omega⟩
    unfold allocLoop
    rw [halloc]
    refine bind_eq_ok.mpr ⟨_, hmap, ?_⟩
    have hnext : u32 (a + PGSIZE) = a + PGSIZE := u32_next (by omega)
    simp only [if_true, hnext]
    exact hloop

theorem allocuvm_ok (L : Layout) (oldsz newsz : Nat) {d : PageDir} (hle : oldsz ≤ newsz)
    (hnew : newsz < KERNBASE)
    (habsent : ∀ x < KERNBASE, PGROUNDUP oldsz ≤ x → d.entry x = none)
    (hfree : 2 * pagesBetween (PGROUNDUP oldsz) newsz ≤ k.freelist.length) :
    ∃ d' k', allocuvm L k d oldsz newsz = .ok (newsz, d', k') ∧
      k.freelist.length ≤ k'.freelist.length + 2 * pagesBetween (PGROUNDUP oldsz) newsz := by
  have hend : PGROUNDUP oldsz + pagesBetween (PGROUNDUP oldsz) newsz * PGSIZE ≤ KERNBASE := by
    simp only [pagesBetween, PGROUNDUP, u32, PGSIZE, KERNBASE] at *
    omega
  obtain ⟨d', k', hloop, hlen⟩ := allocLoop_ok L oldsz newsz (k := k) (d := d) (a := PGROUNDUP oldsz)
    (Nat.mul_mod_left _ _) hend (fun x hlo hhi => habsent x (by omega) hlo) hfree
  refine ⟨d', k', ?_, hlen⟩
  unfold allocuvm
  rw [if_neg (by omega), if_neg (by omega)]
  exact hloop

theorem mappagesLoop_total (w u : Bool) (k : Kmem) {d : PageDir} (pa : Nat)
    (ha : a % PGSIZE = 0) (hend : a + n * PGSIZE < 2 ^ 32)
    (habsent : ∀ x, a ≤ x → x < a + (n + 1) * PGSIZE → d.entry x = none) :
    ∃ b d' k', mappagesLoop w u n k d a pa = .ok (b, d', k') := by
  induction n generalizing k d a pa with
  | zero =>
    unfold mappagesLoop
    cases hwalk : walkpgdir k d a true with
    | none => exact ⟨false, d, k, rfl⟩
    | some res =>
      obtain ⟨e, d1, k1⟩ := res
      obtain ⟨rfl, _⟩ := walkpgdir_alloc hwalk
      rw [habsent a le_rfl (by simp [PGSIZE])]
      exact ⟨true, _, k1, rfl⟩
  | succ n ih =>
    unfold mappagesLoop
    cases hwalk : walkpgdir k d a true with
    | none => exact ⟨false, d, k, rfl⟩
    | some res =>
      obtain ⟨e, d1, k1⟩ := res
      obtain ⟨rfl, hsame, htable, _⟩ := walkpgdir_alloc hwalk
      have hnext : u32 (a + PGSIZE) = a + PGSIZE := by
        simp only [u32, PGSIZE] at *
        omega
      rw [habsent a le_rfl (by simp only [PGSIZE]; omega)]
      simp only [hnext]
      apply ih
      · simp only [PGSIZE] at *
        omega
      · simp only [PGSIZE] at *
        omega
      · intro x hlo hhi
        have hx32 : x < 2 ^ 32 := by
          simp only [PGSIZE] at *
          omega
        rw [PageDir.entry_setPte _ _ (by omega) hx32 htable, if_neg, hsame]
        · exact habsent x (by omega) (by simp only [PGSIZE] at *; omega)
        · simp only [PGSIZE] at *
          omega

theorem mappages_range_total (w u : Bool) (k : Kmem) {d : PageDir} {size : Nat} (pa : Nat)
    (hva : va % PGSIZE = 0) (hsize : size % PGSIZE = 0) (hpos : 0 < size)
    (hend : va + size ≤ 2 ^ 32) (habsent : ∀ x, va ≤ x → x < va + size → d.entry x = none) :
    ∃ b d' k', mappages k d va size pa w u = .ok (b, d', k') := by
  rw [mappages_eq hva hsize hpos hend]
  apply mappagesLoop_total w u k pa hva
  · simp only [PGSIZE] at *
    omega
  · intro x hlo hhi
    exact habsent x hlo (by simp only [PGSIZE] at *; omega)

theorem mappages_page_total (w u : Bool) (k : Kmem) {d : PageDir} (va pa : Nat)
    (hva : va % PGSIZE = 0) (hlt : va < 2 ^ 32) (habsent : d.entry va = none) :
    ∃ b d' k', mappages k d va PGSIZE pa w u = .ok (b, d', k') := by
  apply mappages_range_total w u k pa hva (by decide) (by decide)
  · simp only [PGSIZE] at *
    omega
  · intro x hlo hhi
    rw [d.entry_congr (y := va), habsent]
    all_goals
      simp only [PGSIZE] at *
      omega

theorem allocLoop_total {oldsz newsz : Nat} {d : PageDir}
    (hok : ∀ f ∈ d.pages + k.free, L.PageOk f) (ha : a % PGSIZE = 0)
    (hend : a + n * PGSIZE ≤ KERNBASE) (hnew : newsz < KERNBASE)
    (habsent : ∀ x, a ≤ x → x < a + n * PGSIZE → d.entry x = none) :
    ∃ r d' k', allocLoop L oldsz newsz n k d a = .ok (r, d', k') := by
  induction n generalizing k d a with
  | zero => exact ⟨newsz, d, k, rfl⟩
  | succ n ih =>
    have hlt : a < KERNBASE := by
      simp only [PGSIZE, KERNBASE] at *
      omega
    unfold allocLoop
    cases halloc : kalloc k with
    | none =>
      obtain ⟨r, d', k', hdealloc⟩ := deallocuvm_ok k oldsz
        (fun f hf => hok f (mem_add.mpr (Or.inl (mem_add.mpr (Or.inr hf)))))
        hnew.le
      exact ⟨0, d', k', bind_eq_ok.mpr ⟨(r, d', k'), hdealloc, rfl⟩⟩
    | some res =>
      obtain ⟨mem, k1⟩ := res
      obtain ⟨b, d1, k2, hmap⟩ := mappages_page_total true true (k1.zero mem) a mem ha
        (lt_32_of_user hlt) (habsent a le_rfl (by simp only [PGSIZE]; omega))
      obtain ⟨_, _, _, hpages, _, hentry⟩ :=
        allocPage halloc (k1.zero_free mem) (k1.zero_mem mem) hmap ha hlt
      simp only
      cases b with
      | true =>
        have hnext : u32 (a + PGSIZE) = a + PGSIZE := u32_next (by omega)
        simp only [if_true, add_zero] at hpages
        rw [← hpages] at hok
        obtain ⟨r, d', k', hloop⟩ := ih hok (a := a + PGSIZE)
          (by simp only [PGSIZE] at *; omega) (by simp only [PGSIZE] at *; omega)
          (by
            intro x hlo hhi
            rw [hentry x (lt_32_of_user (by simp only [PGSIZE] at *; omega)), if_neg]
            · exact habsent x (by omega) (by simp only [PGSIZE] at *; omega)
            · simp only [PGSIZE] at *
              omega)
        refine ⟨r, d', k', bind_eq_ok.mpr ⟨(true, d1, k2), hmap, ?_⟩⟩
        rw [← hnext] at hloop
        exact hloop
      | false =>
        simp only [Bool.false_eq_true, if_false] at hpages
        rw [← hpages] at hok
        obtain ⟨r, d', k', hdealloc⟩ := deallocuvm_ok (d := d1) k2 oldsz
          (fun f hf => hok f (by simp [PageDir.pages_eq, hf])) hnew.le
        obtain ⟨k3, hfree⟩ := kfree_of_pageOk (hok mem (by simp)) k'
        exact ⟨0, d', k3, bind_eq_ok.mpr ⟨(false, d1, k2), hmap,
          bind_eq_ok.mpr ⟨(r, d', k'), hdealloc, bind_eq_ok.mpr ⟨k3, hfree, rfl⟩⟩⟩⟩

theorem allocuvm_total (oldsz newsz : Nat) {d : PageDir} (hok : ∀ f ∈ d.pages + k.free, L.PageOk f)
    (habsent : ∀ x < KERNBASE, PGROUNDUP oldsz ≤ x → d.entry x = none) :
    ∃ r d' k', allocuvm L k d oldsz newsz = .ok (r, d', k') := by
  unfold allocuvm
  split
  · exact ⟨_, _, _, rfl⟩
  split
  · exact ⟨_, _, _, rfl⟩
  · next hnew hle =>
    have hend : PGROUNDUP oldsz + pagesBetween (PGROUNDUP oldsz) newsz * PGSIZE ≤ KERNBASE := by
      simp only [pagesBetween, PGROUNDUP, u32, PGSIZE, KERNBASE] at *
      omega
    exact allocLoop_total hok (Nat.mul_mod_left _ _) hend (by omega)
      fun x hlo hhi => habsent x (by omega) hlo

theorem freeTables_ok {d : PageDir} (hok : ∀ f ∈ d.frames, L.PageOk f) (k : Kmem) :
    ∃ k', freeTables L d k = .ok k' := by
  refine bind_total (foldlM_total (fun i hi k => ?_) k) fun k1 => ?_
  · cases ht : d.pde i with
    | none => exact ⟨k, rfl⟩
    | some t =>
      have hmem := PageDir.frame_mem_tableFrames (List.mem_range.mp hi) ht
      exact kfree_of_pageOk (hok _ (mem_add.mpr (Or.inr hmem))) k
  · exact kfree_of_pageOk
      (hok d.frame (mem_add.mpr (Or.inl (Multiset.mem_singleton_self _)))) k1

theorem freevm_ok {d : PageDir} (hok : ∀ f ∈ d.pages, L.PageOk f) (k : Kmem) :
    ∃ k', freevm L k d true = .ok k' := by
  obtain ⟨r, d1, k1, hdealloc⟩ := deallocuvm_ok k 0 (fun f hf => hok f (by
    rw [PageDir.pages_eq]
    exact mem_add.mpr (Or.inr hf))) le_rfl
  have hframes := (deallocuvm_all hdealloc).2.1
  obtain ⟨k', hfree⟩ := freeTables_ok (L := L) (d := d1) (fun f hf => hok f (by
    rw [PageDir.pages_eq]
    exact mem_add.mpr (Or.inl (hframes ▸ hf)))) k1
  exact ⟨k', bind_eq_ok.mpr ⟨_, hdealloc, hfree⟩⟩

theorem setupLoop_total (L : Layout) {ms : List Kmap} {d : PageDir}
    (hms : ∀ m ∈ ms, m.Ok) (hsorted : Ascending ms)
    (habsent : ∀ m ∈ ms, ∀ x, m.virt ≤ x → x < m.virt + m.size → d.entry x = none)
    (hok : ∀ f ∈ d.frames + k.free, L.PageOk f) :
    ∃ r k', setupLoop L ms k d = .ok (r, k') := by
  induction ms generalizing k d with
  | nil => exact ⟨some d, k, rfl⟩
  | cons m rest ih =>
    have hm : m.Ok := hms m (by simp)
    obtain ⟨hfirst, hrest⟩ := pairwise_cons.mp hsorted
    obtain ⟨b, d1, k1, hmap⟩ := mappages_range_total m.w false k (d := d) m.physStart
      hm.virt hm.size hm.pos hm.virt_le (habsent m (by simp))
    obtain ⟨hmapped, _, hentry⟩ := mappages_range hmap hm.virt hm.size hm.pos hm.virt_le hm.phys_le
    rw [← hmapped.frames] at hok
    unfold setupLoop
    change ∃ r k', (mappages k d m.virt m.size m.physStart m.w false >>= _) = _
    rw [hmap, ok_bind]
    cases b with
    | false =>
      obtain ⟨k2, hfree⟩ := freeTables_ok (d := d1)
        (fun f hf => hok f (mem_add.mpr (Or.inl hf))) k1
      exact ⟨none, k2, bind_eq_ok.mpr ⟨k2, hfree, rfl⟩⟩
    | true =>
      apply ih (fun m' hm' => hms m' (List.mem_cons_of_mem m hm')) hrest ?_ hok
      intro m' hm' x hlo hhi
      have hnext := hfirst m' hm'
      have hend := (hms m' (List.mem_cons_of_mem m hm')).virt_le
      rw [(hentry rfl x (by omega)).2, if_neg (by omega)]
      exact habsent m' (List.mem_cons_of_mem m hm') x hlo hhi

theorem setupkvm_total (hok : ∀ f ∈ k.free, L.PageOk f) : ∃ r k', setupkvm L k = .ok (r, k') := by
  unfold setupkvm
  cases halloc : kalloc k with
  | none => exact ⟨none, k, rfl⟩
  | some res =>
    obtain ⟨pgdir, k1⟩ := res
    have hempty : (PageDir.empty pgdir).frames = {pgdir} := by
      simp [PageDir.frames, PageDir.tableFrames, PageDir.empty]
    apply setupLoop_total L (kmap_ok L) (kmap_ascending L) fun _ _ _ _ _ => rfl
    rw [hempty, Kmem.zero_free, ← (kalloc_some halloc).1]
    exact hok

theorem PageDir.table_of_entry {d : PageDir} (h : d.entry a = some e) :
    ∃ t, d.pde (PDX a) = some t ∧ t.pte (PTX a) = some e := by
  unfold entry at h
  exact Option.bind_eq_some_iff.mp h

theorem clearpteu_ok {d : PageDir} (h : d.entry a = some e) : ∃ d', clearpteu d a = .ok d' := by
  obtain ⟨t, ht, _⟩ := d.table_of_entry h
  unfold clearpteu
  rw [ht]
  exact ⟨_, rfl⟩

theorem uva2ka_ok {d : PageDir} (h : d.entry a = some e) (hu : e.u = true) :
    uva2ka d a = .ok (some e.addr) := by
  obtain ⟨t, ht, hpte⟩ := d.table_of_entry h
  unfold uva2ka
  simp only [ht, hpte, hu, if_true]

theorem copyoutLoop_nil (d : PageDir) (n va : Nat) (k : Kmem) :
    copyoutLoop d n k va [] = .ok (true, k) := by
  cases n <;> simp [copyoutLoop]

theorem copyoutLoop_ok {d : PageDir} {buf : List UInt8} (k : Kmem)
    (hend : va + buf.length ≤ KERNBASE) (hfuel : buf.length ≤ n)
    (hpages : ∀ x, va ≤ x → x < va + buf.length → ∃ e, d.entry x = some e ∧ e.u = true) :
    ∃ k', copyoutLoop d n k va buf = .ok (true, k') := by
  induction n generalizing k va buf with
  | zero =>
    have hnil : buf = [] := eq_nil_of_length_eq_zero (by omega)
    exact ⟨k, by rw [hnil]; exact copyoutLoop_nil _ _ _ _⟩
  | succ n ih =>
    unfold copyoutLoop
    split
    · exact ⟨k, rfl⟩
    · next hne =>
      have hpos : 0 < buf.length := length_pos_of_ne_nil hne
      obtain ⟨e, he, hu⟩ := hpages va le_rfl (by omega)
      have he' : d.entry (PGROUNDDOWN va) = some e := by
        rw [← he]
        apply d.entry_congr <;> simp only [PGROUNDDOWN, PGSIZE, KERNBASE] at * <;> omega
      have hdown : PGROUNDDOWN va ≤ va ∧ va < PGROUNDDOWN va + PGSIZE := by
        simp only [PGROUNDDOWN, PGSIZE]
        omega
      generalize hm : min (PGSIZE - (va - PGROUNDDOWN va)) buf.length = m
      -- the rest starts at the next page, or is empty
      have hrest : (buf.drop m).length = buf.length - m := length_drop
      have hnext : buf.drop m = [] ∨ u32 (PGROUNDDOWN va + PGSIZE) = va + m := by
        by_cases hlast : buf.length ≤ m
        · exact .inl (drop_eq_nil_of_le hlast)
        · right
          simp only [u32, PGSIZE, KERNBASE] at *
          omega
      obtain ⟨k', hloop⟩ : ∃ k', copyoutLoop d n (k.write e.addr (va - PGROUNDDOWN va) (buf.take m))
          (u32 (PGROUNDDOWN va + PGSIZE)) (buf.drop m) = .ok (true, k') := by
        rcases hnext with hnil | hnext
        · rw [hnil]
          exact ⟨_, copyoutLoop_nil _ _ _ _⟩
        · rw [hnext]
          refine ih _ (by omega) (by omega) fun x hlo hhi => hpages x (by omega) (by omega)
      exact ⟨k', bind_eq_ok.mpr ⟨_, uva2ka_ok he' hu, by simpa only [hm] using hloop⟩⟩

theorem copyout_ok {d : PageDir} (va : Nat) (buf : List UInt8) (k : Kmem)
    (hend : va + buf.length ≤ KERNBASE)
    (hpages : ∀ x, va ≤ x → x < va + buf.length → ∃ e, d.entry x = some e ∧ e.u = true) :
    ∃ k', copyout k d va buf = .ok (true, k') :=
  copyoutLoop_ok k hend le_rfl hpages

theorem copyLoop_ok (L : Layout) (src : PageDir) {i : Nat} {d : PageDir}
    (hi : i % PGSIZE = 0) (hsz : sz ≤ KERNBASE) (hfuel : sz ≤ i + n * PGSIZE)
    (habsent : ∀ x < KERNBASE, i ≤ x → d.entry x = none) (hfree : 2 * n ≤ k.freelist.length) :
    ∃ d' k', copyLoop L src sz n k d i = .ok (some d', k') ∧
      k.freelist.length ≤ k'.freelist.length + 2 * n := by
  induction n generalizing k d i with
  | zero =>
    unfold copyLoop
    rw [if_neg (by omega)]
    exact ⟨d, k, rfl, by omega⟩
  | succ n ih =>
    unfold copyLoop
    by_cases hlt : i < sz
    · rw [if_pos hlt, walkpgdir_lookup]
      have hnext : u32 (i + PGSIZE) = i + PGSIZE := u32_next (by omega)
      have hskip : ∃ d' k', copyLoop L src sz n k d (i + PGSIZE) = .ok (some d', k') ∧
          k.freelist.length ≤ k'.freelist.length + 2 * (n + 1) := by
        obtain ⟨d', k', hloop, hlen⟩ := ih (k := k) (d := d) (i := i + PGSIZE)
          (by simp only [PGSIZE] at *; omega) (by simp only [PGSIZE] at *; omega)
          (fun x hx hge => habsent x hx (by omega)) (by omega)
        exact ⟨d', k', hloop, by omega⟩
      rw [hnext]
      rcases src.pde (PDX i) with _ | t
      · exact hskip
      simp only [Option.map_some]
      rcases t.pte (PTX i) with _ | e
      · exact hskip
      obtain ⟨mem, k1, halloc, hlen1⟩ := kalloc_ok (k := k) (by omega)
      have hone := d.missing_le_one i
      have hcopy : (k1.copyPage mem e.addr).freelist.length = k1.freelist.length := rfl
      have hi32 : i < 2 ^ 32 := by
        simp only [KERNBASE] at *
        omega
      obtain ⟨d1, k2, hmap, hlen2⟩ := mappages_page_ok e.w e.u (k := k1.copyPage mem e.addr)
        (d := d) i mem hi hi32 (habsent i (by omega) le_rfl) (by omega)
      have hentry := (mappages_page hmap hi hi32).2.2
      obtain ⟨d', k', hloop, hlen⟩ := ih (k := k2) (d := d1) (i := i + PGSIZE)
        (by simp only [PGSIZE] at *; omega) (by simp only [PGSIZE] at *; omega)
        (by
          intro x hx hge
          rw [hentry x (by simp only [KERNBASE] at hx; omega), if_neg]
          · exact habsent x hx (by omega)
          · simp only [PGSIZE, true_and] at *
            omega) (by omega)
      refine ⟨d', k', ?_, by omega⟩
      simp only [halloc, hmap]
      exact hloop
    · rw [if_neg hlt]
      exact ⟨d, k, rfl, by omega⟩

theorem copyuvm_ok (L : Layout) (src : PageDir) (hsz : sz ≤ KERNBASE)
    (hfree : 67 + 2 * pagesBetween 0 sz ≤ k.freelist.length) :
    ∃ d k', copyuvm L k src sz = .ok (some d, k') ∧
      k.freelist.length ≤ k'.freelist.length + (67 + 2 * pagesBetween 0 sz) := by
  obtain ⟨d0, k0, hsetup, hlen⟩ := setupkvm_ok L (k := k) (by omega)
  obtain ⟨_, huser, _⟩ := (setupkvm_spec hsetup).2 d0 rfl
  obtain ⟨d, k', hloop, hlen'⟩ := copyLoop_ok L src (n := pagesBetween 0 sz) (k := k0) (d := d0)
    (i := 0) rfl hsz (by simp only [pagesBetween, PGSIZE]; omega) (fun x hx _ => huser x hx) (by omega)
  exact ⟨d, k', bind_eq_ok.mpr ⟨_, hsetup, hloop⟩, by omega⟩

theorem copyLoop_total (src : PageDir) {i : Nat} {d : PageDir}
    (hok : ∀ f ∈ d.pages + k.free, L.PageOk f) (hi : i % PGSIZE = 0) (hsz : sz ≤ KERNBASE)
    (hfuel : sz ≤ i + n * PGSIZE) (habsent : ∀ x < KERNBASE, i ≤ x → d.entry x = none) :
    ∃ r k', copyLoop L src sz n k d i = .ok (r, k') := by
  induction n generalizing k d i with
  | zero =>
    unfold copyLoop
    rw [if_neg (by omega)]
    exact ⟨some d, k, rfl⟩
  | succ n ih =>
    unfold copyLoop
    by_cases hlt : i < sz
    · have hnext : u32 (i + PGSIZE) = i + PGSIZE := u32_next (by omega)
      have hrest {k1 : Kmem} {d1 : PageDir} (hok1 : ∀ f ∈ d1.pages + k1.free, L.PageOk f)
          (hsame : ∀ x < KERNBASE, i + PGSIZE ≤ x → d1.entry x = d.entry x) :
          ∃ r k', copyLoop L src sz n k1 d1 (i + PGSIZE) = .ok (r, k') := by
        refine ih hok1 (by simp only [PGSIZE] at *; omega) (by simp only [PGSIZE] at *; omega) ?_
        intro x hx hge
        rw [hsame x hx hge]
        exact habsent x hx (by omega)
      have hskip := hrest hok fun _ _ _ => rfl
      rw [if_pos hlt, walkpgdir_lookup, hnext]
      rcases src.pde (PDX i) with _ | t
      · exact hskip
      simp only [Option.map_some]
      rcases t.pte (PTX i) with _ | e
      · exact hskip
      cases halloc : kalloc k with
      | none =>
        obtain ⟨k1, hfree⟩ := freevm_ok (d := d)
          (fun f hf => hok f (mem_add.mpr (Or.inl hf))) k
        exact ⟨none, k1, bind_eq_ok.mpr ⟨k1, hfree, rfl⟩⟩
      | some res =>
        obtain ⟨mem, k1⟩ := res
        have hi32 : i < 2 ^ 32 := lt_32_of_user (hlt.trans_le hsz)
        obtain ⟨b, d1, k2, hmap⟩ := mappages_page_total e.w e.u (k1.copyPage mem e.addr)
          (d := d) i mem hi hi32 (habsent i (by omega) le_rfl)
        obtain ⟨_, _, _, hpages, _, hentry⟩ := allocPage halloc
          (k1.copyPage_free mem e.addr) (k1.copyPage_mem mem e.addr) hmap hi (by omega)
        rw [← hpages] at hok
        simp only [hmap, ok_bind]
        cases b with
        | true =>
          simp only [if_true, add_zero, true_and] at hok hentry ⊢
          refine hrest hok fun x hx hge => ?_
          rw [hentry x (lt_32_of_user hx), if_neg]
          simp only [PGSIZE] at *
          omega
        | false =>
          simp only [Bool.false_eq_true, if_false] at hok ⊢
          obtain ⟨k3, hkfree⟩ := kfree_of_pageOk (hok mem (by simp)) k2
          obtain ⟨k4, hfree⟩ := freevm_ok (d := d1) (fun f hf => hok f (by simp [hf])) k3
          exact ⟨none, k4, bind_eq_ok.mpr ⟨k3, hkfree, bind_eq_ok.mpr ⟨k4, hfree, rfl⟩⟩⟩
    · rw [if_neg hlt]
      exact ⟨some d, k, rfl⟩

theorem copyuvm_total (src : PageDir) (hok : ∀ f ∈ k.free, L.PageOk f) (hsz : sz ≤ KERNBASE) :
    ∃ r k', copyuvm L k src sz = .ok (r, k') := by
  obtain ⟨d0, k0, hsetup⟩ := setupkvm_total hok
  unfold copyuvm
  rw [hsetup, ok_bind]
  cases d0 with
  | none => exact ⟨none, k0, rfl⟩
  | some d0 =>
    obtain ⟨hpages, huser, _⟩ := (setupkvm_spec hsetup).2 d0 rfl
    rw [← hpages] at hok
    exact copyLoop_total src hok rfl hsz (by simp only [pagesBetween, PGSIZE]; omega)
      fun x hx _ => huser x hx

end Xv6.Vm

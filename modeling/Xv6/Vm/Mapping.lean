import Xv6.Lib.Except
import Xv6.Vm.Frames

/-!
What `walkpgdir`, `mappages`, `deallocuvm` and `allocuvm` do to a directory
and the allocator, one lemma for each outcome. Each says which entries change
and that no page is lost: what the directory and the free list hold together
stays the same.
-/

namespace Xv6.Vm

open Finset Lib Multiset PageDir

/-- What mapping pages keeps: tables come from the free list, and pages that
are not free keep their contents; a page of zeros stays one. -/
structure Mapped (k : Kmem) (d : PageDir) (k' : Kmem) (d' : PageDir) : Prop where
  frame : d'.frame = d.frame
  tables : d'.tableFrames + k'.free = d.tableFrames + k.free
  free_le : k'.free ≤ k.free
  mem : ∀ f, f ∉ k.free → k'.mem f = k.mem f
  zeroed : ∀ f, (∀ i, k.mem f i = 0) → ∀ i, k'.mem f i = 0

theorem Mapped.refl (k : Kmem) (d : PageDir) : Mapped k d k d :=
  ⟨rfl, rfl, le_rfl, fun _ _ => rfl, fun _ h => h⟩

variable {k k' : Kmem} {d d' : PageDir} {a n pa va newsz oldsz r : Nat} {b u w : Bool} {L : Layout}

theorem Mapped.trans {k'' : Kmem} {d'' : PageDir} (h : Mapped k d k' d')
    (h' : Mapped k' d' k'' d'') : Mapped k d k'' d'' where
  frame := h'.frame.trans h.frame
  tables := h'.tables.trans h.tables
  free_le := h'.free_le.trans h.free_le
  mem f hf := (h'.mem f fun hmem => hf (mem_of_le h.free_le hmem)).trans (h.mem f hf)
  zeroed f hf := h'.zeroed f (h.zeroed f hf)

theorem Mapped.setPte (k : Kmem) (d : PageDir) (a : Nat) (e : Option Pte) :
    Mapped k d k (d.setPte a e) where
  frame := d.setPte_frame a e
  tables := by rw [tableFrames_congr (d.tableFrame_setPte a e)]
  free_le := le_rfl
  mem _ _ := rfl
  zeroed _ h := h

theorem walkpgdir_alloc {e : Option Pte} (h : walkpgdir k d a true = some (e, d', k')) :
    e = d.entry a ∧ (∀ x, d'.entry x = d.entry x) ∧ (d'.pde (PDX a)).isSome ∧ Mapped k d k' d' := by
  unfold walkpgdir at h
  split at h
  · next t ht =>
    cases h
    exact ⟨by simp [PageDir.entry, ht], fun _ => rfl, by simp [ht], Mapped.refl _ _⟩
  · next hnone =>
    rw [if_pos rfl] at h
    split at h
    · cases h
    · next r k1 halloc =>
      cases h
      obtain ⟨hfree, hmem⟩ := kalloc_some halloc
      refine ⟨by simp [PageDir.entry, hnone], ?_, by simp [PageDir.setPde], ?_⟩
      · intro x
        by_cases hx : PDX x = PDX a
        · simp [PageDir.entry, PageDir.setPde, hx, hnone]
        · simp [PageDir.entry, PageDir.setPde, hx]
      · refine ⟨rfl, ?_, ?_, ?_, ?_⟩
        · have hsum := sum_add_of_eq_off (f := fun i => tableFrame (d.pde i))
            (g := fun i => tableFrame ((d.setPde (PDX a) ⟨r, fun _ => none⟩).pde i))
            (mem_range.mpr (PDX_lt a)) (by
              intro j _ hj
              simp [PageDir.setPde, hj])
          simp only [hnone, tableFrame_none, add_zero] at hsum
          unfold PageDir.tableFrames
          rw [hsum, Kmem.zero_free, hfree, add_assoc]
          simp [PageDir.setPde]
        · rw [Kmem.zero_free, hfree]
          exact Multiset.le_add_left _ _
        · intro f hf
          have hne : f ≠ r := by
            rintro rfl
            exact hf (by rw [hfree]; simp)
          simp [Kmem.zero, hne, hmem]
        · intro f hf i
          exact k1.zero_zeroed r (by rw [hmem]; exact hf) i

theorem walkpgdir_lookup (k : Kmem) (d : PageDir) (a : Nat) :
    walkpgdir k d a false = (d.pde (PDX a)).map fun t => (t.pte (PTX a), d, k) := by
  unfold walkpgdir
  cases d.pde (PDX a) <;> rfl

theorem mappagesLoop_page (h : mappagesLoop w u n k d a pa = .ok (b, d', k')) (ha : a % PGSIZE = 0)
    (hlt : a < 2 ^ 32) :
    (b = false ∧ d' = d ∧ k' = k) ∨ d.entry a = none ∧ ∃ k1 d1, Mapped k d k1 d1 ∧
      (∀ x < 2 ^ 32, d1.entry x = if a ≤ x ∧ x < a + PGSIZE then some ⟨pa, w, u⟩ else d.entry x) ∧
      ((n = 0 ∧ b = true ∧ d' = d1 ∧ k' = k1) ∨ ∃ m, n = m + 1 ∧
          mappagesLoop w u m k1 d1 (u32 (a + PGSIZE)) (u32 (pa + PGSIZE)) = .ok (b, d', k')) := by
  unfold mappagesLoop at h
  split at h
  · cases h
    exact .inl ⟨rfl, rfl, rfl⟩
  · cases h
  · next d0 k1 hwalk =>
    obtain ⟨hentry, hsame, htable, hmapped⟩ := walkpgdir_alloc hwalk
    refine .inr ⟨hentry.symm, k1, d0.setPte a (some ⟨pa, w, u⟩),
      hmapped.trans (Mapped.setPte _ _ _ _), ?_, ?_⟩
    · intro x hx
      rw [entry_setPte _ _ hlt hx htable, hsame]
      congr 1
      simp only [PGSIZE, eq_iff_iff] at *
      omega
    · cases n with
      | zero =>
        cases h
        exact .inl ⟨rfl, rfl, rfl, rfl⟩
      | succ m => exact .inr ⟨m, rfl, h⟩

theorem mappagesLoop_spec (h : mappagesLoop w u n k d a pa = .ok (b, d', k')) (ha : a % PGSIZE = 0)
    (hend : a + n * PGSIZE < 2 ^ 32) (hpa : pa + n * PGSIZE < 2 ^ 32) :
    Mapped k d k' d' ∧ ∃ m, (b = true → m = n + 1) ∧ (b = false → m ≤ n) ∧
      (∀ x, a ≤ x → x < a + m * PGSIZE → d.entry x = none) ∧
      ∀ x < 2 ^ 32, d'.entry x = if a ≤ x ∧ x < a + m * PGSIZE
        then some ⟨pa + (PGROUNDDOWN x - a), w, u⟩ else d.entry x := by
  have hpage (x : Nat) (hlo : a ≤ x) (hhi : x < a + PGSIZE) : d.entry x = d.entry a := by
    apply entry_congr <;> simp only [PGSIZE] at * <;> omega
  induction n generalizing k d a pa with
  | zero =>
    obtain ⟨rfl, rfl, rfl⟩ | ⟨hnone, k1, d1, hmapped, hentry, ⟨_, rfl, rfl, rfl⟩ | ⟨m, hm, _⟩⟩ :=
      mappagesLoop_page h ha (by omega)
    · exact ⟨Mapped.refl _ _, 0, by simp, by simp, by omega, by intros; rw [if_neg (by omega)]⟩
    · refine ⟨hmapped, 1, by simp, by simp, ?_, ?_⟩
      · intro x hlo hhi
        rw [hpage x hlo (by omega), hnone]
      · intro x hx
        rw [hentry x hx, one_mul]
        split
        · next hin =>
          have hzero : PGROUNDDOWN x - a = 0 := by
            simp only [PGROUNDDOWN, PGSIZE] at *
            omega
          rw [hzero, add_zero]
        · rfl
    · cases hm
  | succ n ih =>
    obtain ⟨rfl, rfl, rfl⟩ | ⟨hnone, k1, d1, hmapped, hentry, ⟨hn, _⟩ | ⟨m, hm, hrest⟩⟩ :=
      mappagesLoop_page h ha (by omega)
    · exact ⟨Mapped.refl _ _, 0, by simp, by simp, by omega, by intros; rw [if_neg (by omega)]⟩
    · cases hn
    · cases hm
      have hnext : u32 (a + PGSIZE) = a + PGSIZE := by
        simp only [u32, PGSIZE] at *
        omega
      have hnextpa : u32 (pa + PGSIZE) = pa + PGSIZE := by
        simp only [u32, PGSIZE] at *
        omega
      rw [hnext, hnextpa] at hrest
      obtain ⟨hmapped', m, htrue, hfalse, hold, hnew⟩ := ih hrest
        (by simp only [PGSIZE] at *; omega) (by simp only [PGSIZE] at *; omega)
        (by simp only [PGSIZE] at *; omega) (by
          intro x hlo hhi
          apply entry_congr <;> simp only [PGSIZE] at * <;> omega)
      have hle : m ≤ n + 1 := by
        cases b
        · exact (hfalse rfl).trans (Nat.le_succ n)
        · exact (htrue rfl).le
      refine ⟨hmapped.trans hmapped', m + 1, fun hb => by rw [htrue hb],
        fun hb => Nat.succ_le_succ (hfalse hb), ?_, ?_⟩
      · intro x hlo hhi
        by_cases hin : x < a + PGSIZE
        · rw [hpage x hlo hin, hnone]
        · have hx := hold x (by omega) (by simp only [PGSIZE] at *; omega)
          rw [hentry x (by simp only [PGSIZE] at *; omega), if_neg (by omega)] at hx
          exact hx
      · intro x hx
        rw [hnew x hx, hentry x hx]
        by_cases hin : a ≤ x ∧ x < a + PGSIZE
        · have hzero : PGROUNDDOWN x - a = 0 := by
            simp only [PGROUNDDOWN, PGSIZE] at *
            omega
          rw [if_neg (by omega), if_pos hin, if_pos (by simp only [PGSIZE] at *; omega), hzero,
            add_zero]
        · rw [if_neg hin]
          by_cases hlater : a + PGSIZE ≤ x ∧ x < a + PGSIZE + m * PGSIZE
          · have hsame : pa + PGSIZE + (PGROUNDDOWN x - (a + PGSIZE)) =
                pa + (PGROUNDDOWN x - a) := by
              simp only [PGROUNDDOWN, PGSIZE] at *
              omega
            rw [if_pos hlater, if_pos (by simp only [PGSIZE] at *; omega), hsame]
          · rw [if_neg hlater, if_neg (by simp only [PGSIZE] at *; omega)]

theorem mappages_eq {size : Nat}
    (hva : va % PGSIZE = 0) (hsize : size % PGSIZE = 0) (hpos : 0 < size)
    (hend : va + size ≤ 2 ^ 32) :
    mappages k d va size pa w u = mappagesLoop w u (size / PGSIZE - 1) k d va pa := by
  have hdown : PGROUNDDOWN va = va := by
    simp only [PGROUNDDOWN, PGSIZE] at *
    omega
  have hcount : sub32 (PGROUNDDOWN (sub32 (u32 (va + size)) 1)) va / PGSIZE =
      size / PGSIZE - 1 := by
    simp only [PGROUNDDOWN, sub32, u32, PGSIZE] at *
    omega
  simp only [mappages, hdown, hcount]

theorem mappages_one (hva : va % PGSIZE = 0) (hlt : va < 2 ^ 32) :
    mappages k d va PGSIZE pa w u = mappagesLoop w u 0 k d va pa :=
  mappages_eq hva (Nat.mod_self _) (by decide) (by simp only [PGSIZE] at *; omega)

theorem mappages_page (h : mappages k d va PGSIZE pa w u = .ok (b, d', k')) (hva : va % PGSIZE = 0)
    (hlt : va < 2 ^ 32) :
    Mapped k d k' d' ∧ (b = true → d.entry va = none) ∧
      ∀ x < 2 ^ 32, d'.entry x = if b = true ∧ x / PGSIZE = va / PGSIZE
        then some ⟨pa, w, u⟩ else d.entry x := by
  rw [mappages_one hva hlt] at h
  obtain ⟨rfl, rfl, rfl⟩ | ⟨hnone, k1, d1, hmapped, hentry, ⟨_, rfl, rfl, rfl⟩ | ⟨m, hm, _⟩⟩ :=
    mappagesLoop_page h hva hlt
  · exact ⟨Mapped.refl _ _, by simp, by simp⟩
  · refine ⟨hmapped, fun _ => hnone, ?_⟩
    intro x hx
    rw [hentry x hx]
    congr 1
    simp only [PGSIZE, eq_iff_iff, true_and] at *
    omega
  · cases hm

theorem mappages_pages (h : mappages k d va PGSIZE pa w u = .ok (b, d', k')) (hva : va % PGSIZE = 0)
    (hlt : va < KERNBASE) :
    d'.pages + k'.free = d.pages + k.free + if b then {pa} else 0 := by
  have hlt32 : va < 2 ^ 32 := by
    simp only [KERNBASE] at hlt
    omega
  obtain ⟨hmapped, hnone, hentry⟩ := mappages_page h hva hlt32
  have huser : d'.userFrames = d.userFrames + if b then {pa} else 0 := by
    have hpoint := userFrames_point d d' hlt (by
      intro x hx hne
      rw [hentry x (by simp only [KERNBASE] at hx; omega), if_neg fun h => hne h.2])
    rw [hentry va hlt32] at hpoint
    cases b with
    | false =>
      simp only [Bool.false_eq_true, false_and, if_false, add_zero] at hpoint ⊢
      exact add_right_cancel hpoint
    | true => simpa [hnone rfl] using hpoint
  have htables := hmapped.tables
  unfold PageDir.pages
  rw [hmapped.frame, huser]
  calc {d.frame} + d'.tableFrames + (d.userFrames + if b = true then {pa} else 0) + k'.free
      = {d.frame} + (d'.tableFrames + k'.free) + d.userFrames + (if b = true then {pa} else 0) := by
        abel
    _ = {d.frame} + d.tableFrames + d.userFrames + k.free + (if b = true then {pa} else 0) := by
        rw [htables]
        abel

/-- What unmapping the pages in `gone` does. -/
structure Unmapped (k : Kmem) (d : PageDir) (k' : Kmem) (d' : PageDir) (gone : Nat → Prop) :
    Prop where
  frame : d'.frame = d.frame
  tables : ∀ i, tableFrame (d'.pde i) = tableFrame (d.pde i)
  absent : ∀ x < 2 ^ 32, gone x → d'.entry x = none
  kept : ∀ x < 2 ^ 32, ¬ gone x → d'.entry x = d.entry x
  user : d'.userFrames + k'.free = d.userFrames + k.free
  free_le : k.free ≤ k'.free
  mem : ∀ f, f ∉ k'.free → k'.mem f = k.mem f

theorem Unmapped.pages {gone : Nat → Prop}
    (h : Unmapped k d k' d' gone) : d'.pages + k'.free = d.pages + k.free := by
  unfold PageDir.pages
  rw [h.frame, tableFrames_congr h.tables, add_assoc, h.user]
  abel

theorem Unmapped.userFrames_sub {gone : Nat → Prop}
    (h : Unmapped k d k' d' gone) {f : Nat} (hf : f ∈ d'.userFrames) : f ∈ d.userFrames := by
  obtain ⟨x, hx, e, he, rfl⟩ := mem_userFrames.mp hf
  have hx32 : x < 2 ^ 32 := by
    simp only [KERNBASE] at hx
    omega
  by_cases hgone : gone x
  · rw [h.absent x hx32 hgone] at he
    cases he
  · rw [h.kept x hx32 hgone] at he
    exact mem_userFrames.mpr ⟨x, hx, e, he, rfl⟩

theorem Unmapped.confined {gone : Nat → Prop}
    (h : Unmapped k d k' d' gone) : Confined (d.pages + k.free) k k' := by
  intro f hf
  apply h.mem f
  intro hmem
  rw [← h.pages] at hf
  exact hf (Multiset.mem_add.mpr (Or.inr hmem))

theorem Unmapped.nothing (k : Kmem) (d : PageDir) {gone : Nat → Prop}
    (h : ∀ x < 2 ^ 32, gone x → d.entry x = none) : Unmapped k d k d gone where
  frame := rfl
  tables _ := rfl
  absent := h
  kept _ _ _ := rfl
  user := rfl
  free_le := le_rfl
  mem _ _ := rfl

theorem Unmapped.trans {k1 : Kmem} {d1 : PageDir} {gone1 gone2 gone : Nat → Prop}
    (h : Unmapped k d k1 d1 gone1) (h' : Unmapped k1 d1 k' d' gone2)
    (hgone : ∀ x < 2 ^ 32, gone x → gone1 x ∨ gone2 x)
    (hkept : ∀ x < 2 ^ 32, ¬ gone x → ¬ gone2 x ∧ (¬ gone1 x ∨ d.entry x = Option.none)) :
    Unmapped k d k' d' gone where
  frame := h'.frame.trans h.frame
  tables i := (h'.tables i).trans (h.tables i)
  absent x hx hin := by
    by_cases hlater : gone2 x
    · exact h'.absent x hx hlater
    · rw [h'.kept x hx hlater]
      exact h.absent x hx ((hgone x hx hin).resolve_right hlater)
  kept x hx hout := by
    obtain ⟨hlater, hfirst⟩ := hkept x hx hout
    rw [h'.kept x hx hlater]
    by_cases hin : gone1 x
    · rw [h.absent x hx hin, hfirst.resolve_left fun hnot => hnot hin]
    · exact h.kept x hx hin
  user := h'.user.trans h.user
  free_le := h.free_le.trans h'.free_le
  mem f hf := (h'.mem f hf).trans (h.mem f fun hmem => hf (mem_of_le h'.free_le hmem))

theorem Unmapped.page {e : Pte}
    (hentry : d.entry a = some e) (hfree : kfree L k e.addr = .ok k') (ha : a < KERNBASE) :
    Unmapped k d k' (d.setPte a none) fun x => x / PGSIZE = a / PGSIZE := by
  obtain ⟨_, hpages, hmem⟩ := kfree_ok hfree
  have ha32 : a < 2 ^ 32 := by
    simp only [KERNBASE] at ha
    omega
  have htable : (d.pde (PDX a)).isSome := by
    unfold PageDir.entry at hentry
    cases ht : d.pde (PDX a) with
    | none =>
      rw [ht] at hentry
      cases hentry
    | some t => rfl
  have hset (x : Nat) (hx : x < 2 ^ 32) := d.entry_setPte none ha32 hx htable
  refine ⟨d.setPte_frame a none, d.tableFrame_setPte a none, ?_, ?_, ?_, ?_, ?_⟩
  · intro x hx hin
    rw [hset x hx, if_pos hin]
  · intro x hx hout
    rw [hset x hx, if_neg hout]
  · have hpoint := d.userFrames_point (d.setPte a none) ha (by
      intro x hx hne
      rw [hset x (by simp only [KERNBASE] at hx; omega), if_neg hne])
    rw [hset a ha32, if_pos rfl, hentry, pteFrame_none, add_zero, pteFrame_some] at hpoint
    rw [hpages, ← hpoint]
    abel
  · rw [hpages]
    exact Multiset.le_add_left _ _
  · intro f hf
    have hne : f ≠ e.addr := by
      rintro rfl
      exact hf (by simp [hpages])
    rw [hmem, Function.update_of_ne hne]

theorem Unmapped.done (k : Kmem) (d : PageDir) (ha : a % PGSIZE = 0)
    (hstop : ¬ a < oldsz) : Unmapped k d k d fun x => a ≤ x ∧ PGROUNDDOWN x < oldsz := by
  apply Unmapped.nothing
  intro x _ hx
  simp only [PGROUNDDOWN, PGSIZE] at *
  omega

theorem deallocLoop_spec (h : deallocLoop L oldsz n k d a = .ok (d', k')) (ha : a % PGSIZE = 0)
    (hold : oldsz ≤ KERNBASE) : Unmapped k d k' d' fun x => a ≤ x ∧ PGROUNDDOWN x < oldsz := by
  induction n generalizing k d a with
  | zero =>
    unfold deallocLoop at h
    split at h
    · cases h
    · next hstop =>
      cases h
      exact Unmapped.done _ _ ha hstop
  | succ n ih =>
    unfold deallocLoop at h
    split at h
    · next hlt =>
      have hnext : u32 (a + PGSIZE) = a + PGSIZE := u32_next (by omega)
      have hrest {k1 : Kmem} {d1 : PageDir}
          (h1 : deallocLoop L oldsz n k1 d1 (u32 (a + PGSIZE)) = .ok (d', k')) :
          Unmapped k1 d1 k' d' fun x => a + PGSIZE ≤ x ∧ PGROUNDDOWN x < oldsz := by
        rw [hnext] at h1
        exact ih h1 (by simp only [PGSIZE] at *; omega)
      have hpage {k1 : Kmem} {d1 : PageDir}
          (h1 : Unmapped k d k1 d1 fun x => x / PGSIZE = a / PGSIZE)
          (h2 : deallocLoop L oldsz n k1 d1 (u32 (a + PGSIZE)) = .ok (d', k')) :
          Unmapped k d k' d' fun x => a ≤ x ∧ PGROUNDDOWN x < oldsz := by
        refine h1.trans (hrest h2) ?_ ?_
        all_goals
          intro x _ hx
          simp only [PGROUNDDOWN, PGSIZE] at *
          omega
      rw [walkpgdir_lookup] at h
      cases ht : d.pde (PDX a) with
      | none =>
        rw [ht] at h
        simp only [Option.map_none] at h
        have hskip : u32 (sub32 (PGADDR (PDX a + 1) 0 0) PGSIZE + PGSIZE) =
            (a / 2 ^ 22 + 1) * 2 ^ 22 := by
          simp only [u32, sub32, PGADDR, PDX, PGSIZE, KERNBASE] at *
          omega
        rw [hskip] at h
        have hgap : Unmapped k d k d fun x => a ≤ x ∧ x < (a / 2 ^ 22 + 1) * 2 ^ 22 := by
          apply Unmapped.nothing
          intro x _ hx
          have hpdx : PDX x = PDX a := by
            simp only [PDX, KERNBASE] at *
            omega
          simp [PageDir.entry, hpdx, ht]
        refine hgap.trans (ih h (by simp only [PGSIZE]; omega)) ?_ ?_
        · intro x _ hx
          omega
        · intro x hx hout
          by_cases hin : a ≤ x ∧ x < (a / 2 ^ 22 + 1) * 2 ^ 22
          · exact ⟨by omega, .inr (hgap.absent x hx hin)⟩
          · exact ⟨by omega, .inl hin⟩
      | some t =>
        rw [ht] at h
        simp only [Option.map_some] at h
        have hentry : d.entry a = t.pte (PTX a) := by simp [PageDir.entry, ht]
        cases he : t.pte (PTX a) with
        | none =>
          rw [he] at h hentry
          refine hpage (Unmapped.nothing _ _ ?_) h
          intro x hx hin
          rw [d.entry_congr hx (by simp only [KERNBASE] at hold; omega) hin, hentry]
        | some e =>
          rw [he] at h hentry
          simp only at h
          split at h
          · cases h
          · obtain ⟨k1, hfree, h⟩ := bind_eq_ok.mp h
            exact hpage (Unmapped.page hentry hfree (by omega)) h
    · next hstop =>
      cases h
      exact Unmapped.done _ _ ha hstop

theorem deallocuvm_spec (h : deallocuvm L k d oldsz newsz = .ok (r, d', k'))
    (hold : oldsz ≤ KERNBASE) :
    r = min oldsz newsz ∧
      Unmapped k d k' d' fun x => newsz < oldsz ∧ PGROUNDUP newsz ≤ x ∧ PGROUNDDOWN x < oldsz := by
  unfold deallocuvm at h
  split at h
  · next hge =>
    cases h
    exact ⟨(min_eq_left hge).symm, Unmapped.nothing _ _ fun x _ hin => by omega⟩
  · next hlt =>
    obtain ⟨⟨d1, k1⟩, hloop, h⟩ := bind_eq_ok.mp h
    cases h
    have hunmapped := deallocLoop_spec hloop (Nat.mul_mod_left _ _) hold
    refine ⟨(min_eq_right (Nat.le_of_not_le hlt)).symm, ?_⟩
    simpa only [Nat.lt_of_not_le hlt, true_and] using hunmapped

theorem deallocLoop_ok (k : Kmem)
    (hok : ∀ f ∈ d.userFrames, L.PageOk f) (ha : a % PGSIZE = 0) (hold : oldsz ≤ KERNBASE)
    (hn : pagesBetween a oldsz ≤ n) : ∃ d' k', deallocLoop L oldsz n k d a = .ok (d', k') := by
  have hpos (f : Nat) (hf : L.PageOk f) : f ≠ 0 := by
    have htext := L.text_nonempty
    have hdata := L.data_le_end
    have hend := hf.2.1
    simp only [P2V, u32, KERNLINK, EXTMEM, KERNBASE] at *
    omega
  induction n generalizing k d a with
  | zero =>
    unfold deallocLoop
    rw [if_neg]
    · exact ⟨d, k, rfl⟩
    · simp only [pagesBetween, PGSIZE] at hn
      omega
  | succ n ih =>
    unfold deallocLoop
    split
    · next hlt =>
      have hnext : u32 (a + PGSIZE) = a + PGSIZE := u32_next (by omega)
      have hrest (k1 : Kmem) {d1 : PageDir} (hok1 : ∀ f ∈ d1.userFrames, L.PageOk f) :
          ∃ d' k', deallocLoop L oldsz n k1 d1 (u32 (a + PGSIZE)) = .ok (d', k') := by
        rw [hnext]
        refine ih k1 hok1 ?_ ?_
        all_goals
          simp only [pagesBetween, PGSIZE] at *
          omega
      rw [walkpgdir_lookup]
      cases ht : d.pde (PDX a) with
      | none =>
        simp only [Option.map_none]
        refine ih k hok ?_ ?_
        all_goals
          simp only [u32, sub32, PGADDR, PDX, pagesBetween, PGSIZE, KERNBASE] at *
          omega
      | some t =>
        simp only [Option.map_some]
        have hentry : d.entry a = t.pte (PTX a) := by simp [PageDir.entry, ht]
        cases he : t.pte (PTX a) with
        | none => exact hrest k hok
        | some e =>
          rw [he] at hentry
          have hframe : L.PageOk e.addr :=
            hok _ (mem_userFrames.mpr ⟨a, by omega, e, hentry, rfl⟩)
          obtain ⟨k1, hfree⟩ := kfree_of_pageOk hframe k
          simp only [if_neg (hpos _ hframe)]
          have hunmapped := Unmapped.page hentry hfree (by omega)
          obtain ⟨d', k', hloop⟩ := hrest k1 fun f hf => hok f (hunmapped.userFrames_sub hf)
          exact ⟨d', k', bind_eq_ok.mpr ⟨k1, hfree, hloop⟩⟩
    · exact ⟨d, k, rfl⟩

theorem deallocuvm_ok (k : Kmem) (newsz : Nat)
    (hok : ∀ f ∈ d.userFrames, L.PageOk f) (hold : oldsz ≤ KERNBASE) :
    ∃ r d' k', deallocuvm L k d oldsz newsz = .ok (r, d', k') := by
  unfold deallocuvm
  split
  · exact ⟨_, _, _, rfl⟩
  · obtain ⟨d', k', hloop⟩ := deallocLoop_ok (a := PGROUNDUP newsz) k hok
      (Nat.mul_mod_left _ _) hold le_rfl
    exact ⟨newsz, d', k', bind_eq_ok.mpr ⟨(d', k'), hloop, rfl⟩⟩

/-- What mapping fresh pages of zeros at `[lo, hi)` does. -/
structure Grown (k : Kmem) (d : PageDir) (k' : Kmem) (d' : PageDir) (lo hi : Nat) : Prop where
  frame : d'.frame = d.frame
  pages : d'.pages + k'.free = d.pages + k.free
  absent : ∀ x < 2 ^ 32, lo ≤ x → PGROUNDDOWN x < hi → d.entry x = none
  fresh : ∀ x < 2 ^ 32, lo ≤ x → PGROUNDDOWN x < hi →
    ∃ f, d'.entry x = some ⟨f, true, true⟩ ∧ ∀ i, k'.mem f i = 0
  kept : ∀ x < 2 ^ 32, ¬ (lo ≤ x ∧ PGROUNDDOWN x < hi) → d'.entry x = d.entry x
  free_le : k'.free ≤ k.free
  mem : ∀ f, f ∉ k.free → k'.mem f = k.mem f
  zeroed : ∀ f, (∀ i, k.mem f i = 0) → ∀ i, k'.mem f i = 0

/-- What a failed `allocuvm` does: no page of `[lo, hi)` stays mapped. -/
structure AllocFailed (d : PageDir) (k : Kmem) (d' : PageDir) (k' : Kmem) (lo hi : Nat) : Prop where
  frame : d'.frame = d.frame
  pages : d'.pages + k'.free = d.pages + k.free
  kept : ∀ x < 2 ^ 32, ¬ (lo ≤ x ∧ PGROUNDDOWN x < hi) → d'.entry x = d.entry x

theorem allocPage {k1 k2 : Kmem} {mem : Nat}
    (halloc : kalloc k = some (mem, k1)) (hfill : k2.free = k1.free)
    (hfillmem : ∀ f ≠ mem, k2.mem f = k1.mem f)
    (hmap : mappages k2 d a PGSIZE mem w u = .ok (b, d', k'))
    (ha : a % PGSIZE = 0) (hlt : a < KERNBASE) :
    d'.frame = d.frame ∧ k'.free ≤ k.free ∧ (∀ f, f ∉ k.free → k'.mem f = k.mem f) ∧
      d'.pages + k'.free + (if b then 0 else {mem}) = d.pages + k.free ∧
      (b = true → d.entry a = none) ∧
      ∀ x < 2 ^ 32, d'.entry x = if b = true ∧ x / PGSIZE = a / PGSIZE
        then some ⟨mem, w, u⟩ else d.entry x := by
  obtain ⟨hfree, hmem⟩ := kalloc_some halloc
  obtain ⟨hmapped, hnone, hentry⟩ := mappages_page hmap ha (by simp only [KERNBASE] at hlt; omega)
  have hpages := mappages_pages hmap ha hlt
  refine ⟨hmapped.frame, hmapped.free_le.trans ?_, ?_, ?_, hnone, hentry⟩
  · rw [hfill, hfree]
    exact Multiset.le_add_left _ _
  · intro f hf
    rw [hfree, Multiset.mem_add, Multiset.mem_singleton, not_or] at hf
    rw [hmapped.mem f (by rw [hfill]; exact hf.2), hfillmem f hf.1, hmem]
  · rw [hpages, hfill, hfree]
    cases b
    · simp only [Bool.false_eq_true, if_false]
      abel
    · simp only [if_true]
      abel

theorem allocLoop_spec (h : allocLoop L oldsz newsz n k d a = .ok (r, d', k')) (ha : a % PGSIZE = 0)
    (hnew : newsz < KERNBASE) (hold : oldsz ≤ newsz) (hn : n = pagesBetween a newsz)
    (hlo : PGROUNDUP oldsz ≤ a) :
    (r = newsz ∧ Grown k d k' d' a newsz) ∨
      (r = 0 ∧ AllocFailed d k d' k' (PGROUNDUP oldsz) newsz) := by
  induction n generalizing k d a with
  | zero =>
    cases h
    have hge : newsz ≤ a := by
      simp only [pagesBetween, PGSIZE] at hn
      omega
    have hout (x : Nat) (hx : a ≤ x) : ¬ PGROUNDDOWN x < newsz := by
      simp only [PGROUNDDOWN, PGSIZE] at *
      omega
    exact .inl ⟨rfl, rfl, rfl, fun x _ hx hin => (hout x hx hin).elim,
      fun x _ hx hin => (hout x hx hin).elim, fun _ _ _ => rfl, le_rfl, fun _ _ => rfl,
      fun _ hf => hf⟩
  | succ n ih =>
    have hlt : a < newsz := by
      simp only [pagesBetween, PGSIZE] at hn
      omega
    unfold allocLoop at h
    split at h
    · obtain ⟨⟨r1, d1, k1⟩, hdealloc, h⟩ := bind_eq_ok.mp h
      cases h
      have hunmapped := (deallocuvm_spec hdealloc hnew.le).2
      refine .inr ⟨rfl, hunmapped.frame, hunmapped.pages, ?_⟩
      intro x hx hout
      exact hunmapped.kept x hx fun hin => hout hin.2
    · next mem k1 halloc =>
      obtain ⟨⟨b, d1, k2⟩, hmap, h⟩ := bind_eq_ok.mp h
      obtain ⟨hframe, hfree, hmem, hpages, hnone, hentry⟩ :=
        allocPage halloc (k1.zero_free mem) (k1.zero_mem mem) hmap ha (hlt.trans hnew)
      have hzeroed := (mappages_page hmap ha (by simp only [KERNBASE] at hnew; omega)).1.zeroed
      cases b with
      | true =>
        simp only [if_true] at h
        have hnext : u32 (a + PGSIZE) = a + PGSIZE := u32_next (by omega)
        rw [hnext] at h
        simp only [if_true, add_zero] at hpages
        have hsame (x : Nat) (hx : x < 2 ^ 32) (hne : x / PGSIZE ≠ a / PGSIZE) :
            d1.entry x = d.entry x := by
          rw [hentry x hx, if_neg fun hin => hne hin.2]
        have hout (x : Nat) (hin : x / PGSIZE = a / PGSIZE) :
            a ≤ x ∧ PGROUNDDOWN x < newsz ∧ ¬ a + PGSIZE ≤ x := by
          simp only [PGROUNDDOWN, PGSIZE] at *
          omega
        have hlater (x : Nat) (hx : a ≤ x) (hne : x / PGSIZE ≠ a / PGSIZE) : a + PGSIZE ≤ x := by
          simp only [PGSIZE] at *
          omega
        obtain ⟨rfl, hgrown⟩ | ⟨rfl, hfailed⟩ := ih h
          (by simp only [PGSIZE] at *; omega)
          (by simp only [pagesBetween, PGSIZE] at *; omega) (by omega)
        · refine .inl ⟨rfl, hgrown.frame.trans hframe, hgrown.pages.trans hpages, ?_, ?_, ?_,
            hgrown.free_le.trans hfree, ?_, ?_⟩
          · intro x hx hge hin
            by_cases hpage : x / PGSIZE = a / PGSIZE
            · rw [d.entry_congr hx (by simp only [KERNBASE] at hnew; omega) hpage, hnone rfl]
            · rw [← hsame x hx hpage]
              exact hgrown.absent x hx (hlater x hge hpage) hin
          · intro x hx hge hin
            by_cases hpage : x / PGSIZE = a / PGSIZE
            · refine ⟨mem, ?_, hgrown.zeroed mem (hzeroed mem (k1.zero_same mem))⟩
              rw [hgrown.kept x hx fun hin => (hout x hpage).2.2 hin.1, hentry x hx,
                if_pos ⟨rfl, hpage⟩]
            · exact hgrown.fresh x hx (hlater x hge hpage) hin
          · intro x hx hnot
            have hpage : x / PGSIZE ≠ a / PGSIZE := fun hin =>
              hnot ⟨(hout x hin).1, (hout x hin).2.1⟩
            rw [hgrown.kept x hx fun hin => hnot ⟨by omega, hin.2⟩, hsame x hx hpage]
          · intro f hf
            rw [hgrown.mem f fun hmem => hf (mem_of_le hfree hmem), hmem f hf]
          · intro f hf
            have hk1 := (kalloc_some halloc).2
            exact hgrown.zeroed f (hzeroed f (k1.zero_zeroed mem (by rw [hk1]; exact hf)))
        · refine .inr ⟨rfl, hfailed.frame.trans hframe, hfailed.pages.trans hpages, ?_⟩
          intro x hx hnot
          have hpage : x / PGSIZE ≠ a / PGSIZE := fun hin =>
            hnot ⟨hlo.trans (hout x hin).1, (hout x hin).2.1⟩
          rw [hfailed.kept x hx hnot, hsame x hx hpage]
      | false =>
        simp only [Bool.false_eq_true, if_false] at h
        obtain ⟨⟨r1, d2, k3⟩, hdealloc, h⟩ := bind_eq_ok.mp h
        obtain ⟨k4, hkfree, h⟩ := bind_eq_ok.mp h
        cases h
        have hunmapped := (deallocuvm_spec hdealloc hnew.le).2
        have hkpages := (kfree_ok hkfree).2.1
        refine .inr ⟨rfl, hunmapped.frame.trans hframe, ?_, ?_⟩
        · rw [hkpages, ← hpages, ← hunmapped.pages]
          simp only [Bool.false_eq_true, if_false]
          abel
        · intro x hx hout
          rw [hunmapped.kept x hx fun hin => hout hin.2, hentry x hx]
          simp

theorem allocLoop_confined (h : allocLoop L oldsz newsz n k d a = .ok (r, d', k'))
    (ha : a % PGSIZE = 0)
    (hend : a + n * PGSIZE ≤ KERNBASE) (hnew : newsz ≤ KERNBASE) :
    Confined (d.pages + k.free) k k' := by
  induction n generalizing k d a with
  | zero =>
    cases h
    exact Confined.refl _ _
  | succ n ih =>
    have hlt : a < KERNBASE := by
      simp only [PGSIZE] at hend
      omega
    have hown : k.free ⊆ d.pages + k.free := Multiset.subset_of_le (Multiset.le_add_left _ _)
    unfold allocLoop at h
    split at h
    · obtain ⟨⟨r1, d1, k1⟩, hdealloc, h⟩ := bind_eq_ok.mp h
      cases h
      exact (deallocuvm_spec hdealloc hnew).2.confined
    · next mem k1 halloc =>
      obtain ⟨⟨b, d1, k2⟩, hmap, h⟩ := bind_eq_ok.mp h
      obtain ⟨_, _, hmem, hpages, _⟩ :=
        allocPage halloc (k1.zero_free mem) (k1.zero_mem mem) hmap ha hlt
      have hfirst : Confined (d.pages + k.free) k k2 := Confined.mono hmem hown
      cases b with
      | true =>
        have hnext : u32 (a + PGSIZE) = a + PGSIZE := u32_next (by omega)
        simp only [if_true, hnext] at h
        simp only [if_true, add_zero] at hpages
        have hrest := ih h (by simp only [PGSIZE] at *; omega)
          (by simp only [PGSIZE] at *; omega)
        rw [hpages] at hrest
        exact hfirst.trans hrest
      | false =>
        simp only [Bool.false_eq_true, if_false] at h hpages
        obtain ⟨⟨r1, d2, k3⟩, hdealloc, h⟩ := bind_eq_ok.mp h
        obtain ⟨k4, hkfree, h⟩ := bind_eq_ok.mp h
        cases h
        have hdealloc' := (deallocuvm_spec hdealloc hnew).2.confined
        rw [← hpages] at hfirst ⊢
        refine hfirst.trans ((hdealloc'.mono ?_).trans (Confined.kfree hkfree (by simp)))
        exact Multiset.subset_of_le (Multiset.le_add_right _ _)

theorem allocuvm_confined (h : allocuvm L k d oldsz newsz = .ok (r, d', k')) : Confined
    (d.pages + k.free) k k' := by
  unfold allocuvm at h
  split at h
  · cases h
    exact Confined.refl _ _
  split at h
  · cases h
    exact Confined.refl _ _
  · refine allocLoop_confined h (Nat.mul_mod_left _ _) ?_ (by omega)
    simp only [pagesBetween, PGROUNDUP, u32, PGSIZE, KERNBASE] at *
    omega

theorem allocuvm_spec (h : allocuvm L k d oldsz newsz = .ok (r, d', k')) :
    (r = 0 ∧ d' = d ∧ k' = k ∧ KERNBASE ≤ newsz) ∨
      (r = oldsz ∧ d' = d ∧ k' = k ∧ newsz < oldsz ∧ newsz < KERNBASE) ∨
      (r = newsz ∧ oldsz ≤ newsz ∧ newsz < KERNBASE ∧ Grown k d k' d' (PGROUNDUP oldsz) newsz) ∨
      (r = 0 ∧ oldsz ≤ newsz ∧ newsz < KERNBASE ∧
        AllocFailed d k d' k' (PGROUNDUP oldsz) newsz) := by
  unfold allocuvm at h
  split at h
  · next hbig =>
    cases h
    exact .inl ⟨rfl, rfl, rfl, hbig⟩
  · next hbig =>
    have hnew : newsz < KERNBASE := Nat.lt_of_not_le hbig
    split at h
    · next hlt =>
      cases h
      exact .inr (Or.inl ⟨rfl, rfl, rfl, hlt, hnew⟩)
    · next hle =>
      have hold : oldsz ≤ newsz := Nat.le_of_not_lt hle
      rcases allocLoop_spec h (Nat.mul_mod_left _ _) hnew hold rfl le_rfl with hgrown | hfailed
      · exact .inr (Or.inr (Or.inl ⟨hgrown.1, hold, hnew, hgrown.2⟩))
      · exact .inr (Or.inr (Or.inr ⟨hfailed.1, hold, hnew, hfailed.2⟩))

end Xv6.Vm

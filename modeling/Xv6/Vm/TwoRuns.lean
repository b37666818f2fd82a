import Xv6.Vm.AddressSpace

/-!
`copyuvm` in two kernels. What it does depends on the free list and the pages
of the source, not on the rest of physical memory: from equal free lists it
builds the same address space, and the contents of the copied pages agree
where those of the source do.
-/

namespace Xv6.Vm

open Lib

/-- Equal free lists, and the pages of a set have equal contents. -/
structure Alike (P : Nat → Prop) (k1 k2 : Kmem) : Prop where
  freelist : k1.freelist = k2.freelist
  mem : ∀ f, P f → k1.mem f = k2.mem f

namespace Alike

variable {P : Nat → Prop} {k1 k2 k1' : Kmem}

theorem kalloc {r : Nat} (h : Alike P k1 k2) (hok : Vm.kalloc k1 = some (r, k1')) :
    ∃ k2', Vm.kalloc k2 = some (r, k2') ∧ Alike P k1' k2' := by
  unfold Vm.kalloc at hok ⊢
  rw [← h.freelist]
  split at hok
  · cases hok
  · cases hok
    exact ⟨_, rfl, rfl, h.mem⟩

theorem update (h : Alike P k1 k2) (f : Nat) {a b : Page} (hab : a = b) :
    Alike (fun g => g = f ∨ P g) { k1 with mem := Function.update k1.mem f a }
      { k2 with mem := Function.update k2.mem f b } := by
  refine ⟨h.freelist, fun g hg => ?_⟩
  rcases eq_or_ne g f with rfl | hne
  · simpa using hab
  · simp only [Function.update_of_ne hne]
    exact h.mem g (hg.resolve_left hne)

theorem mono {Q : Nat → Prop} (h : Alike P k1 k2) (hQ : ∀ f, Q f → P f) : Alike Q k1 k2 :=
  ⟨h.freelist, fun f hf => h.mem f (hQ f hf)⟩

theorem zero (h : Alike P k1 k2) (pa : Nat) : Alike P (k1.zero pa) (k2.zero pa) :=
  (h.update pa rfl).mono fun _ hf => .inr hf

theorem copyPage (h : Alike P k1 k2) (dst : Nat) {src : Nat} (hsrc : P src) :
    Alike (fun f => f = dst ∨ P f) (k1.copyPage dst src) (k2.copyPage dst src) :=
  h.update dst (h.mem src hsrc)

theorem walkpgdir {d d' : PageDir} {a : Nat} {alloc : Bool} {e : Option Pte}
    (h : Alike P k1 k2) (hok : Vm.walkpgdir k1 d a alloc = some (e, d', k1')) :
    ∃ k2', Vm.walkpgdir k2 d a alloc = some (e, d', k2') ∧ Alike P k1' k2' := by
  unfold Vm.walkpgdir at hok ⊢
  split at hok
  · cases hok
    exact ⟨k2, rfl, h⟩
  · split at hok
    · next halloc =>
      rw [if_pos halloc]
      split at hok
      · cases hok
      · next r k hk =>
        obtain ⟨k', hk', hkk⟩ := h.kalloc hk
        cases hok
        exact ⟨k'.zero r, by rw [hk'], hkk.zero r⟩
    · cases hok

theorem mappagesLoop {w u : Bool} {n : Nat} {d d' : PageDir} {a pa : Nat} (h : Alike P k1 k2)
    (hok : Vm.mappagesLoop w u n k1 d a pa = .ok (true, d', k1')) :
    ∃ k2', Vm.mappagesLoop w u n k2 d a pa = .ok (true, d', k2') ∧ Alike P k1' k2' := by
  induction n generalizing k1 k2 d a pa with
  | zero =>
    unfold Vm.mappagesLoop at hok ⊢
    split at hok
    · cases hok
    · cases hok
    · next d1 k hwalk =>
      obtain ⟨k', hwalk', hkk⟩ := h.walkpgdir hwalk
      cases hok
      exact ⟨k', by rw [hwalk'], hkk⟩
  | succ n ih =>
    unfold Vm.mappagesLoop at hok ⊢
    split at hok
    · cases hok
    · cases hok
    · next d1 k hwalk =>
      obtain ⟨k', hwalk', hkk⟩ := h.walkpgdir hwalk
      obtain ⟨k2', hloop, hend⟩ := ih hkk hok
      exact ⟨k2', by rw [hwalk']; exact hloop, hend⟩

theorem mappages {w u : Bool} {d d' : PageDir} {va size pa : Nat} (h : Alike P k1 k2)
    (hok : Vm.mappages k1 d va size pa w u = .ok (true, d', k1')) :
    ∃ k2', Vm.mappages k2 d va size pa w u = .ok (true, d', k2') ∧ Alike P k1' k2' :=
  h.mappagesLoop hok

theorem setupLoop {L : Layout} {ms : List Kmap} {d d' : PageDir} (h : Alike P k1 k2)
    (hok : Vm.setupLoop L ms k1 d = .ok (some d', k1')) :
    ∃ k2', Vm.setupLoop L ms k2 d = .ok (some d', k2') ∧ Alike P k1' k2' := by
  induction ms generalizing k1 k2 d with
  | nil =>
    cases hok
    exact ⟨k2, rfl, h⟩
  | cons m rest ih =>
    unfold Vm.setupLoop at hok ⊢
    obtain ⟨⟨b, d1, k⟩, hmap, hok⟩ := bind_eq_ok.mp hok
    cases b with
    | false =>
      obtain ⟨_, _, hok⟩ := bind_eq_ok.mp hok
      cases hok
    | true =>
      obtain ⟨k', hmap', hkk⟩ := h.mappages hmap
      obtain ⟨k2', hloop, hend⟩ := ih hkk hok
      exact ⟨k2', bind_eq_ok.mpr ⟨_, hmap', hloop⟩, hend⟩

theorem setupkvm {L : Layout} {d : PageDir} (h : Alike P k1 k2)
    (hok : Vm.setupkvm L k1 = .ok (some d, k1')) :
    ∃ k2', Vm.setupkvm L k2 = .ok (some d, k2') ∧ Alike P k1' k2' := by
  unfold Vm.setupkvm at hok ⊢
  split at hok
  · cases hok
  · next pgdir k hk =>
    obtain ⟨k', hk', hkk⟩ := h.kalloc hk
    rw [hk']
    exact (hkk.zero pgdir).setupLoop hok

end Alike

/-- The pages that the user half below `sz` maps are in the set. -/
def PageDir.UserIn (d : PageDir) (sz : Nat) (P : Nat → Prop) : Prop :=
  ∀ x < KERNBASE, x < sz → ∀ e, d.entry x = some e → P e.addr

theorem Alike.copyLoop {P : Nat → Prop} {L : Layout} {src d d' : PageDir} {sz n i : Nat}
    {k1 k2 k1' : Kmem} (h : Alike P k1 k2) (hsrc : src.UserIn sz P) (hd : d.UserIn KERNBASE P)
    (hi : i % PGSIZE = 0) (hsz : sz ≤ KERNBASE)
    (hok : Vm.copyLoop L src sz n k1 d i = .ok (some d', k1')) :
    ∃ k2' Q, Vm.copyLoop L src sz n k2 d i = .ok (some d', k2') ∧ Alike Q k1' k2' ∧
      d'.UserIn KERNBASE Q := by
  induction n generalizing P k1 k2 d i with
  | zero =>
    unfold Vm.copyLoop at hok ⊢
    split at hok
    · cases hok
    · next hstop =>
      rw [if_neg hstop]
      cases hok
      exact ⟨k2, P, rfl, h, hd⟩
  | succ n ih =>
    unfold Vm.copyLoop at hok ⊢
    by_cases hlt : i < sz
    · have hi' : u32 (i + PGSIZE) % PGSIZE = 0 := by
        simp only [u32, PGSIZE] at *
        omega
      have hi32 : i < 2 ^ 32 := by
        simp only [KERNBASE] at hsz
        omega
      rw [if_pos hlt, walkpgdir_lookup] at hok ⊢
      cases ht : src.pde (PDX i) with
      | none =>
        rw [ht] at hok
        exact ih h hsrc hd hi' hok
      | some t =>
        rw [ht] at hok
        simp only [Option.map_some] at hok ⊢
        cases hpte : t.pte (PTX i) with
        | none =>
          rw [hpte] at hok
          exact ih h hsrc hd hi' hok
        | some e =>
          rw [hpte] at hok
          have he : src.entry i = some e := by simp [PageDir.entry, ht, hpte]
          simp only at hok ⊢
          split at hok
          · obtain ⟨_, _, hok⟩ := bind_eq_ok.mp hok
            cases hok
          · next mem k hk =>
            obtain ⟨k', hk', hkk⟩ := h.kalloc hk
            rw [hk']
            obtain ⟨⟨b, d1, k3⟩, hmap, hok⟩ := bind_eq_ok.mp hok
            have hcopied := hkk.copyPage mem (hsrc i (hlt.trans_le hsz) hlt e he)
            cases b with
            | false =>
              obtain ⟨_, _, hok⟩ := bind_eq_ok.mp hok
              obtain ⟨_, _, hok⟩ := bind_eq_ok.mp hok
              cases hok
            | true =>
              obtain ⟨k3', hmap', hkk3⟩ := hcopied.mappages hmap
              have hentry := (mappages_page hmap hi hi32).2.2
              have hd1 : d1.UserIn KERNBASE fun f => f = mem ∨ P f := by
                intro x hx _ e' he'
                rw [hentry x (lt_32_of_user hx)] at he'
                split at he'
                · cases he'
                  exact .inl rfl
                · exact .inr (hd x hx hx e' he')
              obtain ⟨k2', Q, hloop, hend⟩ := ih hkk3
                (fun x hx hxs e' he' => .inr (hsrc x hx hxs e' he')) hd1 hi' hok
              exact ⟨k2', Q, bind_eq_ok.mpr ⟨_, hmap', hloop⟩, hend⟩
    · rw [if_neg hlt] at hok ⊢
      cases hok
      exact ⟨k2, P, rfl, h, hd⟩

theorem Alike.copyuvm {P : Nat → Prop} {L : Layout} {src d : PageDir} {sz : Nat}
    {k1 k2 k1' : Kmem} (h : Alike P k1 k2) (hsrc : src.UserIn sz P) (hsz : sz ≤ KERNBASE)
    (hok : Vm.copyuvm L k1 src sz = .ok (some d, k1')) :
    ∃ k2' Q, Vm.copyuvm L k2 src sz = .ok (some d, k2') ∧ Alike Q k1' k2' ∧
      d.UserIn KERNBASE Q := by
  obtain ⟨⟨d0, k⟩, hsetup, hok⟩ := bind_eq_ok.mp hok
  cases d0 with
  | none => cases hok
  | some d0 =>
    obtain ⟨k', hsetup', hkk⟩ := h.setupkvm hsetup
    have huser := ((setupkvm_spec hsetup).2 d0 rfl).2.1
    have hd0 : d0.UserIn KERNBASE P := fun x hx _ e he => by
      rw [huser x hx] at he
      cases he
    obtain ⟨k2', Q, hloop, hend⟩ := hkk.copyLoop hsrc hd0 rfl hsz hok
    exact ⟨k2', Q, bind_eq_ok.mpr ⟨_, hsetup', hloop⟩, hend⟩

end Xv6.Vm

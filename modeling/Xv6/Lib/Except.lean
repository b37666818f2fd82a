import Mathlib.Init

/-!
Programs that can fail. A sequence succeeds when its parts do, and what each
step of a loop keeps is kept by the loop.
-/

namespace Xv6.Lib

universe u

variable {ε : Type*} {α β : Type u}

theorem ok_bind (a : α) (f : α → Except ε β) : (Except.ok a >>= f) = f a := rfl

theorem bind_eq_ok {x : Except ε α} {f : α → Except ε β} {b : β} :
    (x >>= f) = .ok b ↔ ∃ a, x = .ok a ∧ f a = .ok b := by
  cases x with
  | error e => simp [bind, Except.bind]
  | ok a => simp [bind, Except.bind]

/-- The rule for loops over a list: an invariant indexed by what is still to do. -/
theorem foldlM_ok {γ : Type*} {f : α → γ → Except ε α} (Inv : List γ → α → Prop)
    (hstep : ∀ c rest a b, Inv (c :: rest) a → f a c = .ok b → Inv rest b) {l : List γ} {a b : α}
    (hinit : Inv l a) (h : l.foldlM f a = .ok b) : Inv [] b := by
  induction l generalizing a with
  | nil =>
    cases h
    exact hinit
  | cons c rest ih =>
    rw [List.foldlM_cons] at h
    obtain ⟨a', ha', hrest⟩ := bind_eq_ok.mp h
    exact ih (hstep c rest a a' hinit ha') hrest

theorem bind_total {x : Except ε α} {f : α → Except ε β} (hx : ∃ a, x = .ok a)
    (hf : ∀ a, ∃ b, f a = .ok b) : ∃ b, (x >>= f) = .ok b := by
  obtain ⟨a, ha⟩ := hx
  obtain ⟨b, hb⟩ := hf a
  exact ⟨b, bind_eq_ok.mpr ⟨a, ha, hb⟩⟩

theorem foldlM_total {γ : Type*} {f : α → γ → Except ε α} {l : List γ}
    (hstep : ∀ c ∈ l, ∀ a, ∃ b, f a c = .ok b) (a : α) : ∃ b, l.foldlM f a = .ok b := by
  induction l generalizing a with
  | nil => exact ⟨a, rfl⟩
  | cons c rest ih =>
    rw [List.foldlM_cons]
    exact bind_total (hstep c (by simp) a) (ih fun d hd => hstep d (List.mem_cons_of_mem c hd))

/-- A loop over the numbers below `n` whose body does not fail. -/
theorem foldlM_range {f : α → Nat → Except ε α} (Inv : Nat → α → Prop) {n : Nat} {a : α}
    (hinit : Inv 0 a) (hstep : ∀ i < n, ∀ a, Inv i a → ∃ b, f a i = .ok b ∧ Inv (i + 1) b) :
    ∃ b, (List.range n).foldlM f a = .ok b ∧ Inv n b := by
  induction n with
  | zero => exact ⟨a, rfl, hinit⟩
  | succ n ih =>
    obtain ⟨b, hb, hinv⟩ := ih fun i hi => hstep i (Nat.lt_succ_of_lt hi)
    obtain ⟨c, hc, hinv'⟩ := hstep n (Nat.lt_succ_self n) b hinv
    refine ⟨c, ?_, hinv'⟩
    rw [List.range_succ, List.foldlM_append, hb, ok_bind, List.foldlM_cons, hc, ok_bind]
    rfl

/-- Where `x` fails, the error satisfies `P`. -/
def Errs (P : ε → Prop) (x : Except ε α) : Prop := ∀ e, x = .error e → P e

section

variable {P : ε → Prop}

@[simp] theorem errs_ok (a : α) : Errs P (.ok a) := fun _ h => nomatch h

@[simp] theorem errs_pure (a : α) : Errs P (pure a) := errs_ok a

@[simp] theorem errs_error {e : ε} : Errs P (.error e : Except ε α) ↔ P e :=
  ⟨fun h => h e rfl, fun h _ he => Except.error.inj he ▸ h⟩

theorem Errs.bind {x : Except ε α} {f : α → Except ε β} (hx : Errs P x)
    (hf : ∀ a, x = .ok a → Errs P (f a)) : Errs P (x >>= f) := by
  cases x with
  | error e => exact fun _ he => hx _ (Except.error.inj he ▸ rfl)
  | ok a => exact hf a rfl

/-- The rule for loops with errors: an invariant indexed by what is still to do
excludes some of them, and holds at the end. -/
theorem foldlM_spec {γ : Type*} {f : α → γ → Except ε α} (Inv : List γ → α → Prop)
    (hstep : ∀ c rest a, Inv (c :: rest) a → Errs P (f a c) ∧ ∀ b, f a c = .ok b → Inv rest b)
    {l : List γ} {a : α} (hinit : Inv l a) :
    Errs P (l.foldlM f a) ∧ ∀ b, l.foldlM f a = .ok b → Inv [] b := by
  refine ⟨?_, fun b => foldlM_ok Inv (fun c rest a b ha => (hstep c rest a ha).2 b) hinit⟩
  induction l generalizing a with
  | nil => exact errs_ok a
  | cons c rest ih =>
    rw [List.foldlM_cons]
    obtain ⟨herrs, hnext⟩ := hstep c rest a hinit
    exact herrs.bind fun b hb => ih (hnext b hb)

end

/-- `x` succeeds when `C` holds, and its result then satisfies `Q`, as it does whenever
`x` succeeds. -/
structure Succeeds (C : Prop) (Q : α → Prop) (x : Except ε α) : Prop where
  total : C → ∃ a, x = .ok a
  sound : ∀ a, x = .ok a → Q a

section

variable {C D : Prop} {P : α → Prop} {Q : β → Prop}

theorem succeeds_ok {a : α} (h : P a) : Succeeds (ε := ε) C P (.ok a) where
  total _ := ⟨a, rfl⟩
  sound _ hb := Except.ok.inj hb ▸ h

theorem succeeds_error {e : ε} (h : ¬ C) : Succeeds C P (.error e) where
  total hc := absurd hc h
  sound _ hb := nomatch hb

theorem Succeeds.weaken {x : Except ε α} {P' : α → Prop} (h : Succeeds C P x) (hc : D → C)
    (hp : ∀ a, P a → P' a) : Succeeds D P' x :=
  ⟨fun hd => h.total (hc hd), fun a ha => hp a (h.sound a ha)⟩

theorem Succeeds.bind {x : Except ε α} {f : α → Except ε β} (hx : Succeeds C P x)
    (hc : D → C) (hf : ∀ a, P a → Succeeds D Q (f a)) : Succeeds D Q (x >>= f) where
  total hd := by
    obtain ⟨a, ha⟩ := hx.total (hc hd)
    obtain ⟨b, hb⟩ := (hf a (hx.sound a ha)).total hd
    exact ⟨b, bind_eq_ok.mpr ⟨a, ha, hb⟩⟩
  sound b hb := by
    obtain ⟨a, ha, hab⟩ := bind_eq_ok.mp hb
    exact (hf a (hx.sound a ha)).sound b hab

end

/-- Where `x` fails the error satisfies `P`, and where it succeeds the result
satisfies `Q`. -/
structure Yields (P : ε → Prop) (Q : α → Prop) (x : Except ε α) : Prop where
  errs : Errs P x
  sound : ∀ a, x = .ok a → Q a

section

variable {P : ε → Prop} {Q : α → Prop} {R : β → Prop}

theorem yields_ok {a : α} (h : Q a) : Yields P Q (.ok a) :=
  ⟨errs_ok a, fun _ hb => Except.ok.inj hb ▸ h⟩

theorem yields_error {e : ε} (h : P e) : Yields P Q (.error e) :=
  ⟨errs_error.mpr h, fun _ hb => nomatch hb⟩

theorem Yields.weaken {x : Except ε α} {Q' : α → Prop} (h : Yields P Q x)
    (hq : ∀ a, Q a → Q' a) : Yields P Q' x :=
  ⟨h.errs, fun a ha => hq a (h.sound a ha)⟩

theorem Yields.imp {x : Except ε α} {P' : ε → Prop} {Q' : α → Prop} (h : Yields P Q x)
    (hp : ∀ e, P e → P' e) (hq : ∀ a, Q a → Q' a) : Yields P' Q' x :=
  ⟨fun e he => hp e (h.errs e he), fun a ha => hq a (h.sound a ha)⟩

theorem Yields.bind {x : Except ε α} {f : α → Except ε β} (hx : Yields P Q x)
    (hf : ∀ a, Q a → Yields P R (f a)) : Yields P R (x >>= f) where
  errs := hx.errs.bind fun a ha => (hf a (hx.sound a ha)).errs
  sound b hb := by
    obtain ⟨a, ha, hab⟩ := bind_eq_ok.mp hb
    exact (hf a (hx.sound a ha)).sound b hab

end

end Xv6.Lib

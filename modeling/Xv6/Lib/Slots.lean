import Mathlib.Data.List.Basic

/-!
A finite map in a row of slots. A slot holds a key with its value, or nothing. A new key
goes to the first slot with nothing in it, or to a new one behind the last; a key that is
erased leaves its slot empty. The map is right as long as no key is in two slots.
-/

namespace Xv6.Lib.Slots

open Function

variable {κ ν : Type*}

/-- The value of a key with its slot, the first slot having number `j`. -/
def findFrom [DecidableEq κ] (k : κ) : Nat → List (Option (κ × ν)) → Option (ν × Nat)
  | _, [] => none
  | j, none :: l => findFrom k (j + 1) l
  | j, some e :: l => if e.1 = k then some (e.2, j) else findFrom k (j + 1) l

def find [DecidableEq κ] (l : List (Option (κ × ν))) (k : κ) : Option (ν × Nat) := findFrom k 0 l

def binding [DecidableEq κ] (l : List (Option (κ × ν))) (k : κ) : Option ν := (find l k).map (·.1)

/-- The first slot with nothing in it, or the one behind the last. -/
def holeFrom : Nat → List (Option (κ × ν)) → Nat
  | j, [] => j
  | j, none :: _ => j
  | j, some _ :: l => holeFrom (j + 1) l

def hole (l : List (Option (κ × ν))) : Nat := holeFrom 0 l

def put (l : List (Option (κ × ν))) (j : Nat) (e : κ × ν) : List (Option (κ × ν)) :=
  if j < l.length then l.set j (some e) else l ++ [some e]

def erase (l : List (Option (κ × ν))) (j : Nat) : List (Option (κ × ν)) := l.set j none

def Unique (l : List (Option (κ × ν))) : Prop :=
  ∀ (i j : Nat) (k : κ) (v v' : ν), l[i]? = some (some (k, v)) → l[j]? = some (some (k, v')) → i = j

variable {l : List (Option (κ × ν))} {k : κ} {v : ν} {i j : Nat}

theorem holeFrom_spec (j : Nat) (l : List (Option (κ × ν))) :
    j ≤ holeFrom j l ∧ holeFrom j l ≤ j + l.length ∧
      (holeFrom j l < j + l.length → l[holeFrom j l - j]? = some none) := by
  induction l generalizing j with
  | nil => exact ⟨Nat.le_refl _, Nat.le_refl _, fun h => absurd h (Nat.lt_irrefl _)⟩
  | cons e l ih =>
    cases e with
    | none =>
      refine ⟨Nat.le_refl _, Nat.le_add_right _ _, fun _ => ?_⟩
      change (none :: l)[j - j]? = _
      rw [Nat.sub_self]
      rfl
    | some e =>
      obtain ⟨hge, hle, hget⟩ := ih (j + 1)
      rw [List.length_cons]
      refine ⟨Nat.le_trans (Nat.le_succ j) hge, ?_, fun hlt => ?_⟩
      · change holeFrom (j + 1) l ≤ _
        omega
      · change holeFrom (j + 1) l < _ at hlt
        change (some e :: l)[holeFrom (j + 1) l - j]? = _
        rw [show holeFrom (j + 1) l - j = (holeFrom (j + 1) l - (j + 1)) + 1 by omega,
          List.getElem?_cons_succ]
        exact hget (by omega)

theorem hole_le (l : List (Option (κ × ν))) : hole l ≤ l.length := by
  have h := (holeFrom_spec 0 l).2.1
  rwa [Nat.zero_add] at h

theorem hole_get (h : hole l < l.length) : l[hole l]? = some none :=
  (holeFrom_spec 0 l).2.2 (by rwa [Nat.zero_add])

theorem holeFrom_lt (h : none ∈ l) (j : Nat) : holeFrom j l < j + l.length := by
  induction l generalizing j with
  | nil => cases h
  | cons e l ih =>
    rw [List.length_cons]
    cases e with
    | none =>
      change j < _
      omega
    | some e =>
      have hmem : none ∈ l := by simpa using h
      have hlt := ih hmem (j + 1)
      change holeFrom (j + 1) l < _
      omega

/-- There is a slot with nothing in it, or the row has to grow. -/
theorem hole_lt_iff : hole l < l.length ↔ none ∈ l := by
  constructor
  · intro h
    exact List.mem_of_getElem? (hole_get h)
  · intro h
    have hlt := holeFrom_lt h 0
    rwa [Nat.zero_add] at hlt

theorem put_get (e : κ × ν) (i : Nat) :
    (put l (hole l) e)[i]? = if i = hole l then some (some e) else l[i]? := by
  have hle := hole_le l
  unfold put
  split
  · next hlt =>
    rw [List.getElem?_set]
    by_cases hi : hole l = i
    · rw [if_pos hi, if_pos hi.symm, if_pos (by omega)]
    · rw [if_neg hi, if_neg (Ne.symm hi)]
  · next hge =>
    have hend : hole l = l.length := by omega
    rw [hend, List.getElem?_append]
    split
    · next hlt => rw [if_neg (by omega)]
    · next hge =>
      by_cases hi : i = l.length
      · rw [if_pos hi, hi, Nat.sub_self]
        rfl
      · rw [if_neg hi, List.getElem?_eq_none (by rw [List.length_singleton]; omega),
          List.getElem?_eq_none (by omega)]

theorem hole_not_key (h : l[hole l]? = some (some (k, v))) : False := by
  have hlt : hole l < l.length := (List.getElem?_eq_some_iff.mp h).1
  rw [hole_get hlt] at h
  cases h

theorem erase_get {e : κ × ν} :
    (erase l i)[j]? = some (some e) ↔ i ≠ j ∧ l[j]? = some (some e) := by
  unfold erase
  rw [List.getElem?_set]
  split
  · next hij =>
    refine iff_of_false ?_ fun h => h.1 hij
    split <;> exact nofun
  · next hij => exact (and_iff_right hij).symm

theorem unique_erase (hu : Unique l) (i : Nat) : Unique (erase l i) := by
  intro j j' k v v' hj hj'
  exact hu j j' k v v' (erase_get.mp hj).2 (erase_get.mp hj').2

section

variable [DecidableEq κ]

theorem findFrom_some (h : findFrom k j l = some (v, i)) :
    j ≤ i ∧ l[i - j]? = some (some (k, v)) := by
  induction l generalizing j with
  | nil => cases h
  | cons e l ih =>
    cases e with
    | none =>
      obtain ⟨hle, hget⟩ := ih h
      refine ⟨by omega, ?_⟩
      rw [show i - j = (i - (j + 1)) + 1 by omega, List.getElem?_cons_succ]
      exact hget
    | some e =>
      unfold findFrom at h
      split at h
      · next hk =>
        cases h
        refine ⟨Nat.le_refl _, ?_⟩
        rw [Nat.sub_self, List.getElem?_cons_zero, ← hk]
      · obtain ⟨hle, hget⟩ := ih h
        refine ⟨by omega, ?_⟩
        rw [show i - j = (i - (j + 1)) + 1 by omega, List.getElem?_cons_succ]
        exact hget

theorem findFrom_none (h : findFrom k j l = none) (i : Nat) (v : ν) :
    l[i]? ≠ some (some (k, v)) := by
  induction l generalizing i j with
  | nil => simp
  | cons e l ih =>
    intro hget
    cases i with
    | zero =>
      cases hget
      simp [findFrom] at h
    | succ i =>
      rw [List.getElem?_cons_succ] at hget
      cases e with
      | none => exact ih h i hget
      | some e =>
        unfold findFrom at h
        split at h
        · cases h
        · exact ih h i hget

theorem find_some (h : find l k = some (v, i)) : l[i]? = some (some (k, v)) :=
  (findFrom_some h).2

theorem find_eq_some (hu : Unique l) : find l k = some (v, i) ↔ l[i]? = some (some (k, v)) := by
  constructor
  · exact find_some
  · intro hget
    cases hfind : find l k with
    | none => exact absurd hget (findFrom_none hfind i v)
    | some found =>
      obtain ⟨v', i'⟩ := found
      have hget' := find_some hfind
      have hi := hu i i' k v v' hget hget'
      rw [← hi, hget] at hget'
      cases hget'
      rw [hi]

theorem find_eq_none : find l k = none ↔ ∀ (i : Nat) (v : ν), l[i]? ≠ some (some (k, v)) := by
  constructor
  · exact findFrom_none
  · intro hall
    cases hfind : find l k with
    | none => rfl
    | some found => exact absurd (find_some hfind) (hall found.2 found.1)

theorem binding_eq_some (hu : Unique l) :
    binding l k = some v ↔ ∃ i : Nat, l[i]? = some (some (k, v)) := by
  unfold binding
  rw [Option.map_eq_some_iff]
  constructor
  · rintro ⟨⟨v', i⟩, hfind, rfl⟩
    exact ⟨i, find_some hfind⟩
  · rintro ⟨i, hget⟩
    exact ⟨(v, i), (find_eq_some hu).mpr hget, rfl⟩

theorem binding_eq_none : binding l k = none ↔ find l k = none := Option.map_eq_none_iff

theorem unique_put (hu : Unique l) (hnew : find l k = none) (v : ν) :
    Unique (put l (hole l) (k, v)) := by
  have hfree := find_eq_none.mp hnew
  intro i j k' w w' hi hj
  rw [put_get] at hi hj
  split at hi <;> split at hj
  · next hi' hj' => exact hi'.trans hj'.symm
  · cases hi
    exact absurd hj (hfree j w')
  · cases hj
    exact absurd hi (hfree i w)
  · exact hu i j k' w w' hi hj

theorem binding_put (hu : Unique l) (hnew : find l k = none) (v : ν) :
    binding (put l (hole l) (k, v)) = update (binding l) k (some v) := by
  have hu' := unique_put hu hnew v
  funext k'
  by_cases hk : k' = k
  · subst hk
    rw [update_self, binding_eq_some hu']
    exact ⟨hole l, by rw [put_get, if_pos rfl]⟩
  · rw [update_of_ne hk]
    ext w
    rw [binding_eq_some hu', binding_eq_some hu]
    constructor
    · rintro ⟨i, hget⟩
      rw [put_get] at hget
      split at hget
      · cases hget
        exact absurd rfl hk
      · exact ⟨i, hget⟩
    · rintro ⟨i, hget⟩
      refine ⟨i, ?_⟩
      rw [put_get, if_neg]
      · exact hget
      · rintro rfl
        exact hole_not_key hget

theorem binding_erase (hu : Unique l) (hget : l[i]? = some (some (k, v))) :
    binding (erase l i) = update (binding l) k none := by
  have hu' := unique_erase hu i
  funext k'
  ext w
  rw [binding_eq_some hu']
  by_cases hk : k' = k
  · subst hk
    rw [update_self]
    refine iff_of_false ?_ (by simp)
    rintro ⟨j, hj⟩
    obtain ⟨hne, hj⟩ := erase_get.mp hj
    exact hne (hu i j k' v w hget hj)
  · rw [update_of_ne hk, binding_eq_some hu]
    constructor
    · rintro ⟨j, hj⟩
      exact ⟨j, (erase_get.mp hj).2⟩
    · rintro ⟨j, hj⟩
      refine ⟨j, erase_get.mpr ⟨?_, hj⟩⟩
      rintro rfl
      rw [hget] at hj
      cases hj
      exact hk rfl

end

end Xv6.Lib.Slots

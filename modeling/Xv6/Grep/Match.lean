import Mathlib.Computability.Language

/-!
The matcher of `grep`: `match`, `matchhere` and `matchstar`. A string is the list of its
bytes in front of the NUL. What a pattern means is said by a language: a sequence of items,
each a character that may be repeated, between the two anchors.
-/

namespace Xv6.Grep

open List

/-- The loop of `matchstar`, where `here` is `matchhere` for the rest of the pattern. -/
def matchstarLoop (here : List UInt8 → Bool) (c : UInt8) : List UInt8 → Bool
  | [] => here []
  | t :: text => here (t :: text) || ((t = c ∨ c = 46) && matchstarLoop here c text)

/-- The characters with a meaning are `$` (36), `*` (42) and `.` (46). -/
def matchhere : List UInt8 → List UInt8 → Bool
  | [], _ => true
  | [c], text =>
    if c = 36 then text.isEmpty
    else match text with
      | [] => false
      | t :: text => (c = 46 ∨ c = t) && matchhere [] text
  | c :: c' :: re, text =>
    if c' = 42 then matchstarLoop (matchhere re) c text
    else match text with
      | [] => false
      | t :: text => (c = 46 ∨ c = t) && matchhere (c' :: re) text

def matchstar (c : UInt8) (re text : List UInt8) : Bool := matchstarLoop (matchhere re) c text

/-- The loop of `match`, which ends behind the empty string. -/
def matchLoop (re : List UInt8) : List UInt8 → Bool
  | [] => matchhere re []
  | t :: text => matchhere re (t :: text) || matchLoop re text

/-- `match`; 94 is `^`. -/
def match_ (re text : List UInt8) : Bool :=
  if re.head? = some 94 then matchhere re.tail text else matchLoop re text

inductive Item where
  | one (c : UInt8)
  | star (c : UInt8)
  deriving DecidableEq, Repr

/-- Character `c` of a pattern stands for `t`. -/
def StandsFor (c t : UInt8) : Prop := c = 46 ∨ c = t

def Item.language : Item → Language UInt8
  | .one c => {w | ∃ t, StandsFor c t ∧ w = [t]}
  | .star c => KStar.kstar {w | ∃ t, StandsFor c t ∧ w = [t]}

/-- The items of a pattern, and whether it ends with `$`. -/
def items : List UInt8 → List Item × Bool
  | [] => ([], false)
  | [c] => if c = 36 then ([], true) else ([.one c], false)
  | c :: c' :: re =>
    if c' = 42 then (.star c :: (items re).1, (items re).2)
    else (.one c :: (items (c' :: re)).1, (items (c' :: re)).2)

def language (is : List Item) : Language UInt8 := (is.map Item.language).prod

/-- A word of the items begins the text, and is all of it where the end is asked for. -/
def Begins (p : List Item × Bool) (text : List UInt8) : Prop :=
  ∃ w after, text = w ++ after ∧ w ∈ language p.1 ∧ (p.2 = true → after = [])

/-- A word of the pattern is a substring of the text, at its start if the pattern begins with
`^`, at its end if it ends with `$`. -/
def Occurs (re text : List UInt8) : Prop :=
  let body := items (if re.head? = some 94 then re.tail else re)
  ∃ before w after, text = before ++ w ++ after ∧ w ∈ language body.1 ∧
    (re.head? = some 94 → before = []) ∧ (body.2 = true → after = [])

section

variable {c : UInt8} {is : List Item} {w text : List UInt8}

theorem mem_one_cons :
    w ∈ language (.one c :: is) ↔ ∃ t w', w = t :: w' ∧ StandsFor c t ∧ w' ∈ language is := by
  unfold language
  rw [map_cons, prod_cons, Language.mem_mul]
  constructor
  · rintro ⟨a, ⟨t, ht, rfl⟩, w', hw', rfl⟩
    exact ⟨t, w', rfl, ht, hw'⟩
  · rintro ⟨t, w', rfl, ht, hw'⟩
    exact ⟨[t], ⟨t, ht, rfl⟩, w', hw', rfl⟩

theorem mem_star_iff : w ∈ (Item.star c).language ↔ ∀ t ∈ w, StandsFor c t := by
  constructor
  · rintro ⟨ws, rfl, hws⟩ t ht
    obtain ⟨y, hy, hty⟩ := mem_flatten.mp ht
    obtain ⟨t', ht', rfl⟩ := hws y hy
    rwa [mem_singleton.mp hty]
  · intro h
    refine ⟨w.map fun t => [t], ?_, fun y hy => ?_⟩
    · rw [← flatMap_def, flatMap_singleton']
    · obtain ⟨t, ht, rfl⟩ := mem_map.mp hy
      exact ⟨t, h t ht, rfl⟩

theorem mem_star_cons : w ∈ language (.star c :: is) ↔
    ∃ ts w', w = ts ++ w' ∧ (∀ t ∈ ts, StandsFor c t) ∧ w' ∈ language is := by
  unfold language
  rw [map_cons, prod_cons, Language.mem_mul]
  constructor
  · rintro ⟨ts, hts, w', hw', rfl⟩
    exact ⟨ts, w', rfl, mem_star_iff.mp hts, hw'⟩
  · rintro ⟨ts, w', rfl, hts, hw'⟩
    exact ⟨ts, mem_star_iff.mpr hts, w', hw', rfl⟩

theorem begins_nil (text : List UInt8) : Begins ([], false) text :=
  ⟨[], text, rfl, Language.nil_mem_one, nofun⟩

theorem begins_end : Begins ([], true) text ↔ text = [] := by
  constructor
  · rintro ⟨w, after, rfl, hw, hafter⟩
    rw [(Language.mem_one w).mp hw, hafter rfl]
    rfl
  · rintro rfl
    exact ⟨[], [], rfl, Language.nil_mem_one, fun _ => rfl⟩

theorem begins_one {e : Bool} : Begins (.one c :: is, e) text ↔
    ∃ t rest, text = t :: rest ∧ StandsFor c t ∧ Begins (is, e) rest := by
  constructor
  · rintro ⟨w, after, rfl, hw, hafter⟩
    obtain ⟨t, w', rfl, ht, hw'⟩ := mem_one_cons.mp hw
    exact ⟨t, w' ++ after, rfl, ht, w', after, rfl, hw', hafter⟩
  · rintro ⟨t, rest, rfl, ht, w', after, rfl, hw', hafter⟩
    exact ⟨t :: w', after, rfl, mem_one_cons.mpr ⟨t, w', rfl, ht, hw'⟩, hafter⟩

theorem begins_star {e : Bool} : Begins (.star c :: is, e) text ↔
    ∃ ts rest, text = ts ++ rest ∧ (∀ t ∈ ts, StandsFor c t) ∧ Begins (is, e) rest := by
  constructor
  · rintro ⟨w, after, rfl, hw, hafter⟩
    obtain ⟨ts, w', rfl, hts, hw'⟩ := mem_star_cons.mp hw
    exact ⟨ts, w' ++ after, append_assoc _ _ _, hts, w', after, rfl, hw', hafter⟩
  · rintro ⟨ts, rest, rfl, hts, w', after, rfl, hw', hafter⟩
    exact ⟨ts ++ w', after, (append_assoc _ _ _).symm,
      mem_star_cons.mpr ⟨ts, w', rfl, hts, hw'⟩, hafter⟩

end

section

variable {re text : List UInt8}

theorem matchstarLoop_iff {here : List UInt8 → Bool} {c : UInt8} :
    matchstarLoop here c text = true ↔
      ∃ ts rest, text = ts ++ rest ∧ (∀ t ∈ ts, StandsFor c t) ∧ here rest = true := by
  induction text with
  | nil => simp [matchstarLoop]
  | cons t text ih =>
    rw [matchstarLoop, Bool.or_eq_true, Bool.and_eq_true, ih, decide_eq_true_eq]
    constructor
    · rintro (hhere | ⟨ht, ts, rest, rfl, hts, hhere⟩)
      · exact ⟨[], t :: text, rfl, nofun, hhere⟩
      · exact ⟨t :: ts, rest, rfl, forall_mem_cons.mpr ⟨ht.symm.imp id Eq.symm, hts⟩, hhere⟩
    · rintro ⟨_ | ⟨t', ts⟩, rest, heq, hts, hhere⟩
      · rw [heq]
        exact .inl hhere
      · obtain ⟨rfl, rfl⟩ := List.cons.inj heq
        obtain ⟨ht, hts⟩ := forall_mem_cons.mp hts
        exact .inr ⟨ht.symm.imp Eq.symm id, ts, rest, rfl, hts, hhere⟩

theorem matchhere_star (c : UInt8) : matchhere (c :: 42 :: re) text = matchstar c re text := by
  cases text <;> rfl

theorem matchhere_iff : matchhere re text = true ↔ Begins (items re) text := by
  -- by induction on the pattern, in the steps in which it is read
  induction re using items.induct generalizing text with
  | case1 => exact iff_of_true rfl (begins_nil text)
  | case2 =>
    rw [items, if_pos rfl, begins_end]
    cases text <;> simp [matchhere]
  | case3 c hc =>
    rw [items, if_neg hc, begins_one]
    cases text with
    | nil => simp [matchhere, hc]
    | cons t text => simp [matchhere, hc, StandsFor, begins_nil]
  | case4 c re ih =>
    rw [matchhere_star, matchstar, matchstarLoop_iff, items, if_pos rfl, begins_star]
    simp only [ih]
  | case5 c c' re hc ih =>
    rw [items, if_neg hc, begins_one]
    cases text with
    | nil => simp [matchhere, hc]
    | cons t text => simp [matchhere, hc, StandsFor, ih]

theorem matchLoop_iff : matchLoop re text = true ↔
    ∃ before rest, text = before ++ rest ∧ matchhere re rest = true := by
  induction text with
  | nil => simp [matchLoop]
  | cons t text ih =>
    rw [matchLoop, Bool.or_eq_true, ih]
    constructor
    · rintro (hhere | ⟨before, rest, rfl, hhere⟩)
      · exact ⟨[], t :: text, rfl, hhere⟩
      · exact ⟨t :: before, rest, rfl, hhere⟩
    · rintro ⟨_ | ⟨t', before⟩, rest, heq, hhere⟩
      · rw [heq]
        exact .inl hhere
      · obtain ⟨rfl, rfl⟩ := List.cons.inj heq
        exact .inr ⟨before, rest, rfl, hhere⟩

end

/-- `match` says 1 for the texts in which a word of the pattern occurs, and for no others. -/
theorem match_occurs_iff (re text : List UInt8) : match_ re text = true ↔ Occurs re text := by
  unfold match_ Occurs
  split
  · next hstart =>
    rw [matchhere_iff]
    constructor
    · rintro ⟨w, after, htext, hw, hafter⟩
      exact ⟨[], w, after, htext, hw, fun _ => rfl, hafter⟩
    · rintro ⟨before, w, after, htext, hw, hbefore, hafter⟩
      rw [hbefore hstart] at htext
      exact ⟨w, after, htext, hw, hafter⟩
  · next hstart =>
    rw [matchLoop_iff]
    constructor
    · rintro ⟨before, rest, rfl, hhere⟩
      obtain ⟨w, after, rfl, hw, hafter⟩ := matchhere_iff.mp hhere
      exact ⟨before, w, after, (append_assoc _ _ _).symm, hw, fun h => absurd h hstart, hafter⟩
    · rintro ⟨before, w, after, rfl, hw, -, hafter⟩
      exact ⟨before, w ++ after, append_assoc _ _ _, matchhere_iff.mpr ⟨w, after, rfl, hw, hafter⟩⟩

-- a*b$ in xaab, and not in xaabx
example : match_ [97, 42, 98, 36] [120, 97, 97, 98] = true ∧
    match_ [97, 42, 98, 36] [120, 97, 97, 98, 120] = false := by decide

end Xv6.Grep

import Mathlib.Data.List.TakeWhile
import Xv6.Fs.Linking

/-!
Path names. `skipelem` takes the components of a path from its front, and `namex` looks
them up one after the other, with one more inode in the cache than before the call.
-/

namespace Xv6.Fs

open Lib List

def slash : UInt8 := '/'.toUInt8

/-- `skipelem`: the name and the rest of the path. The string ends with its list. -/
def skipelem (path : List UInt8) : Option (List UInt8 × List UInt8) :=
  let path := path.dropWhile (· == slash)
  if path = [] then none
  else
    let elem := path.takeWhile (· != slash)
    let path := path.dropWhile (· != slash)
    some (elem.take DIRSIZ, path.dropWhile (· == slash))

theorem head_ne_slash (path : List UInt8) : (path.dropWhile (· == slash)).head? ≠ some slash := by
  intro hhead
  have hnot := List.head?_dropWhile_not (· == slash) path
  rw [hhead] at hnot
  exact absurd hnot (by decide)

theorem elem_ne_nil {path : List UInt8} (hne : path ≠ []) (hhead : path.head? ≠ some slash) :
    path.takeWhile (· != slash) ≠ [] := by
  obtain ⟨c, rest, rfl⟩ := exists_cons_of_ne_nil hne
  have hc : (c != slash) = true := by
    rw [bne_iff_ne]
    rintro rfl
    exact hhead rfl
  rw [takeWhile_cons_of_pos (p := (· != slash)) hc]
  exact cons_ne_nil _ _

theorem skipelem_lt {path name rest : List UInt8} (h : skipelem path = some (name, rest)) :
    rest.length < path.length := by
  unfold skipelem at h
  dsimp only at h
  split at h
  · cases h
  · next hne =>
    cases h
    have hfirst := (dropWhile_suffix (l := path) (· == slash)).length_le
    have hlast := (dropWhile_suffix
      (l := (path.dropWhile (· == slash)).dropWhile (· != slash)) (· == slash)).length_le
    have helem := length_pos_iff.mpr (elem_ne_nil hne (head_ne_slash path))
    have hsplit := congrArg List.length
      (takeWhile_append_dropWhile (p := (· != slash)) (l := path.dropWhile (· == slash)))
    rw [length_append] at hsplit
    omega

/-- The loop of `namex`; `name` is what the buffer holds. -/
def namexLoop (devsw : Devsw) (nameiparent : Bool) (κ : Kern) (i : Nat) (name path : List UInt8) :
    Except Fault (Option (Nat × List UInt8) × Kern) :=
  match _h : skipelem path with
  | none =>
    if nameiparent then do
      let κ ← iput κ i
      .ok (none, κ)
    else .ok (some (i, name), κ)
  | some (name, path) => do
      let κ ← ilock κ i
      if (κ.icache i).ip.type ≠ T_DIR then do
        let κ ← iunlockput κ i
        .ok (none, κ)
      else if nameiparent ∧ path = [] then do
        let κ ← iunlock κ i
        .ok (some (i, name), κ)
      else do
        let (found, κ) ← dirlookup devsw κ i name
        match found with
        | none => do
            let κ ← iunlockput κ i
            .ok (none, κ)
        | some (next, _) => do
            let κ ← iunlockput κ i
            namexLoop devsw nameiparent κ next name path
termination_by path.length
decreasing_by exact skipelem_lt _h

/-- `namex` for a process whose current directory is entry `cwd`. -/
def namex (devsw : Devsw) (κ : Kern) (cwd : Nat) (path : List UInt8) (nameiparent : Bool) :
    Except Fault (Option (Nat × List UInt8) × Kern) :=
  if path.head? = some slash then do
    let (i, κ) ← iget κ ROOTINO
    namexLoop devsw nameiparent κ i [] path
  else namexLoop devsw nameiparent (idup κ cwd) cwd [] path

def namei (devsw : Devsw) (κ : Kern) (cwd : Nat) (path : List UInt8) :
    Except Fault (Option Nat × Kern) := do
  let (found, κ) ← namex devsw κ cwd path false
  .ok (found.map (·.1), κ)

def nameiparent (devsw : Devsw) (κ : Kern) (cwd : Nat) (path : List UInt8) :
    Except Fault (Option (Nat × List UInt8) × Kern) := namex devsw κ cwd path true

def components (path : List UInt8) : List (List UInt8) :=
  ((path.splitOn slash).filter (· ≠ [])).map (·.take DIRSIZ)

section

theorem components_slash (path : List UInt8) : components (slash :: path) = components path := by
  unfold components List.splitOn
  rw [splitOnP_cons_eq_if_modifyHead, if_pos (by decide), filter_cons_of_neg (by simp)]

theorem components_skip (path : List UInt8) :
    components (path.dropWhile (· == slash)) = components path := by
  induction path with
  | nil => rfl
  | cons c path ih =>
    rw [dropWhile_cons]
    split
    · next hc =>
      rw [ih, beq_iff_eq.mp hc, components_slash]
    · rfl

theorem components_elem {elem rest : List UInt8} (helem : ∀ c ∈ elem, c ≠ slash)
    (hne : elem ≠ []) (hrest : rest = [] ∨ rest.head? = some slash) :
    components (elem ++ rest) = elem.take DIRSIZ :: components rest := by
  have hnot : ∀ c ∈ elem, (c == slash) = false := fun c hc => beq_eq_false_iff_ne.mpr (helem c hc)
  have hkeep (l : List (List UInt8)) :
      (elem :: l).filter (· ≠ []) = elem :: l.filter (· ≠ []) :=
    filter_cons_of_pos (decide_eq_true hne)
  rcases hrest with rfl | hrest
  · unfold components List.splitOn
    rw [append_nil, splitOnP_eq_singleton hnot, hkeep]
    rfl
  · obtain ⟨c, rest, rfl⟩ : ∃ c rest', rest = c :: rest' := by
      cases rest with
      | nil => cases hrest
      | cons c rest => exact ⟨c, rest, rfl⟩
    cases hrest
    rw [components_slash]
    unfold components List.splitOn
    rw [splitOnP_append_cons_of_forall_mem hnot _ (by decide), hkeep, map_cons]

theorem components_first {path : List UInt8} (hne : path ≠ []) (hhead : path.head? ≠ some slash) :
    components path = (path.takeWhile (· != slash)).take DIRSIZ ::
      components (path.dropWhile (· != slash)) := by
  have helem : ∀ c ∈ path.takeWhile (· != slash), c ≠ slash := by
    intro c hc
    have hplain := mem_takeWhile_imp (p := (· != slash)) hc
    exact bne_iff_ne.mp hplain
  have hrest : path.dropWhile (· != slash) = [] ∨
      (path.dropWhile (· != slash)).head? = some slash := by
    have hnot := List.head?_dropWhile_not (· != slash) path
    cases hdrop : path.dropWhile (· != slash) with
    | nil => exact .inl rfl
    | cons c rest =>
      rw [hdrop] at hnot
      have hc : c = slash := by simpa using hnot
      exact .inr (congrArg some hc)
  have hsplit := components_elem helem (elem_ne_nil hne hhead) hrest
  rwa [takeWhile_append_dropWhile] at hsplit

theorem skipelem_none {path : List UInt8} (h : skipelem path = none) : components path = [] := by
  unfold skipelem at h
  dsimp only at h
  split at h
  · next hnil =>
    rw [← components_skip, hnil]
    rfl
  · cases h

theorem skipelem_some {path name rest : List UInt8} (h : skipelem path = some (name, rest)) :
    components path = name :: components rest ∧ (rest = [] ↔ components rest = []) := by
  unfold skipelem at h
  dsimp only at h
  split at h
  · cases h
  · next hne =>
    cases h
    have hfirst := components_first hne (head_ne_slash path)
    rw [components_skip] at hfirst
    rw [hfirst, components_skip]
    refine ⟨rfl, ?_⟩
    rw [← components_skip]
    generalize hlast : ((path.dropWhile (· == slash)).dropWhile (· != slash)).dropWhile
      (· == slash) = rest
    have hhead : rest.head? ≠ some slash := hlast ▸ head_ne_slash _
    constructor
    · rintro rfl
      rfl
    · intro hnone
      by_contra hne
      rw [components_first hne hhead] at hnone
      cases hnone

end

end Xv6.Fs

import Mathlib.Data.List.Induction
import Mathlib.Data.List.Nodup

/-!
Doubly linked cycles with a head. A node points to the next and the previous
one; `none` is the head. `Cycle L l` says that the pointers lead from the head
through the nodes `l` and back. The pointer operations are those on lists.
-/

namespace Xv6.Lib

open Function List

/-- The pointers of the nodes `α` and of the head. -/
structure Links (α : Type*) where
  next : Option α → Option α
  prev : Option α → Option α

namespace Links

variable {α : Type*}

def empty : Links α := ⟨fun _ => none, fun _ => none⟩

section

variable [DecidableEq α]

def unlink (L : Links α) (b : α) : Links α :=
  let prev := update L.prev (L.next (some b)) (L.prev (some b))
  let next := update L.next (prev (some b)) (L.next (some b))
  ⟨next, prev⟩

def pushFront (L : Links α) (b : α) : Links α :=
  let next := update L.next (some b) (L.next none)
  let prev := update L.prev (some b) none
  let prev := update prev (next none) (some b)
  let next := update next none (some b)
  ⟨next, prev⟩

end

/-- The first node that passes a test on the way along `step`, looking at `n`
nodes at most. -/
def search (step : Option α → Option α) (test : α → Bool) : Nat → Option α → Option α
  | _, none => none
  | 0, some _ => none
  | n + 1, some b => if test b then some b else search step test n (step (some b))

/-- The pointers lead from `x` through the nodes `l` to `y` and back. -/
def Path (L : Links α) (x : Option α) : List α → Option α → Prop
  | [], y => L.next x = y ∧ L.prev y = x
  | b :: l, y => L.next x = some b ∧ L.prev (some b) = x ∧ L.Path (some b) l y

/-- The nodes `l` in order, each once, form a cycle with the head. -/
structure Cycle (L : Links α) (l : List α) : Prop where
  path : L.Path none l none
  nodup : l.Nodup

variable {L L' : Links α} {x y : Option α} {l l1 l2 : List α} {b : α}

theorem path_append : L.Path x (l1 ++ b :: l2) y ↔ L.Path x l1 (some b) ∧ L.Path (some b) l2 y := by
  induction l1 generalizing x with
  | nil => simp [Path, and_assoc]
  | cons c l1 ih => simp [Path, ih, and_assoc]

theorem Path.next_mem (h : L.Path x l y) : L.next x ∈ l.map some ++ [y] := by
  cases l with
  | nil => simp [h.1]
  | cons b l => simp [h.1]

theorem Path.prev_mem (h : L.Path x l y) : L.prev y ∈ x :: l.map some := by
  induction l using List.reverseRecOn with
  | nil => simp [h.2]
  | append_singleton l b _ =>
    have hlast := (path_append.mp h).2
    simp [hlast.2]

theorem Path.congr (h : L.Path x l y) (hnext : ∀ u ∈ x :: l.map some, L'.next u = L.next u)
    (hprev : ∀ u ∈ l.map some ++ [y], L'.prev u = L.prev u) : L'.Path x l y := by
  induction l generalizing x with
  | nil => exact ⟨(hnext x (by simp)).trans h.1, (hprev y (by simp)).trans h.2⟩
  | cons b l ih =>
    refine ⟨(hnext x (by simp)).trans h.1, (hprev (some b) (by simp)).trans h.2.1, ih h.2.2 ?_ ?_⟩
    · exact fun u hu => hnext u (mem_cons_of_mem x hu)
    · exact fun u hu => hprev u (mem_cons_of_mem _ hu)

theorem cycle_empty : (empty : Links α).Cycle [] := ⟨⟨rfl, rfl⟩, nodup_nil⟩

section

variable [DecidableEq α]

theorem unlink_next (L : Links α) (hb : L.next (some b) ≠ some b) :
    (L.unlink b).next = update L.next (L.prev (some b)) (L.next (some b)) := by
  unfold unlink
  dsimp only
  rw [update_of_ne (Ne.symm hb)]

/-- A path without node `b`: the neighbours of `b` are linked. -/
theorem Path.unlink (h1 : L.Path x l1 (some b)) (h2 : L.Path (some b) l2 y)
    (hnodup : (l1 ++ b :: l2).Nodup) (hx : x ∉ (l1 ++ b :: l2).map some)
    (hy : y ∉ (l1 ++ b :: l2).map some) : (L.unlink b).Path x (l1 ++ l2) y := by
  have hmem := h2.next_mem
  have hb : L.next (some b) ≠ some b := by
    intro heq
    rw [heq, mem_append, mem_singleton] at hmem
    rcases hmem with hmem | rfl
    · rw [nodup_middle, nodup_cons] at hnodup
      exact hnodup.1 (by simpa using Or.inr hmem)
    · exact hy (by simp)
  have hnext := unlink_next L hb
  have hprev : (L.unlink b).prev = update L.prev (L.next (some b)) (L.prev (some b)) := rfl
  induction l1 generalizing x with
  | nil =>
    obtain ⟨hxb, hbx⟩ := h1
    rw [hbx] at hnext hprev
    have hxs : x ≠ some b := by
      rintro rfl
      simp at hx
    cases l2 with
    | nil =>
      obtain ⟨hby, hyb⟩ := h2
      rw [hby] at hnext hprev
      exact ⟨by rw [hnext, update_self], by rw [hprev, update_self]⟩
    | cons c l2 =>
      obtain ⟨hbc, hcb, hrest⟩ := h2
      rw [hbc] at hnext hprev
      refine ⟨by rw [hnext, update_self], by rw [hprev, update_self],
        hrest.congr (fun u hu => ?_) fun u hu => ?_⟩
      · rw [hnext, update_of_ne]
        rintro rfl
        exact hx (by simpa using Or.inr hu)
      · rw [hprev, update_of_ne]
        rintro rfl
        simp only [nil_append, nodup_cons, mem_cons] at hnodup
        rw [mem_append, mem_singleton] at hu
        rcases hu with hu | rfl
        · simp only [mem_map, Option.some.injEq, exists_eq_right] at hu
          exact hnodup.2.1 hu
        · simp at hy
  | cons u l1 ih =>
    obtain ⟨hxu, hux, hrest⟩ := h1
    simp only [cons_append, map_cons, mem_cons, not_or] at hx hy
    rw [cons_append, nodup_cons] at hnodup
    have hu : some u ∉ (l1 ++ b :: l2).map some := by simpa using hnodup.1
    refine ⟨?_, ?_, ih hrest hnodup.2 hu hy.2⟩
    · rw [hnext, update_of_ne, hxu]
      have hlast := hrest.prev_mem
      intro heq
      rw [← heq] at hlast
      rcases mem_cons.mp hlast with rfl | hlast
      · exact hx.1 rfl
      · exact hx.2 (by simpa using Or.inl hlast)
    · rw [hprev, update_of_ne, hux]
      intro heq
      rw [← heq, mem_append, mem_singleton] at hmem
      rcases hmem with hmem | heq
      · exact hu (by simpa using Or.inr (Or.inr hmem))
      · exact hy.1 heq.symm

theorem Cycle.unlink (h : L.Cycle l) (hb : b ∈ l) : (L.unlink b).Cycle (l.erase b) := by
  obtain ⟨l1, l2, hnot, hl, herase⟩ := exists_erase_eq hb
  rw [herase]
  have hpath := h.path
  have hnodup := h.nodup
  rw [hl] at hpath hnodup
  obtain ⟨h1, h2⟩ := path_append.mp hpath
  refine ⟨h1.unlink h2 hnodup (by simp) (by simp), ?_⟩
  rw [← herase]
  exact h.nodup.erase b

theorem Cycle.pushFront (h : L.Cycle l) (hb : b ∉ l) : (L.pushFront b).Cycle (b :: l) := by
  have hpath := h.path
  refine ⟨?_, nodup_cons.mpr ⟨hb, h.nodup⟩⟩
  have hnext : (L.pushFront b).next =
      update (update L.next (some b) (L.next none)) none (some b) := rfl
  have hprev : (L.pushFront b).prev =
      update (update L.prev (some b) none) (L.next none) (some b) := by
    unfold Links.pushFront
    simp
  have hfirst : L.next none ≠ some b := by
    intro heq
    have hmem := hpath.next_mem
    rw [heq] at hmem
    simp [hb] at hmem
  refine ⟨by rw [hnext, update_self], ?_, ?_⟩
  · rw [hprev, update_of_ne hfirst.symm, update_self]
  cases l with
  | nil =>
    obtain ⟨h1, h2⟩ := hpath
    refine ⟨?_, ?_⟩
    · rw [hnext, update_of_ne (by simp), update_self, h1]
    · rw [hprev, h1, update_self]
  | cons c l =>
    obtain ⟨h1, _, hrest⟩ := hpath
    rw [h1] at hprev
    refine ⟨?_, by rw [hprev, update_self], hrest.congr (fun u hu => ?_) fun u hu => ?_⟩
    · rw [hnext, update_of_ne (by simp), update_self, h1]
    · have hu' : u ≠ none ∧ u ≠ some b := by
        simp only [mem_cons, not_or, mem_map] at hb hu
        rcases hu with rfl | ⟨v, hv, rfl⟩
        · exact ⟨nofun, fun heq => hb.1 (Option.some.inj heq).symm⟩
        · exact ⟨nofun, fun heq => hb.2 (Option.some.inj heq ▸ hv)⟩
      rw [hnext, update_of_ne hu'.1, update_of_ne hu'.2]
    · have hc := (nodup_cons.mp h.nodup).1
      have hu' : u ≠ some c ∧ u ≠ some b := by
        simp only [mem_cons, not_or, mem_append, mem_map] at hb hu
        rcases hu with ⟨v, hv, rfl⟩ | rfl | hu
        · exact ⟨fun heq => hc (Option.some.inj heq ▸ hv),
            fun heq => hb.2 (Option.some.inj heq ▸ hv)⟩
        · exact ⟨nofun, nofun⟩
        · cases hu
      rw [hprev, update_of_ne hu'.1, update_of_ne hu'.2]

end

theorem Path.search_next (h : L.Path x l none) (test : α → Bool) {n : Nat} (hn : l.length ≤ n) :
    search L.next test n (L.next x) = l.find? test := by
  induction l generalizing x n with
  | nil =>
    rw [h.1]
    cases n <;> rfl
  | cons b l ih =>
    obtain ⟨n, rfl⟩ := Nat.exists_eq_add_of_le' (Nat.le_trans (Nat.le_add_left 1 _) hn)
    rw [h.1, search, List.find?_cons]
    cases htest : test b with
    | true => rfl
    | false => exact ih h.2.2 (Nat.le_of_succ_le_succ hn)

theorem Path.search_prev (h : L.Path none l y) (test : α → Bool) {n : Nat} (hn : l.length ≤ n) :
    search L.prev test n (L.prev y) = l.reverse.find? test := by
  induction l using List.reverseRecOn generalizing y n with
  | nil =>
    rw [h.2]
    cases n <;> rfl
  | append_singleton l b ih =>
    obtain ⟨h1, h2⟩ := path_append.mp h
    rw [length_append, length_singleton] at hn
    obtain ⟨n, rfl⟩ := Nat.exists_eq_add_of_le' (Nat.le_trans (Nat.le_add_left 1 _) hn)
    rw [h2.2, search, reverse_append, reverse_singleton, singleton_append, List.find?_cons]
    cases htest : test b with
    | true => rfl
    | false => exact ih h1 (Nat.le_of_succ_le_succ hn)

end Links

end Xv6.Lib

import Mathlib.Algebra.GroupWithZero.Nat
import Mathlib.Data.List.Basic

/-!
Rows of extents. An extent is a stretch of addresses. A row that is sorted, with a gap
between any two neighbours, has one form for every set of addresses; `insert` puts an
extent in its place and joins it with the neighbours it touches.
-/

namespace Xv6.Lib

structure Extent where
  addr : Nat
  len : Nat
  deriving DecidableEq, Repr

namespace Extent

def stop (a : Extent) : Nat := a.addr + a.len

def Apart (a b : Extent) : Prop := a.stop ≤ b.addr ∨ b.stop ≤ a.addr

def join (a b : Extent) : Extent := ⟨a.addr, a.len + b.len⟩

theorem Apart.symm {a b : Extent} (h : Apart a b) : Apart b a := Or.symm h

instance : Std.Symm Apart := ⟨fun _ _ h => h.symm⟩

theorem Apart.join {a b x : Extent} (ha : Apart a x) (hb : Apart b x) (htouch : a.stop = b.addr)
    (hx : 0 < x.len) : Apart (a.join b) x := by
  unfold Apart stop at *
  simp only [Extent.join]
  omega

end Extent

namespace Extents

open Extent List

/-- The address of the first extent of a row, `y` for the empty row. -/
def first (l : List Extent) (y : Nat) : Nat :=
  match l with
  | [] => y
  | a :: _ => a.addr

def total (l : List Extent) : Nat := (l.map Extent.len).sum

/-- Extent `a` in front of the row, joined with the first one if they touch. -/
def glue (a : Extent) : List Extent → List Extent
  | [] => [a]
  | b :: l => if a.stop = b.addr then a.join b :: l else a :: b :: l

/-- Extent `b` in its place, joined with the neighbours it touches. -/
def insert (b : Extent) : List Extent → List Extent
  | [] => [b]
  | a :: l => if b.addr < a.addr then glue b (a :: l) else glue a (insert b l)

/-- Sorted, with a gap between any two extents. -/
def Spaced (l : List Extent) : Prop := l.Pairwise fun a b => a.stop < b.addr

variable {a b : Extent} {l l1 l2 : List Extent}

@[simp] theorem total_cons (a : Extent) (l : List Extent) : total (a :: l) = a.len + total l := by
  simp [total]

@[simp] theorem total_append (l1 l2 : List Extent) : total (l1 ++ l2) = total l1 + total l2 := by
  simp [total]

theorem total_perm (h : l1.Perm l2) : total l1 = total l2 := (h.map Extent.len).sum_nat

theorem first_append (l1 l2 : List Extent) (y : Nat) :
    first (l1 ++ l2) y = first l1 (first l2 y) := by
  cases l1 <;> rfl

section

theorem first_glue (a : Extent) (l : List Extent) (y : Nat) : first (glue a l) y = a.addr := by
  cases l with
  | nil => rfl
  | cons b l =>
    rw [glue]
    split <;> rfl

/-- There is an extent that begins where `a` does. -/
theorem glue_mem (a : Extent) (l : List Extent) : ∃ e ∈ glue a l, e.addr = a.addr := by
  cases l with
  | nil => exact ⟨a, mem_singleton_self a, rfl⟩
  | cons b l =>
    rw [glue]
    split
    · exact ⟨_, mem_cons_self, rfl⟩
    · exact ⟨a, mem_cons_self, rfl⟩

theorem glue_all {P : Extent → Prop} (hjoin : ∀ a b, P a → P b → a.stop = b.addr → P (a.join b))
    (ha : P a) (hl : ∀ e ∈ l, P e) : ∀ e ∈ glue a l, P e := by
  cases l with
  | nil => simpa [glue] using ha
  | cons b l =>
    rw [forall_mem_cons] at hl
    rw [glue]
    split
    · next htouch =>
      exact forall_mem_cons.mpr ⟨hjoin a b ha hl.1 htouch, hl.2⟩
    · exact forall_mem_cons.mpr ⟨ha, forall_mem_cons.mpr hl⟩

theorem total_glue (a : Extent) (l : List Extent) : total (glue a l) = a.len + total l := by
  cases l with
  | nil => rfl
  | cons b l =>
    rw [glue]
    split
    · simp only [total_cons, join]
      omega
    · simp

theorem glue_len (a : Extent) (l : List Extent) :
    (∃ e ∈ glue a l, a.len ≤ e.len) ∧ ∀ x ∈ l, ∃ e ∈ glue a l, x.len ≤ e.len := by
  cases l with
  | nil => exact ⟨⟨a, mem_singleton_self a, Nat.le_refl _⟩, fun x hx => nomatch hx⟩
  | cons b l =>
    rw [glue]
    split
    · refine ⟨⟨_, mem_cons_self, Nat.le_add_right _ _⟩, fun x hx => ?_⟩
      rcases mem_cons.mp hx with rfl | hx
      · exact ⟨_, mem_cons_self, Nat.le_add_left _ _⟩
      · exact ⟨x, mem_cons_of_mem _ hx, Nat.le_refl _⟩
    · exact ⟨⟨a, mem_cons_self, Nat.le_refl _⟩,
        fun x hx => ⟨x, mem_cons_of_mem _ hx, Nat.le_refl _⟩⟩

theorem glue_spaced (h : Spaced l) (ha : ∀ e ∈ l, a.stop ≤ e.addr) : Spaced (glue a l) := by
  cases l with
  | nil => exact pairwise_singleton _ a
  | cons b l =>
    have hrest := pairwise_cons.mp h
    have hb := ha b mem_cons_self
    rw [glue]
    split
    · next htouch =>
      refine pairwise_cons.mpr ⟨fun e he => ?_, hrest.2⟩
      have hgap := hrest.1 e he
      unfold stop at *
      simp only [join]
      omega
    · refine pairwise_cons.mpr ⟨fun e he => ?_, h⟩
      rcases mem_cons.mp he with rfl | he
      · omega
      · have hgap := hrest.1 e he
        unfold stop at *
        omega

theorem glue_eq_cons (h : ∀ y, a.stop < y → a.stop < first l y) : glue a l = a :: l := by
  cases l with
  | nil => rfl
  | cons b l =>
    have hgap : a.stop < b.addr := h (a.stop + 1) (Nat.lt_succ_self _)
    exact if_neg (Nat.ne_of_lt hgap)

end

section

theorem insert_all {P : Extent → Prop} (hjoin : ∀ a b, P a → P b → a.stop = b.addr → P (a.join b))
    (hb : P b) (hl : ∀ e ∈ l, P e) : ∀ e ∈ insert b l, P e := by
  induction l with
  | nil => simpa [insert] using hb
  | cons a l ih =>
    rw [insert]
    split
    · exact glue_all hjoin hb hl
    · rw [forall_mem_cons] at hl
      exact glue_all hjoin hl.1 (ih hl.2)

theorem total_insert (b : Extent) (l : List Extent) : total (insert b l) = b.len + total l := by
  induction l with
  | nil => rfl
  | cons a l ih =>
    rw [insert]
    split
    · exact total_glue b (a :: l)
    · rw [total_glue, ih, total_cons]
      omega

theorem insert_len (b : Extent) (l : List Extent) : ∃ e ∈ insert b l, b.len ≤ e.len := by
  induction l with
  | nil => exact ⟨b, mem_singleton_self b, Nat.le_refl _⟩
  | cons a l ih =>
    rw [insert]
    split
    · exact (glue_len b (a :: l)).1
    · obtain ⟨x, hx, hle⟩ := ih
      obtain ⟨e, he, hxe⟩ := (glue_len a (insert b l)).2 x hx
      exact ⟨e, he, Nat.le_trans hle hxe⟩

theorem insert_spaced (h : Spaced l) (hb : 0 < b.len) (hapart : ∀ e ∈ l, Apart e b) :
    Spaced (insert b l) := by
  induction l with
  | nil => exact pairwise_singleton _ b
  | cons a l ih =>
    have hrest := pairwise_cons.mp h
    rw [forall_mem_cons] at hapart
    have ha := hapart.1
    unfold Apart at ha
    rw [insert]
    split
    · next hlt =>
      refine glue_spaced h fun e he => ?_
      have hfirst : b.stop ≤ a.addr := by
        unfold stop at *
        omega
      rcases mem_cons.mp he with rfl | he
      · exact hfirst
      · have hgap := hrest.1 e he
        unfold stop at *
        omega
    · next hge =>
      have hbehind : a.stop ≤ b.addr := by
        unfold stop at *
        omega
      refine glue_spaced (ih hrest.2 hapart.2) ?_
      exact insert_all (P := fun e => a.stop ≤ e.addr) (fun _ _ hx _ _ => hx) hbehind
        fun e he => Nat.le_of_lt (hrest.1 e he)

theorem insert_append (h : Spaced (l1 ++ a :: l2)) (hl1 : ∀ e ∈ l1, e.addr ≤ b.addr)
    (ha : a.addr ≤ b.addr) (hl2 : ∀ e ∈ l2, b.addr < e.addr) :
    insert b (l1 ++ a :: l2) = l1 ++ glue a (glue b l2) := by
  induction l1 with
  | nil =>
    have hrest : insert b l2 = glue b l2 := by
      cases l2 with
      | nil => rfl
      | cons c l2 => exact if_pos (hl2 c mem_cons_self)
    rw [nil_append, insert, if_neg (Nat.not_lt.mpr ha), hrest]
    rfl
  | cons e l1 ih =>
    rw [forall_mem_cons] at hl1
    have hpair := pairwise_cons.mp h
    rw [cons_append, insert, if_neg (Nat.not_lt.mpr hl1.1), ih hpair.2 hl1.2, cons_append]
    apply glue_eq_cons
    intro y _
    rw [first_append, first_glue]
    cases l1 with
    | nil => exact hpair.1 a (by simp)
    | cons d l1 => exact hpair.1 d (by simp)

end

/-- A region that is divided into free extents, as a row, and extents in use; what is left
belongs to neither. -/
structure Layout (lo hi : Nat) (free live : List Extent) : Prop where
  le : lo ≤ hi
  spaced : Spaced free
  pos : ∀ e ∈ free ++ live, 0 < e.len
  bound : ∀ e ∈ free ++ live, lo ≤ e.addr ∧ e.stop ≤ hi
  apart : ∀ f ∈ free, ∀ e ∈ live, Apart f e
  live : live.Pairwise Apart

namespace Layout

variable {lo hi : Nat} {free live live' : List Extent} {t : Extent}

theorem nil (h : lo ≤ hi) : Layout lo hi [] [] :=
  ⟨h, List.Pairwise.nil, by simp, by simp, by simp, List.Pairwise.nil⟩

theorem perm (h : Layout lo hi free live) (hperm : live.Perm live') : Layout lo hi free live' := by
  have hmem (e : Extent) (he : e ∈ free ++ live') : e ∈ free ++ live :=
    (hperm.symm.append_left free).mem_iff.mp he
  refine ⟨h.le, h.spaced, fun e he => h.pos e (hmem e he), fun e he => h.bound e (hmem e he),
    fun f hf e he => h.apart f hf e (hperm.mem_iff.mpr he), ?_⟩
  exact (hperm.pairwise_iff fun hab => hab.symm).mp h.live

theorem release (h : Layout lo hi free (b :: live)) : Layout lo hi (insert b free) live := by
  have hlive := pairwise_cons.mp h.live
  have hb : 0 < b.len ∧ lo ≤ b.addr ∧ b.stop ≤ hi := ⟨h.pos b (by simp), h.bound b (by simp)⟩
  have hfree : ∀ e ∈ insert b free, 0 < e.len ∧ lo ≤ e.addr ∧ e.stop ≤ hi := by
    apply insert_all (P := fun e => 0 < e.len ∧ lo ≤ e.addr ∧ e.stop ≤ hi)
    · intro a c ha hc htouch
      unfold stop at *
      simp only [join]
      omega
    · exact hb
    · intro e he
      have hmem := mem_append_left (b :: live) he
      exact ⟨h.pos e hmem, h.bound e hmem⟩
  have hkept (e : Extent) (he : e ∈ live) : 0 < e.len ∧ lo ≤ e.addr ∧ e.stop ≤ hi := by
    have hmem := mem_append_right free (mem_cons_of_mem b he)
    exact ⟨h.pos e hmem, h.bound e hmem⟩
  have hall (e : Extent) (he : e ∈ insert b free ++ live) :
      0 < e.len ∧ lo ≤ e.addr ∧ e.stop ≤ hi :=
    (mem_append.mp he).elim (hfree e) (hkept e)
  refine ⟨h.le, ?_, fun e he => (hall e he).1, fun e he => (hall e he).2, ?_, hlive.2⟩
  · exact insert_spaced h.spaced hb.1 fun e he => h.apart e he b mem_cons_self
  · intro f hf e he
    refine insert_all (P := fun f => Apart f e) (fun a c ha hc htouch => ?_) (hlive.1 e he) ?_ f hf
    · exact ha.join hc htouch (hkept e he).1
    · exact fun f hf => h.apart f hf e (mem_cons_of_mem b he)

theorem shrink (h : Layout lo hi (l1 ++ t :: l2) live) {k : Nat} (hpos : 0 < k) (hk : k ≤ t.len) :
    Layout lo hi (l1 ++ ⟨t.addr, k⟩ :: l2) live := by
  have hmem {P : Extent → Prop} (ht : P t → P ⟨t.addr, k⟩) {l : List Extent}
      (hall : ∀ e ∈ l1 ++ t :: l2 ++ l, P e) : ∀ e ∈ l1 ++ ⟨t.addr, k⟩ :: l2 ++ l, P e := by
    intro e he
    simp only [append_assoc, cons_append, mem_append, mem_cons] at he hall
    rcases he with he | rfl | he | he
    · exact hall e (Or.inl he)
    · exact ht (hall t (Or.inr (Or.inl rfl)))
    · exact hall e (Or.inr (Or.inr (Or.inl he)))
    · exact hall e (Or.inr (Or.inr (Or.inr he)))
  refine ⟨h.le, ?_, hmem (fun _ => hpos) h.pos, hmem (fun ht => ?_) h.bound, ?_, h.live⟩
  · have hspaced := h.spaced
    unfold Spaced at hspaced ⊢
    rw [pairwise_append, pairwise_cons] at hspaced ⊢
    refine ⟨hspaced.1, ⟨fun e he => ?_, hspaced.2.1.2⟩, fun e he x hx => ?_⟩
    · have hgap := hspaced.2.1.1 e he
      unfold stop at *
      dsimp only
      omega
    · rcases mem_cons.mp hx with rfl | hx
      · exact hspaced.2.2 e he t mem_cons_self
      · exact hspaced.2.2 e he x (mem_cons_of_mem t hx)
  · unfold stop at *
    dsimp only
    omega
  · intro f hf e he
    have happart := hmem (P := fun f => Apart f e) (fun ht => ?_) (l := []) (fun f hf => ?_) f
    · exact happart (by simpa using hf)
    · unfold Apart stop at *
      dsimp only
      omega
    · exact h.apart f (by simpa using hf) e he

theorem cons (h : Layout lo hi free live) (hpos : 0 < t.len) (hbound : lo ≤ t.addr ∧ t.stop ≤ hi)
    (hfree : ∀ f ∈ free, Apart f t) (hlive : ∀ e ∈ live, Apart t e) :
    Layout lo hi free (t :: live) := by
  refine ⟨h.le, h.spaced, ?_, ?_, ?_, pairwise_cons.mpr ⟨hlive, h.live⟩⟩
  · intro e he
    rcases mem_cons.mp (perm_middle.mem_iff.mp he) with rfl | he
    · exact hpos
    · exact h.pos e he
  · intro e he
    rcases mem_cons.mp (perm_middle.mem_iff.mp he) with rfl | he
    · exact hbound
    · exact h.bound e he
  · intro f hf e he
    rcases mem_cons.mp he with rfl | he
    · exact hfree f hf
    · exact h.apart f hf e he

theorem remove (h : Layout lo hi (l1 ++ t :: l2) live) : Layout lo hi (l1 ++ l2) live := by
  have hsub : (l1 ++ l2).Sublist (l1 ++ t :: l2) :=
    List.Sublist.append_left (sublist_cons_self t l2) l1
  have hmem (e : Extent) (he : e ∈ l1 ++ l2 ++ live) : e ∈ l1 ++ t :: l2 ++ live :=
    (hsub.append_right live).subset he
  exact ⟨h.le, h.spaced.sublist hsub, fun e he => h.pos e (hmem e he),
    fun e he => h.bound e (hmem e he), fun f hf => h.apart f (hsub.subset hf), h.live⟩

theorem neighbours (h : Layout lo hi (l1 ++ t :: l2) live) : ∀ f ∈ l1 ++ l2, Apart f t := by
  have hspaced := h.spaced
  unfold Spaced at hspaced
  rw [pairwise_append, pairwise_cons] at hspaced
  intro f hf
  rcases mem_append.mp hf with hf | hf
  · exact .inl (Nat.le_of_lt (hspaced.2.2 f hf t mem_cons_self))
  · exact .inr (Nat.le_of_lt (hspaced.2.1.1 f hf))

theorem giveAll (h : Layout lo hi (l1 ++ t :: l2) live) : Layout lo hi (l1 ++ l2) (t :: live) :=
  h.remove.cons (h.pos t (by simp)) (h.bound t (by simp)) h.neighbours
    fun e he => h.apart t (by simp) e he

theorem giveTail (h : Layout lo hi (l1 ++ t :: l2) live) {k : Nat} (hpos : 0 < k)
    (hk : k < t.len) : Layout lo hi (l1 ++ ⟨t.addr, t.len - k⟩ :: l2)
      (⟨t.addr + (t.len - k), k⟩ :: live) := by
  have hin {e : Extent} (he : Apart e t) : Apart e ⟨t.addr + (t.len - k), k⟩ := by
    unfold Apart stop at *
    dsimp only
    omega
  have hbound := h.bound t (by simp)
  refine (h.shrink (Nat.sub_pos_of_lt hk) (Nat.sub_le _ _)).cons hpos ?_ ?_ ?_
  · unfold stop at *
    dsimp only
    omega
  · intro f hf
    rcases mem_cons.mp (perm_middle.mem_iff.mp hf) with rfl | hf
    · exact .inl (Nat.le_refl _)
    · exact hin (h.neighbours f hf)
  · exact fun e he => (hin (h.apart t (by simp) e he).symm).symm

theorem extend (h : Layout lo hi free live) {x k : Nat} (hx : hi ≤ x) (hk : 0 < k) :
    Layout lo (x + k) free (⟨x, k⟩ :: live) := by
  have hle := h.le
  have hgrow : Layout lo (x + k) free live :=
    ⟨by omega, h.spaced, h.pos, fun e he => ⟨(h.bound e he).1, by have := (h.bound e he).2; omega⟩,
      h.apart, h.live⟩
  have hbelow (e : Extent) (he : e ∈ free ++ live) : e.stop ≤ x := Nat.le_trans (h.bound e he).2 hx
  refine hgrow.cons hk ⟨Nat.le_trans hle hx, Nat.le_refl _⟩ ?_ ?_
  · exact fun f hf => .inl (hbelow f (mem_append_left live hf))
  · exact fun e he => .inr (hbelow e (mem_append_right free he))

end Layout

end Extents

end Xv6.Lib

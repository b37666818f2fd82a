import Mathlib.Data.Fintype.Card
import Mathlib.Data.List.Pairwise
import Xv6.Bio.Cache

/-!
The list through `head`. It is a cycle of all buffers, ordered by the last
release that left a buffer unreferenced. Of the buffers with one block number
all but the first are untouched since `binit`, so that looking for a block from
the front finds the one in use.
-/

namespace Xv6.Bio

open Lib Function List

variable {τ δ : Type*}

def Buf.SameBlock (x y : Buf δ) : Prop := x.dev = y.dev ∧ x.blockno = y.blockno

def Buf.Untouched (x : Buf δ) : Prop := x.refcnt = 0 ∧ x.valid = false

structure Order (c : Cache τ δ) (l : List BufIdx) : Prop where
  cycle : c.links.Cycle l
  all : ∀ b, b ∈ l
  recent : l.Pairwise fun b b' => c.freedAt b' < c.freedAt b
  first : l.Pairwise fun b b' => (c.buf b).SameBlock (c.buf b') → (c.buf b').Untouched
  past : ∀ b, c.freedAt b < c.clock

theorem isBlock_iff {x : Buf δ} {dev blockno : Nat} :
    x.isBlock dev blockno = true ↔ x.dev = dev ∧ x.blockno = blockno := by
  simp [Buf.isBlock]

theorem free_iff {x : Buf δ} : x.free = true ↔ x.refcnt = 0 ∧ x.dirty = false := by
  simp [Buf.free]

theorem pairwise_of_find? {α : Type*} {l : List α} {test : α → Bool} {b : α} (hnodup : l.Nodup)
    (h : l.find? test = some b) : l.Pairwise fun u v => v = b → test u = false := by
  obtain ⟨_, l1, l2, rfl, hnot⟩ := List.find?_eq_some_iff_append.mp h
  have hb : b ∉ l1 ∧ b ∉ l2 := by
    rw [nodup_middle, nodup_cons, mem_append, not_or] at hnodup
    exact hnodup.1
  have hall (l : List α) (hl : b ∉ l) : l.Pairwise fun u v => v = b → test u = false := by
    refine pairwise_of_forall_mem_list fun u hu v hv heq => ?_
    exact absurd (heq ▸ hv) hl
  refine pairwise_append.mpr ⟨hall l1 hb.1, pairwise_cons.mpr ⟨?_, hall l2 hb.2⟩, ?_⟩
  · exact fun v hv heq => absurd (heq ▸ hv) hb.2
  · intro u hu v hv heq
    simpa using hnot u hu

namespace Order

variable {c c' : Cache τ δ} {l : List BufIdx} {b : BufIdx}

theorem length_le (h : Order c l) : l.length ≤ NBUF := by
  have hle := List.Nodup.length_le_card h.cycle.nodup
  rwa [Fintype.card_fin] at hle

theorem search_next (h : Order c l) (test : BufIdx → Bool) :
    Links.search c.links.next test NBUF (c.links.next none) = l.find? test :=
  h.cycle.path.search_next test h.length_le

theorem search_prev (h : Order c l) (test : BufIdx → Bool) :
    Links.search c.links.prev test NBUF (c.links.prev none) = l.reverse.find? test :=
  h.cycle.path.search_prev test h.length_le

theorem unique (h : Order c l) {b b' : BufIdx} (hne : b ≠ b')
    (hsame : (c.buf b).SameBlock (c.buf b')) : (c.buf b).Untouched ∨ (c.buf b').Untouched := by
  let R (u v : BufIdx) : Prop := u ≠ v → (c.buf u).SameBlock (c.buf v) →
    (c.buf u).Untouched ∨ (c.buf v).Untouched
  have hsymm : Std.Symm R := ⟨fun u v huv hne hs => (huv hne.symm ⟨hs.1.symm, hs.2.symm⟩).symm⟩
  have hpair : l.Pairwise R := h.first.imp fun huv _ hs => .inr (huv hs)
  exact hpair.forall_of_forall (fun u _ hne => absurd rfl hne) (h.all b) (h.all b') hne hsame

theorem frame (h : Order c l) (hlinks : c'.links = c.links) (hfreed : c'.freedAt = c.freedAt)
    (hclock : c.clock ≤ c'.clock)
    (hblock : ∀ b, (c'.buf b).dev = (c.buf b).dev ∧ (c'.buf b).blockno = (c.buf b).blockno)
    (huntouched : ∀ b, (c.buf b).Untouched → (c'.buf b).Untouched) : Order c' l where
  cycle := by
    rw [hlinks]
    exact h.cycle
  all := h.all
  recent := by
    rw [hfreed]
    exact h.recent
  first := h.first.imp fun huv hs => by
    refine huntouched _ (huv ?_)
    unfold Buf.SameBlock at hs ⊢
    rwa [(hblock _).1, (hblock _).2, (hblock _).1, (hblock _).2] at hs
  past b := by
    rw [hfreed]
    exact Nat.lt_of_lt_of_le (h.past b) hclock

theorem hit (h : Order c l) {dev blockno : Nat} {x : Buf δ}
    (hfind : l.find? (fun b => (c.buf b).isBlock dev blockno) = some b)
    (hdev : x.dev = (c.buf b).dev) (hblockno : x.blockno = (c.buf b).blockno) :
    Order (c.setBuf b x) l where
  cycle := h.cycle
  all := h.all
  recent := h.recent
  past := h.past
  first := by
    have hb : (c.buf b).isBlock dev blockno = true := by simpa using List.find?_some hfind
    have hbuf (u : BufIdx) : (c.setBuf b x).buf u = if u = b then x else c.buf u := by
      simp [Cache.setBuf, update_apply]
    have hsame (u : BufIdx) : ((c.setBuf b x).buf u).dev = (c.buf u).dev ∧
        ((c.setBuf b x).buf u).blockno = (c.buf u).blockno := by
      rw [hbuf]
      split
      · next heq => rw [heq, hdev, hblockno]; exact ⟨rfl, rfl⟩
      · exact ⟨rfl, rfl⟩
    refine (h.first.and (pairwise_of_find? h.cycle.nodup hfind)).imp fun {u v} huv hs => ?_
    unfold Buf.SameBlock at hs
    rw [(hsame u).1, (hsame u).2, (hsame v).1, (hsame v).2] at hs
    by_cases hv : v = b
    · have hnot := huv.2 hv
      rw [isBlock_iff] at hb
      rw [hv, hb.1, hb.2, ← isBlock_iff, hnot] at hs
      cases hs
    · rw [hbuf, if_neg hv]
      exact huv.1 hs

theorem miss (h : Order c l) {x : Buf δ}
    (hfresh : ∀ u, ¬ x.SameBlock (c.buf u)) : Order (c.setBuf b x) l where
  cycle := h.cycle
  all := h.all
  recent := h.recent
  past := h.past
  first := by
    have hbuf (u : BufIdx) : (c.setBuf b x).buf u = if u = b then x else c.buf u := by
      simp [Cache.setBuf, update_apply]
    refine (h.first.and h.cycle.nodup).imp fun {u v} huv hs => ?_
    rw [hbuf, hbuf] at hs
    rw [hbuf]
    by_cases hu : u = b
    · have hv : v ≠ b := fun hv => huv.2 (hu.trans hv.symm)
      rw [if_pos hu, if_neg hv] at hs
      exact absurd hs (hfresh v)
    · by_cases hv : v = b
      · rw [if_neg hu, if_pos hv] at hs
        exact absurd ⟨hs.1.symm, hs.2.symm⟩ (hfresh u)
      · rw [if_neg hu, if_neg hv] at hs
        rw [if_neg hv]
        exact huv.1 hs

/-- The last reference is given back: the buffer moves to the front. -/
theorem free (h : Order c l) (href : (c.buf b).refcnt ≠ 0)
    (hlinks : c'.links = (c.links.unlink b).pushFront b)
    (hfreed : c'.freedAt = update c.freedAt b c.clock) (hclock : c'.clock = c.clock + 1)
    (hblock : ∀ b, (c'.buf b).dev = (c.buf b).dev ∧ (c'.buf b).blockno = (c.buf b).blockno)
    (hothers : ∀ u, u ≠ b → c'.buf u = c.buf u) : Order c' (b :: l.erase b) := by
  have hnot : b ∉ l.erase b := h.cycle.nodup.not_mem_erase
  have hne {u : BufIdx} (hu : u ∈ l.erase b) : u ≠ b := by
    rintro rfl
    exact hnot hu
  have hsub : (l.erase b).Sublist l := erase_sublist
  refine ⟨?_, fun u => ?_, ?_, ?_, fun u => ?_⟩
  · rw [hlinks]
    exact (h.cycle.unlink (h.all b)).pushFront hnot
  · by_cases hu : u = b
    · exact hu ▸ mem_cons_self
    · exact mem_cons_of_mem _ ((mem_erase_of_ne hu).mpr (h.all u))
  · rw [hfreed]
    refine pairwise_cons.mpr ⟨fun u hu => ?_, ?_⟩
    · rw [update_self, update_of_ne (hne hu)]
      exact h.past u
    · refine (h.recent.sublist hsub).imp_of_mem fun hu hv huv => ?_
      rwa [update_of_ne (hne hu), update_of_ne (hne hv)]
  · have hback {u v : BufIdx} (hs : (c'.buf u).SameBlock (c'.buf v)) :
        (c.buf u).SameBlock (c.buf v) := by
      unfold Buf.SameBlock at hs ⊢
      rwa [(hblock u).1, (hblock u).2, (hblock v).1, (hblock v).2] at hs
    refine pairwise_cons.mpr ⟨fun u hu hs => ?_, ?_⟩
    · rw [hothers u (hne hu)]
      refine (h.unique (hne hu).symm (hback hs)).resolve_left fun hb => href hb.1
    · refine (h.first.sublist hsub).imp_of_mem fun {u v} hu hv huv hs => ?_
      rw [hothers v (hne hv)]
      exact huv (hback hs)
  · rw [hfreed, hclock]
    by_cases hu : u = b
    · rw [hu, update_self]
      exact Nat.lt_succ_self _
    · rw [update_of_ne hu]
      exact Nat.lt_succ_of_lt (h.past u)

/-- Looking from the back finds the least recently freed buffer of those that
may be recycled. -/
theorem oldest (h : Order c l)
    (hfind : l.reverse.find? (fun b => (c.buf b).free) = some b) {b' : BufIdx}
    (hb' : (c.buf b').free = true) : c.freedAt b ≤ c.freedAt b' := by
  obtain ⟨_, l1, l2, hl, hnot⟩ := List.find?_eq_some_iff_append.mp hfind
  have hrecent := pairwise_reverse.mpr h.recent
  have hmem : b' ∈ l.reverse := mem_reverse.mpr (h.all b')
  rw [hl] at hrecent hmem
  rcases mem_append.mp hmem with hmem | hmem
  · have hfree := hnot b' hmem
    rw [hb'] at hfree
    cases hfree
  · rcases mem_cons.mp hmem with rfl | hmem
    · exact Nat.le_refl _
    · exact Nat.le_of_lt ((pairwise_cons.mp (pairwise_append.mp hrecent).2.1).1 b' hmem)

end Order

theorem cycle_foldl {α : Type*} [DecidableEq α] {L : Links α} {l : List α} (h : L.Cycle l)
    {nodes : List α} (hnodup : nodes.Nodup) (hdisjoint : ∀ b ∈ nodes, b ∉ l) :
    (nodes.foldl Links.pushFront L).Cycle (nodes.reverse ++ l) := by
  induction nodes generalizing L l with
  | nil => exact h
  | cons b nodes ih =>
    rw [nodup_cons] at hnodup
    rw [foldl_cons, reverse_cons, append_assoc]
    refine ih (h.pushFront (hdisjoint b mem_cons_self)) hnodup.2 fun u hu hmem => ?_
    rcases mem_cons.mp hmem with rfl | hmem
    · exact hnodup.1 hu
    · exact hdisjoint u (mem_cons_of_mem _ hu) hmem

theorem order_init (disk : Nat → Nat → δ) (data : BufIdx → δ) :
    Order (State.init (τ := τ) disk data).cache (List.finRange NBUF).reverse where
  cycle := by
    have hcycle := cycle_foldl (Links.cycle_empty (α := BufIdx)) (nodup_finRange NBUF)
      fun b _ => not_mem_nil
    rwa [append_nil] at hcycle
  all b := by simp
  recent := by
    rw [pairwise_reverse]
    exact pairwise_lt_finRange NBUF
  first := pairwise_of_forall_mem_list fun _ _ _ _ _ => ⟨rfl, rfl⟩
  past b := b.isLt

end Xv6.Bio

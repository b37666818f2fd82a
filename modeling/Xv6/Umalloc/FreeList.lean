import Xv6.Umalloc.Model

/-!
The free list. It is a cycle through the static header and the free blocks in the order of
their addresses. `free` puts a block in its place and joins it with its neighbours.
-/

namespace Xv6.Umalloc

open Lib Extents Extent List Function

/-- The headers of the blocks `l` are linked in this order, the last one to `y`. -/
def Linked (hdr : Nat → Header) : List Extent → Nat → Prop
  | [], _ => True
  | a :: l, y => (hdr a.addr).ptr = first l y ∧ (hdr a.addr).size * HSIZE = a.len ∧ Linked hdr l y

section

variable {hdr hdr' : Nat → Header} {l l1 l2 : List Extent} {y : Nat} {a b : Extent}

theorem linked_append : Linked hdr (l1 ++ l2) y ↔ Linked hdr l1 (first l2 y) ∧ Linked hdr l2 y := by
  induction l1 with
  | nil => simp [Linked]
  | cons a l1 ih => simp only [cons_append, Linked, first_append, ih, and_assoc]

theorem Linked.congr (h : Linked hdr l y) (heq : ∀ e ∈ l, hdr' e.addr = hdr e.addr) :
    Linked hdr' l y := by
  induction l with
  | nil => exact trivial
  | cons a l ih =>
    rw [forall_mem_cons] at heq
    obtain ⟨hptr, hsize, hrest⟩ := h
    refine ⟨?_, ?_, ih hrest heq.2⟩
    · rw [heq.1, hptr]
    · rw [heq.1, hsize]

theorem Linked.update (h : Linked hdr l y) {x : Nat} (hx : ∀ e ∈ l, e.addr ≠ x) (v : Header) :
    Linked (Function.update hdr x v) l y :=
  h.congr fun e he => update_of_ne (hx e he) _ _

theorem Linked.size_eq (h : Linked hdr l y) (ha : a ∈ l) : (hdr a.addr).size * HSIZE = a.len := by
  induction l with
  | nil => cases ha
  | cons b l ih =>
    rcases mem_cons.mp ha with rfl | ha
    · exact h.2.1
    · exact ih h.2.2 ha

/-- A cycle can be read from any of its nodes. -/
theorem Linked.rotate (h : Linked hdr (l1 ++ l2) (first (l1 ++ l2) y)) :
    Linked hdr (l2 ++ l1) (first (l2 ++ l1) y) := by
  obtain ⟨h1, h2⟩ := linked_append.mp h
  cases l1 with
  | nil => simpa using h2
  | cons a l1 =>
    cases l2 with
    | nil => simpa [first] using h1
    | cons b l2 => exact linked_append.mpr ⟨h2, h1⟩

theorem attach_other {x q z : Nat} (hz : z ≠ x) : attach hdr x q z = hdr z := by
  unfold attach
  split <;> exact update_of_ne hz _ _

theorem ahead_eq {n : Nat} (hsize : n * HSIZE = a.len) (hstop : a.stop < 2 ^ 32) :
    ahead a.addr n = a.stop := by
  unfold ahead
  rw [hsize]
  exact Nat.mod_eq_of_lt hstop

theorem attach_linked (h : Linked hdr l y) (hsize : (hdr a.addr).size * HSIZE = a.len)
    (hstop : ∀ e ∈ a :: l, e.stop < 2 ^ 32) (hnew : ∀ e ∈ l, e.addr ≠ a.addr)
    (hend : l = [] → a.stop ≠ y) : Linked (attach hdr a.addr (first l y)) (glue a l) y := by
  have hahead := ahead_eq hsize (hstop a mem_cons_self)
  unfold attach
  rw [hahead]
  cases l with
  | nil =>
    have hne : a.stop ≠ first [] y := hend rfl
    rw [if_neg hne]
    refine ⟨?_, ?_, trivial⟩
    · rw [update_self]
    · rw [update_self]
      exact hsize
  | cons b l =>
    obtain ⟨hptr, hlen, hrest⟩ := h
    have hb := hstop b (by simp)
    rw [forall_mem_cons] at hnew
    change Linked (if a.stop = b.addr then _ else _) _ _
    rw [glue]
    by_cases htouch : a.stop = b.addr
    · rw [if_pos htouch, if_pos htouch]
      refine ⟨?_, ?_, hrest.update hnew.2 _⟩
      · change (Function.update hdr a.addr _ a.addr).ptr = _
        rw [update_self]
        exact hptr
      · change (Function.update hdr a.addr _ a.addr).size * HSIZE = a.len + b.len
        rw [update_self]
        change ((hdr a.addr).size + (hdr b.addr).size) % 2 ^ 32 * HSIZE = _
        have hsmall : (hdr a.addr).size + (hdr b.addr).size < 2 ^ 32 := by
          unfold stop HSIZE at *
          omega
        rw [Nat.mod_eq_of_lt hsmall, Nat.add_mul, hsize, hlen]
    · rw [if_neg htouch, if_neg htouch]
      refine ⟨?_, ?_, Linked.update (l := b :: l) ⟨hptr, hlen, hrest⟩ ?_ _⟩
      · rw [update_self]
      · rw [update_self]
        exact hsize
      · exact forall_mem_cons.mpr hnew

/-- A node leads to the end, or to one with a higher address. -/
theorem Linked.next (h : Linked hdr l y) (hs : Spaced l) (ha : a ∈ l) :
    (hdr a.addr).ptr = y ∨ ∃ e ∈ l, a.addr < e.addr ∧ (hdr a.addr).ptr = e.addr := by
  induction l with
  | nil => cases ha
  | cons b l ih =>
    have hpair := pairwise_cons.mp hs
    rcases mem_cons.mp ha with rfl | ha
    · cases l with
      | nil => exact .inl h.1
      | cons c l =>
        refine .inr ⟨c, by simp, ?_, h.1⟩
        exact Nat.lt_of_le_of_lt (Nat.le_add_right _ _) (hpair.1 c mem_cons_self)
    · rcases ih h.2.2 hpair.2 ha with hend | ⟨e, he, hrest⟩
      · exact .inl hend
      · exact .inr ⟨e, mem_cons_of_mem b he, hrest⟩

theorem ne_of_spaced (hs : Spaced (l1 ++ a :: l2)) : ∀ e ∈ l1 ++ l2, e.addr ≠ a.addr := by
  have hpair := pairwise_append.mp hs
  intro e he
  rcases mem_append.mp he with he | he
  · have hgap := hpair.2.2 e he a mem_cons_self
    unfold stop at hgap
    omega
  · have hgap := (pairwise_cons.mp hpair.2.1).1 e he
    unfold stop at hgap
    omega

theorem Linked.unlink (h : Linked hdr (l1 ++ a :: b :: l2) y) (hs : Spaced (l1 ++ a :: b :: l2)) :
    Linked (Function.update hdr a.addr { hdr a.addr with ptr := (hdr b.addr).ptr })
      (l1 ++ a :: l2) y := by
  have hne := ne_of_spaced hs
  obtain ⟨h1, -, hasize, hptr, -, h2⟩ := linked_append.mp h
  refine linked_append.mpr ⟨h1.update (fun e he => hne e (by simp [he])) _, ?_, ?_,
    h2.update (fun e he => hne e (by simp [he])) _⟩
  · rw [update_self]
    exact hptr
  · rw [update_self]
    exact hasize

theorem Linked.resize (h : Linked hdr (l1 ++ a :: l2) y) (hs : Spaced (l1 ++ a :: l2)) (n : Nat) :
    Linked (Function.update hdr a.addr { hdr a.addr with size := n })
      (l1 ++ ⟨a.addr, n * HSIZE⟩ :: l2) y := by
  have hne := ne_of_spaced hs
  obtain ⟨h1, hptr, -, h2⟩ := linked_append.mp h
  refine linked_append.mpr ⟨h1.update (fun e he => hne e (by simp [he])) _, ?_, ?_,
    h2.update (fun e he => hne e (by simp [he])) _⟩
  · dsimp only
    rw [update_self]
    exact hptr
  · dsimp only
    rw [update_self]

end

section

variable {hdr : Nat → Header} {l c1 c2 : List Extent} {y base bp : Nat} {a e : Extent}

/-- The two conditions that end the loop of `free`. -/
def Stops (hdr : Nat → Header) (bp p : Nat) : Prop :=
  (bp > p ∧ bp < (hdr p).ptr) ∨ (p ≥ (hdr p).ptr ∧ (bp > p ∨ bp < (hdr p).ptr))

theorem findPlace_stop {p : Nat} (h : Stops hdr bp p) (fuel : Nat) :
    findPlace hdr bp (fuel + 1) p = some p := by
  rw [findPlace]
  rcases h with h | h
  · rw [if_pos h]
  · rw [if_pos h, ite_self]

theorem findPlace_skip (h : Linked hdr l y) (hno : ∀ e ∈ l, ¬ Stops hdr bp e.addr) (fuel : Nat) :
    findPlace hdr bp (fuel + l.length) (first l y) = findPlace hdr bp fuel y := by
  induction l with
  | nil => rfl
  | cons a l ih =>
    rw [forall_mem_cons] at hno
    have ha := not_or.mp hno.1
    change findPlace hdr bp (fuel + l.length + 1) a.addr = _
    rw [findPlace, if_neg ha.1, if_neg ha.2, h.1]
    exact ih h.2.2 hno.2

theorem findPlace_leave (h : Linked hdr l y) (hno : ∀ e ∈ l, ¬ Stops hdr bp e.addr)
    (he : e ∈ l) : ∃ n, ∀ fuel, findPlace hdr bp (fuel + n) e.addr = findPlace hdr bp fuel y := by
  obtain ⟨l1, l2, rfl⟩ := append_of_mem he
  have hrest := (linked_append.mp h).2
  refine ⟨(e :: l2).length, fun fuel => ?_⟩
  exact findPlace_skip hrest (fun x hx => hno x (mem_append_right l1 hx)) fuel

/-- The loop of `free` ends at the last node below `bp`, wherever it starts. -/
theorem findPlace_ends (h : Linked hdr (c1 ++ a :: c2) base) (hs : Spaced (c1 ++ a :: c2))
    (hbase : first (c1 ++ a :: c2) 0 = base) (hc1 : ∀ x ∈ c1, x.addr < bp) (ha : a.addr < bp)
    (hc2 : ∀ x ∈ c2, bp < x.addr) (hbp : base < bp) (he : e ∈ c1 ++ a :: c2) :
    Ends (fun fuel => findPlace hdr bp fuel e.addr) a.addr := by
  obtain ⟨h1, hptr, -, h2⟩ := linked_append.mp h
  have hpair := pairwise_append.mp hs
  have hpair2 := pairwise_cons.mp hpair.2.1
  have hle : base ≤ a.addr := by
    cases c1 with
    | nil => exact Nat.le_of_eq hbase.symm
    | cons d c1 =>
      have hgap := hpair.2.2 d mem_cons_self a mem_cons_self
      change d.addr = base at hbase
      unfold stop at hgap
      omega
  have hno1 (x : Extent) (hx : x ∈ c1) : ¬ Stops hdr bp x.addr := by
    have hgap : x.addr < a.addr :=
      Nat.lt_of_le_of_lt (Nat.le_add_right _ _) (hpair.2.2 x hx a mem_cons_self)
    unfold Stops
    rcases h1.next hpair.1 hx with hnext | ⟨z, hz, hlt, hnext⟩
    · change _ = a.addr at hnext
      omega
    · have hzb := hc1 z hz
      omega
  have hno2 (x : Extent) (hx : x ∈ c2) : ¬ Stops hdr bp x.addr := by
    have hxb := hc2 x hx
    unfold Stops
    rcases h2.next hpair2.2 hx with hnext | ⟨z, hz, hlt, hnext⟩
    · omega
    · omega
  have hstop : Stops hdr bp a.addr := by
    unfold Stops
    rw [hptr]
    cases c2 with
    | nil => exact .inr ⟨hle, .inl ha⟩
    | cons d c2 => exact .inl ⟨ha, hc2 d mem_cons_self⟩
  -- the rounds up to `a`; a start behind it goes round by the first node
  have hreach : ∃ n, ∀ fuel, findPlace hdr bp (fuel + n) e.addr = findPlace hdr bp fuel a.addr := by
    rcases mem_append.mp he with he | he
    · exact findPlace_leave h1 hno1 he
    rcases mem_cons.mp he with rfl | he
    · exact ⟨0, fun _ => rfl⟩
    · obtain ⟨n, hn⟩ := findPlace_leave h2 hno2 he
      refine ⟨c1.length + n, fun fuel => ?_⟩
      have hfirst : first c1 a.addr = base := by
        rw [← hbase, first_append]
        rfl
      rw [← Nat.add_assoc, hn, ← hfirst]
      exact findPlace_skip h1 hno1 fuel
  obtain ⟨n, hn⟩ := hreach
  exact Ends.of_add hn (Ends.of_succ (findPlace_stop hstop))

theorem exists_place (hs : Spaced (a :: l)) (ha : a.addr < bp) (hne : ∀ x ∈ l, x.addr ≠ bp) :
    ∃ c1 x c2, a :: l = c1 ++ x :: c2 ∧ (∀ z ∈ c1, z.addr < bp) ∧ x.addr < bp ∧
      ∀ z ∈ c2, bp < z.addr := by
  induction l generalizing a with
  | nil => exact ⟨[], a, [], rfl, by simp, ha, by simp⟩
  | cons b l ih =>
    have hpair := pairwise_cons.mp hs
    have hpair' := pairwise_cons.mp hpair.2
    rw [forall_mem_cons] at hne
    rcases Nat.lt_or_gt_of_ne hne.1 with hlt | hgt
    · obtain ⟨c1, x, c2, heq, hc1, hx, hc2⟩ := ih hpair.2 hlt hne.2
      refine ⟨a :: c1, x, c2, by rw [heq]; rfl, ?_, hx, hc2⟩
      exact forall_mem_cons.mpr ⟨ha, hc1⟩
    · refine ⟨[], a, b :: l, rfl, by simp, ha, forall_mem_cons.mpr ⟨hgt, fun z hz => ?_⟩⟩
      have hgap := hpair'.1 z hz
      unfold stop at hgap
      omega

/-- The two halves of `free` behind its loop: the block `b` in front of the nodes behind it,
then the node `a` in front of both. -/
theorem attach_attach {b : Extent} (h : Linked hdr (c1 ++ a :: c2) base)
    (hs : Spaced (c1 ++ a :: c2)) (hsize : (hdr b.addr).size * HSIZE = b.len)
    (hstop : ∀ x ∈ c1 ++ a :: c2, x.stop < 2 ^ 32) (hbstop : b.stop < 2 ^ 32)
    (hc1 : ∀ x ∈ c1, x.addr < b.addr) (ha : a.addr < b.addr) (hc2 : ∀ x ∈ c2, b.addr < x.addr)
    (hbase : base < b.addr) :
    Linked (attach (attach hdr b.addr (hdr a.addr).ptr) a.addr b.addr)
      (c1 ++ glue a (glue b c2)) base := by
  obtain ⟨h1, hptr, hasize, h2⟩ := linked_append.mp h
  have hpair := pairwise_append.mp hs
  have hright := attach_linked h2 hsize
    (forall_mem_cons.mpr ⟨hbstop, fun x hx => hstop x (by simp [hx])⟩)
    (fun x hx => Nat.ne_of_gt (hc2 x hx)) (fun _ => by unfold stop; omega)
  have hglue : ∀ x ∈ glue b c2, a.addr < x.addr ∧ x.stop < 2 ^ 32 := by
    apply glue_all (P := fun x => a.addr < x.addr ∧ x.stop < 2 ^ 32)
    · intro x z hx hz htouch
      unfold stop at *
      simp only [join]
      omega
    · exact ⟨ha, hbstop⟩
    · exact fun x hx => ⟨Nat.lt_trans ha (hc2 x hx), hstop x (by simp [hx])⟩
  have hnotnil : glue b c2 ≠ [] := by
    obtain ⟨x, hx, _⟩ := glue_mem b c2
    exact ne_nil_of_mem hx
  have hleft := attach_linked (a := a) hright
    (by rw [attach_other (Nat.ne_of_lt ha)]; exact hasize)
    (forall_mem_cons.mpr ⟨hstop a (by simp), fun x hx => (hglue x hx).2⟩)
    (fun x hx => Nat.ne_of_gt (hglue x hx).1) (fun hnil => absurd hnil hnotnil)
  rw [first_glue, ← hptr] at hleft
  rw [linked_append, first_glue]
  refine ⟨h1.congr fun x hx => ?_, hleft⟩
  have hgap := hpair.2.2 x hx a mem_cons_self
  have hxa : x.addr ≠ a.addr := by
    unfold stop at hgap
    omega
  rw [attach_other hxa, attach_other (Nat.ne_of_lt (hc1 x hx))]

end

/-- The allocator with the free blocks `free` and the blocks `live` in use. -/
structure Heap (base : Nat) (m : Mem) (free live : List Extent) : Prop where
  base_pos : 0 < base
  linked : Linked m.hdr (⟨base, 0⟩ :: free) base
  freep : ∃ e ∈ ⟨base, 0⟩ :: free, e.addr = m.freep
  layout : Layout (base + HSIZE) m.brk free live
  brk : m.brk < 2 ^ 32
  sizes : ∀ e ∈ live, (m.hdr e.addr).size * HSIZE = e.len
  units : total free + total live = m.obtained

namespace Heap

variable {base : Nat} {m : Mem} {free live live' : List Extent} {b : Extent}

theorem perm (h : Heap base m free live) (hperm : live.Perm live') : Heap base m free live' :=
  ⟨h.base_pos, h.linked, h.freep, h.layout.perm hperm, h.brk,
    fun e he => h.sizes e (hperm.mem_iff.mpr he), by rw [← total_perm hperm]; exact h.units⟩

theorem spaced (h : Heap base m free live) : Spaced (⟨base, 0⟩ :: free) := by
  refine pairwise_cons.mpr ⟨fun e he => ?_, h.layout.spaced⟩
  have hbound := (h.layout.bound e (mem_append_left live he)).1
  change base + 0 < e.addr
  unfold HSIZE at hbound
  omega

theorem node_stop (h : Heap base m free live) {e : Extent} (he : e ∈ ⟨base, 0⟩ :: free) :
    e.stop < 2 ^ 32 := by
  have hle := h.layout.le
  have hbrk := h.brk
  rcases mem_cons.mp he with rfl | he
  · change base + 0 < 2 ^ 32
    omega
  · exact Nat.lt_of_le_of_lt (h.layout.bound e (mem_append_left _ he)).2 hbrk

theorem live_lower (h : Heap base m free live) {e : Extent} (he : e ∈ live) : base < e.addr := by
  have hbound := (h.layout.bound e (mem_append_right free he)).1
  unfold HSIZE at hbound
  omega

theorem node_ne (h : Heap base m free live) {e x : Extent} (he : e ∈ ⟨base, 0⟩ :: free)
    (hx : x ∈ live) : e.addr ≠ x.addr := by
  rcases mem_cons.mp he with rfl | he
  · exact Nat.ne_of_lt (h.live_lower hx)
  · have happart := h.layout.apart e he x hx
    have hpos := h.layout.pos e (mem_append_left _ he)
    have hxpos := h.layout.pos x (mem_append_right _ hx)
    unfold Apart stop at happart
    omega

theorem insert_base (h : Heap base m free (b :: live)) :
    Extents.insert b (⟨base, 0⟩ :: free) = ⟨base, 0⟩ :: Extents.insert b free := by
  rw [Extents.insert, if_neg (Nat.not_lt.mpr (Nat.le_of_lt (h.live_lower mem_cons_self)))]
  apply glue_eq_cons
  intro y hy
  cases hrow : Extents.insert b free with
  | nil => exact hy
  | cons x l =>
    have hx := (h.layout.release.bound x (by rw [hrow]; simp)).1
    change base + 0 < x.addr
    unfold HSIZE at hx
    omega

theorem free_ends (h : Heap base m free (b :: live)) :
    ∃ m', Ends (fun fuel => Umalloc.free fuel m (ahead b.addr 1)) m' ∧
      Heap base m' (Extents.insert b free) live := by
  have hlay := h.layout
  have hbound := hlay.bound b (by simp)
  have hsize := h.sizes b mem_cons_self
  have hbstop : b.stop < 2 ^ 32 := Nat.lt_of_le_of_lt hbound.2 h.brk
  have hbp : (ahead b.addr 1 + (2 ^ 32 - HSIZE)) % 2 ^ 32 = b.addr := by
    have hlen := hlay.pos b (by simp)
    unfold ahead stop HSIZE at *
    omega
  have hbase := h.live_lower mem_cons_self
  obtain ⟨c1, a, c2, heq, hc1, ha, hc2⟩ := exists_place h.spaced hbase
    fun x hx => h.node_ne (mem_cons_of_mem _ hx) mem_cons_self
  have hnode {x : Extent} (hx : x ∈ c1 ++ a :: c2) : x ∈ (⟨base, 0⟩ :: free : List Extent) :=
    heq ▸ hx
  have hlinked := h.linked
  have hspaced := h.spaced
  have hfirst : first (⟨base, 0⟩ :: free) 0 = base := rfl
  obtain ⟨e, he, hstart⟩ := h.freep
  rw [heq] at hlinked hspaced hfirst he
  obtain ⟨n, hn⟩ := findPlace_ends hlinked hspaced hfirst hc1 ha hc2 hbase he
  have hjoined := attach_attach hlinked hspaced hsize
    (fun x hx => h.node_stop (hnode hx)) hbstop hc1 ha hc2 hbase
  have hrow := Extents.insert_append (b := b) hspaced (fun x hx => Nat.le_of_lt (hc1 x hx))
    (Nat.le_of_lt ha) hc2
  rw [← heq, h.insert_base] at hrow
  refine ⟨{ m with
    hdr := attach (attach m.hdr b.addr (m.hdr a.addr).ptr) a.addr b.addr
    freep := a.addr }, ⟨n, fun fuel hfuel => ?_⟩, ?_⟩
  · have hplace := hn fuel hfuel
    dsimp only at hplace ⊢
    unfold Umalloc.free
    rw [hbp, ← hstart]
    dsimp only
    rw [hplace]
  · refine ⟨h.base_pos, ?_, ?_, hlay.release, h.brk, fun x hx => ?_, ?_⟩
    · rw [hrow]
      exact hjoined
    · obtain ⟨x, hx, hxa⟩ := glue_mem a (glue b c2)
      exact ⟨x, by rw [hrow]; exact mem_append_right c1 hx, hxa⟩
    · have hxa := h.node_ne (hnode (mem_append_right c1 mem_cons_self))
        (mem_cons_of_mem b hx)
      have hxb : x.addr ≠ b.addr := by
        have happart := (pairwise_cons.mp hlay.live).1 x hx
        have hpos := hlay.pos x (by simp [hx])
        have hbpos := hlay.pos b (by simp)
        unfold Apart stop at happart
        omega
      dsimp only
      rw [attach_other hxa.symm, attach_other hxb]
      exact h.sizes x (mem_cons_of_mem b hx)
    · have hunits := h.units
      rw [total_cons] at hunits
      rw [total_insert]
      change _ = m.obtained
      omega

end Heap

end Xv6.Umalloc

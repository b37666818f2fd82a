import Xv6.Umalloc.FreeList

/-!
`malloc` goes round the free list once. If no block is large enough it gets memory from
`sbrk`, which `free` puts into the list, and the second round finds it.
-/

namespace Xv6.Umalloc

open Lib Extents Extent Function List

/-- From the end `brk`, memory of its own for every request of a positive number of bytes, or
the error. -/
def SbrkAt (answer : Nat → Nat → Nat) (brk : Nat) : Prop :=
  ∀ n, 0 < n → n < 2 ^ 31 → answer brk n = FAILED ∨ (brk ≤ answer brk n ∧ answer brk n + n < 2 ^ 32)

/-- The same at every end of the memory. -/
def Sbrk (answer : Nat → Nat → Nat) : Prop := ∀ brk, SbrkAt answer brk

theorem newBreak_eq {p n : Nat} (hn : n < 2 ^ 31) (hstop : p + n < 2 ^ 32) :
    newBreak p n = p + n := by
  unfold newBreak
  rw [if_pos hn, Nat.mod_eq_of_lt hstop]

/-- The bytes that `morecore` asks of `sbrk`. -/
def request (nunits : Nat) : Nat := (if nunits < 4096 then 4096 else nunits) * HSIZE % 2 ^ 32

/-- The end of the memory behind a call of `malloc`: `sbrk` is called once at most. -/
def Grown (answer : Nat → Nat → Nat) (nunits brk brk' : Nat) : Prop :=
  brk' = brk ∨ brk' = newBreak (answer brk (request nunits)) (request nunits)

theorem free_brk {fuel ap : Nat} {m m' : Mem} (h : free fuel m ap = some m') : m'.brk = m.brk := by
  unfold free at h
  dsimp only at h
  split at h
  · cases h
  · cases h
    rfl

theorem take_brk (m : Mem) (prevp p nunits : Nat) : (take m prevp p nunits).2.brk = m.brk := by
  unfold take
  split <;> rfl

namespace Heap

variable {base : Nat} {m : Mem} {free live : List Extent} {answer : Nat → Nat → Nat}
variable {nunits : Nat} {t : Extent}

/-- `freep` is not null once the list exists, so `free` never starts from a null pointer. -/
theorem freep_pos (h : Heap base m free live) : 0 < m.freep := by
  obtain ⟨e, he, heq⟩ := h.freep
  have hbase := h.base_pos
  rw [← heq]
  rcases mem_cons.mp he with rfl | he
  · exact hbase
  · have hbound := (h.layout.bound e (mem_append_left live he)).1
    omega

/-- A node begins below the end of the memory. -/
theorem node_lt (h : Heap base m free live) {e : Extent} (he : e ∈ ⟨base, 0⟩ :: free ++ live) :
    e.addr < m.brk := by
  rcases mem_cons.mp he with rfl | he
  · have hle := h.layout.le
    change base < m.brk
    unfold HSIZE at hle
    omega
  · have hpos := h.layout.pos e he
    have hbound := (h.layout.bound e he).2
    unfold stop at hbound
    omega

/-- The memory that `sbrk` gives is a block in use at first: `morecore` writes its size and
hands it to `free`. -/
theorem grow (h : Heap base m free live) {p k : Nat} (hp : m.brk ≤ p)
    (hk : 0 < k) (hstop : p + k * HSIZE < 2 ^ 32) :
    Heap base { m with
      hdr := update m.hdr p { m.hdr p with size := k }
      brk := p + k * HSIZE
      obtained := m.obtained + k * HSIZE } free (⟨p, k * HSIZE⟩ :: live) := by
  have hne (e : Extent) (he : e ∈ ⟨base, 0⟩ :: free ++ live) : e.addr ≠ p :=
    Nat.ne_of_lt (Nat.lt_of_lt_of_le (h.node_lt he) hp)
  refine ⟨h.base_pos, ?_, h.freep, ?_, hstop, ?_, ?_⟩
  · exact h.linked.update (fun e he => hne e (mem_append_left live he)) _
  · exact h.layout.extend hp (Nat.mul_pos hk (by decide))
  · rw [forall_mem_cons]
    constructor
    · dsimp only
      rw [update_self]
    · intro e he
      dsimp only
      rw [update_of_ne (hne e (mem_append_right _ he))]
      exact h.sizes e he
  · have hunits := h.units
    rw [total_cons]
    dsimp only
    omega

/-- `morecore` returns null and changes nothing, or a block of the row is then large enough
for the units asked for. -/
theorem morecore_ends (h : Heap base m free live) (hsbrk : SbrkAt answer m.brk)
    (hn : nunits * HSIZE < 2 ^ 31) :
    Ends (fun fuel => morecore fuel answer m nunits) (0, m) ∨
    ∃ m' free', Ends (fun fuel => morecore fuel answer m nunits) (m'.freep, m') ∧
      Heap base m' free' live ∧ Grown answer nunits m.brk m'.brk ∧
      ∃ e ∈ free', nunits * HSIZE ≤ e.len := by
  obtain ⟨k, hk, hpos, hle, hsmall⟩ : ∃ k, (if nunits < 4096 then 4096 else nunits) = k ∧
      0 < k ∧ nunits ≤ k ∧ k * HSIZE < 2 ^ 31 := by
    refine ⟨_, rfl, ?_⟩
    unfold HSIZE at *
    split <;> omega
  have hbytes : k * HSIZE % 2 ^ 32 = k * HSIZE := Nat.mod_eq_of_lt (by omega)
  rcases hsbrk (k * HSIZE) (Nat.mul_pos hpos (by decide)) hsmall with hfail | ⟨hp, hstop⟩
  · refine .inl ⟨0, fun fuel _ => ?_⟩
    simp only [morecore, sbrk, hk, hbytes, hfail, if_true]
  · have hne : answer m.brk (k * HSIZE) ≠ FAILED := by
      have hbytes_pos := Nat.mul_pos hpos (show 0 < HSIZE by decide)
      unfold FAILED
      omega
    obtain ⟨m', ⟨n, hn⟩, hheap⟩ := (h.grow hp hpos hstop).free_ends
    refine .inr ⟨m', _, ⟨n, fun fuel hfuel => ?_⟩, hheap, .inr ?_, ?_⟩
    · have hfree := hn fuel hfuel
      dsimp only at hfree
      simp only [morecore, sbrk, hk, hbytes, if_neg hne, newBreak_eq hsmall hstop,
        Nat.add_sub_cancel_left, hfree]
    · rw [free_brk (hn n (Nat.le_refl n)), request, hk, hbytes, newBreak_eq hsmall hstop]
    · obtain ⟨e, he, hlen⟩ := insert_len ⟨answer m.brk (k * HSIZE), k * HSIZE⟩ free
      exact ⟨e, he, Nat.le_trans (Nat.mul_le_mul_right HSIZE hle) hlen⟩

end Heap

section

variable {m : Mem} {answer : Nat → Nat → Nat} {nunits y : Nat} {l : List Extent}

/-- The loop passes a row of blocks that are too small. -/
theorem mallocLoop_skip (h : Linked m.hdr l y)
    (hno : ∀ e ∈ l, e.len < nunits * HSIZE ∧ e.addr ≠ m.freep) (prevp : Nat)
    (hprev : (m.hdr prevp).ptr = first l y) :
    ∃ prevp', (prevp' = prevp ∨ ∃ e ∈ l, e.addr = prevp') ∧ (m.hdr prevp').ptr = y ∧
      ∀ fuel, mallocLoop answer nunits (fuel + l.length) m prevp (first l y) =
        mallocLoop answer nunits fuel m prevp' y := by
  induction l generalizing prevp with
  | nil => exact ⟨prevp, .inl rfl, hprev, fun _ => rfl⟩
  | cons a l ih =>
    rw [forall_mem_cons] at hno
    obtain ⟨hptr, hsize, hrest⟩ := h
    obtain ⟨prevp', hmem, hnext, hloop⟩ := ih hrest hno.2 a.addr hptr
    refine ⟨prevp', .inr ?_, hnext, fun fuel => ?_⟩
    · rcases hmem with rfl | ⟨e, he, heq⟩
      · exact ⟨a, mem_cons_self, rfl⟩
      · exact ⟨e, mem_cons_of_mem a he, heq⟩
    · have hsmall : ¬ (m.hdr a.addr).size ≥ nunits := by
        have hlen := hno.1.1
        unfold HSIZE at *
        omega
      change mallocLoop answer nunits (fuel + l.length + 1) m prevp a.addr = _
      rw [mallocLoop, if_neg hsmall, if_neg hno.1.2, hptr]
      exact hloop fuel

theorem mallocLoop_fits {prevp p : Nat} (h : (m.hdr p).size ≥ nunits) (fuel : Nat) :
    mallocLoop answer nunits (fuel + 1) m prevp p = some (take m prevp p nunits) := by
  rw [mallocLoop, if_pos h]

end

namespace Heap

variable {base : Nat} {m : Mem} {free live : List Extent} {answer : Nat → Nat → Nat}
variable {nunits : Nat} {t : Extent}

/-- The size of a node in its header is that of its extent. -/
theorem fits_iff (h : Heap base m free live) {e : Extent} (he : e ∈ ⟨base, 0⟩ :: free) :
    (m.hdr e.addr).size ≥ nunits ↔ nunits * HSIZE ≤ e.len := by
  have hsize := h.linked.size_eq he
  unfold HSIZE at *
  omega

/-- The loop from `freep` ends at a block that is large enough. -/
def Finds (base : Nat) (m : Mem) (free : List Extent) (answer : Nat → Nat → Nat)
    (nunits : Nat) : Prop :=
  ∃ prev ∈ ⟨base, 0⟩ :: free, ∃ t ∈ ⟨base, 0⟩ :: free, nunits * HSIZE ≤ t.len ∧
    (m.hdr prev.addr).ptr = t.addr ∧
    Ends (fun fuel => mallocLoop answer nunits fuel m m.freep (m.hdr m.freep).ptr)
      (take m prev.addr t.addr nunits)

/-- One round from `freep` finds a block, or comes back to `freep` and all are too small. -/
theorem scan (h : Heap base m free live) (answer : Nat → Nat → Nat) (nunits : Nat) :
    Finds base m free answer nunits ∨
    ((∀ e ∈ ⟨base, 0⟩ :: free, e.len < nunits * HSIZE) ∧ ∃ n prevp, ∀ fuel,
      mallocLoop answer nunits (fuel + n) m m.freep (m.hdr m.freep).ptr =
        mallocLoop answer nunits fuel m prevp m.freep) := by
  obtain ⟨f, hf, hfreep⟩ := h.freep
  obtain ⟨c1, c2, heq⟩ := append_of_mem hf
  have hcycle : Linked m.hdr (⟨base, 0⟩ :: free) (first (⟨base, 0⟩ :: free) 0) := h.linked
  have hspaced := h.spaced
  have hnode {e : Extent} (he : e ∈ c2 ++ c1) : e ∈ (⟨base, 0⟩ :: free : List Extent) := by
    rw [heq]
    rcases mem_append.mp he with he | he
    · exact mem_append_right c1 (mem_cons_of_mem f he)
    · exact mem_append_left _ he
  rw [heq] at hspaced
  rw [heq, append_cons] at hcycle
  have hround := hcycle.rotate
  rw [← append_assoc] at hround
  obtain ⟨hrow, hptr, -, -⟩ := linked_append.mp hround
  rw [first_append] at hptr
  change Linked m.hdr (c2 ++ c1) f.addr at hrow
  change (m.hdr f.addr).ptr = first (c2 ++ c1) f.addr at hptr
  have hother (e : Extent) (he : e ∈ c2 ++ c1) : e.addr ≠ m.freep := by
    have hpair := pairwise_append.mp hspaced
    rw [← hfreep]
    rcases mem_append.mp he with he | he
    · have hgap := (pairwise_cons.mp hpair.2.1).1 e he
      unfold stop at hgap
      omega
    · have hgap := hpair.2.2 e he f mem_cons_self
      unfold stop at hgap
      omega
  -- a node before which the loop comes to, in the row `r` of those that are too small
  have hreach {r : List Extent} {y : Nat} (hr : Linked m.hdr r y)
      (hsub : ∀ e ∈ r, e ∈ c2 ++ c1 ∧ e.len < nunits * HSIZE)
      (hfirst : (m.hdr m.freep).ptr = first r y) :
      ∃ prev ∈ ⟨base, 0⟩ :: free, (m.hdr prev.addr).ptr = y ∧ ∀ fuel,
        mallocLoop answer nunits (fuel + r.length) m m.freep (m.hdr m.freep).ptr =
          mallocLoop answer nunits fuel m prev.addr y := by
    obtain ⟨prevp, hmem, hnext, hloop⟩ := mallocLoop_skip hr
      (fun e he => ⟨(hsub e he).2, hother e (hsub e he).1⟩) m.freep hfirst
    rw [hfirst]
    rcases hmem with rfl | ⟨e, he, rfl⟩
    · rw [← hfreep] at hnext hloop ⊢
      exact ⟨f, hf, hnext, hloop⟩
    · exact ⟨e, hnode (hsub e he).1, hnext, hloop⟩
  have htake {prev t : Extent} {n : Nat} (ht : t ∈ (⟨base, 0⟩ :: free : List Extent))
      (hfit : nunits * HSIZE ≤ t.len)
      (hloop : ∀ fuel, mallocLoop answer nunits (fuel + n) m m.freep (m.hdr m.freep).ptr =
        mallocLoop answer nunits fuel m prev.addr t.addr) :
      Ends (fun fuel => mallocLoop answer nunits fuel m m.freep (m.hdr m.freep).ptr)
        (take m prev.addr t.addr nunits) :=
    Ends.of_add hloop (Ends.of_succ (mallocLoop_fits ((h.fits_iff ht).mpr hfit)))
  cases hfind : (c2 ++ c1).find? fun e => nunits * HSIZE ≤ e.len with
  | some t =>
    obtain ⟨hfit, r1, r2, hr, hsmall⟩ := List.find?_eq_some_iff_append.mp hfind
    rw [hr] at hrow hptr
    rw [first_append] at hptr
    obtain ⟨prev, hprev, hnext, hloop⟩ := hreach (linked_append.mp hrow).1
      (fun e he => ⟨by rw [hr]; exact mem_append_left _ he, by simpa using hsmall e he⟩)
      (by rw [← hfreep]; exact hptr)
    have ht : t ∈ (⟨base, 0⟩ :: free : List Extent) :=
      hnode (by rw [hr]; exact mem_append_right r1 mem_cons_self)
    have hfit' : nunits * HSIZE ≤ t.len := by simpa using hfit
    exact .inl ⟨prev, hprev, t, ht, hfit', hnext, htake ht hfit' hloop⟩
  | none =>
    have hsmall (e : Extent) (he : e ∈ c2 ++ c1) : e.len < nunits * HSIZE := by
      simpa using List.find?_eq_none.mp hfind e he
    obtain ⟨prev, hprev, hnext, hloop⟩ := hreach hrow (fun e he => ⟨he, hsmall e he⟩)
      (by rw [← hfreep]; exact hptr)
    rcases Nat.lt_or_ge f.len (nunits * HSIZE) with hlt | hfit
    · refine .inr ⟨fun e he => ?_, _, prev.addr, by rw [hfreep] at hloop; exact hloop⟩
      rw [heq, mem_append, mem_cons] at he
      rcases he with he | rfl | he
      · exact hsmall e (mem_append_right c2 he)
      · exact hlt
      · exact hsmall e (mem_append_left c1 he)
    · exact .inl ⟨prev, hprev, f, hf, hfit, hnext, htake hf hfit hloop⟩

/-- The block behind a node, in the row of the free blocks. -/
theorem split_at (h : Heap base m free live) {prev : Extent} (hprev : prev ∈ ⟨base, 0⟩ :: free)
    (ht : t ∈ ⟨base, 0⟩ :: free) (hpos : 0 < t.len) (hnext : (m.hdr prev.addr).ptr = t.addr) :
    ∃ c1 l1 l2, free = l1 ++ t :: l2 ∧ ⟨base, 0⟩ :: l1 = c1 ++ [prev] := by
  have htfree : t ∈ free := by
    rcases mem_cons.mp ht with rfl | ht
    · exact absurd hpos (Nat.lt_irrefl 0)
    · exact ht
  obtain ⟨c1, c2, heq⟩ := append_of_mem hprev
  have hlinked := h.linked
  rw [heq] at hlinked
  obtain ⟨-, hptr, -, hrest⟩ := linked_append.mp hlinked
  rw [hnext] at hptr
  cases c2 with
  | nil =>
    have hbound := (h.layout.bound t (mem_append_left live htfree)).1
    change t.addr = base at hptr
    unfold HSIZE at hbound
    omega
  | cons d c2 =>
    change t.addr = d.addr at hptr
    have hd : d ∈ (⟨base, 0⟩ :: free : List Extent) := by
      rw [heq]
      simp
    have hlen : t.len = d.len := by
      rw [← h.linked.size_eq ht, ← h.linked.size_eq hd, hptr]
    obtain rfl : t = d := by
      cases t
      cases d
      simp only at hptr hlen
      rw [hptr, hlen]
    cases c1 with
    | nil =>
      obtain ⟨rfl, rfl⟩ := List.cons.inj heq
      exact ⟨[], [], c2, rfl, rfl⟩
    | cons b c1 =>
      obtain ⟨rfl, rfl⟩ := List.cons.inj heq
      exact ⟨⟨base, 0⟩ :: c1, c1 ++ [prev], c2, by simp, rfl⟩

section

variable {prev : Extent} {c1 l1 l2 : List Extent}

theorem row_eq (hc1 : ⟨base, 0⟩ :: l1 = c1 ++ [prev]) (l : List Extent) :
    (⟨base, 0⟩ :: (l1 ++ l) : List Extent) = c1 ++ prev :: l := by
  rw [← cons_append, hc1, append_assoc]
  rfl

/-- The block `t` behind `prev` leaves the list. -/
theorem takeWhole (h : Heap base m (l1 ++ t :: l2) live) (hc1 : ⟨base, 0⟩ :: l1 = c1 ++ [prev]) :
    Heap base { m with
      hdr := update m.hdr prev.addr { m.hdr prev.addr with ptr := (m.hdr t.addr).ptr }
      freep := prev.addr } (l1 ++ l2) (t :: live) := by
  have hlinked := h.linked
  have hspaced := h.spaced
  have hunits := h.units
  have hsize := h.linked.size_eq (a := t) (by simp)
  rw [row_eq hc1] at hlinked hspaced
  rw [total_append, total_cons] at hunits
  have hprev : prev ∈ (⟨base, 0⟩ :: (l1 ++ t :: l2) : List Extent) := by
    rw [row_eq hc1]
    exact mem_append_right c1 mem_cons_self
  have hprevt : t.addr ≠ prev.addr := ne_of_spaced hspaced t (by simp)
  refine ⟨h.base_pos, ?_, ⟨prev, ?_, rfl⟩, h.layout.giveAll, h.brk, ?_, ?_⟩
  · rw [row_eq hc1]
    exact hlinked.unlink hspaced
  · rw [row_eq hc1]
    exact mem_append_right c1 mem_cons_self
  · rw [forall_mem_cons]
    refine ⟨?_, fun e he => ?_⟩
    · dsimp only
      rw [update_of_ne hprevt]
      exact hsize
    · dsimp only
      rw [update_of_ne (h.node_ne hprev he).symm]
      exact h.sizes e he
  · rw [total_append, total_cons]
    dsimp only
    omega

/-- The block `t` gives its last units and stays in the list with the rest. -/
theorem takeTail (h : Heap base m (l1 ++ t :: l2) live)
    (hc1 : ⟨base, 0⟩ :: l1 = c1 ++ [prev]) (hn : 0 < nunits) (hmore : nunits * HSIZE < t.len)
    {p : Nat} (hp : p = t.addr + (t.len - nunits * HSIZE)) {hdr : Nat → Header}
    (hhdr : hdr = update m.hdr t.addr
      { m.hdr t.addr with size := (m.hdr t.addr).size - nunits }) :
    Heap base { m with
      hdr := update hdr p { hdr p with size := nunits }
      freep := prev.addr } (l1 ++ ⟨t.addr, t.len - nunits * HSIZE⟩ :: l2)
      (⟨p, nunits * HSIZE⟩ :: live) := by
  subst hp
  have ht : t ∈ (⟨base, 0⟩ :: (l1 ++ t :: l2) : List Extent) := by simp
  have hrest : ((m.hdr t.addr).size - nunits) * HSIZE = t.len - nunits * HSIZE := by
    rw [Nat.sub_mul, h.linked.size_eq ht]
  have hlinked := h.linked
  have hspaced := h.spaced
  have hunits := h.units
  rw [row_eq hc1, append_cons] at hlinked hspaced
  rw [total_append, total_cons] at hunits
  have hresized := hlinked.resize hspaced ((m.hdr t.addr).size - nunits)
  rw [hrest, ← append_cons, ← hhdr] at hresized
  have hpos : 0 < nunits * HSIZE := Nat.mul_pos hn (by decide)
  have hlay := h.layout.giveTail hpos hmore
  -- the new header is inside the block, where no other header is
  have hnew (e : Extent) (he : e ∈ c1 ++ prev :: ⟨t.addr, t.len - nunits * HSIZE⟩ :: l2) :
      e.addr ≠ t.addr + (t.len - nunits * HSIZE) := by
    rw [← row_eq hc1] at he
    rcases mem_cons.mp he with rfl | he
    · have hbound := (hlay.bound _ (mem_append_right _ mem_cons_self)).1
      dsimp only at hbound ⊢
      unfold HSIZE at *
      omega
    · have happart := hlay.apart e he _ mem_cons_self
      have hepos := hlay.pos e (mem_append_left _ he)
      unfold Apart stop at happart
      dsimp only at happart
      omega
  refine ⟨h.base_pos, ?_, ⟨prev, ?_, rfl⟩, hlay, h.brk, ?_, ?_⟩
  · rw [row_eq hc1]
    exact hresized.update hnew _
  · rw [row_eq hc1]
    exact mem_append_right c1 mem_cons_self
  · rw [forall_mem_cons]
    refine ⟨?_, fun e he => ?_⟩
    · dsimp only
      rw [update_self]
    · have happart := (pairwise_cons.mp hlay.live).1 e he
      have hepos := hlay.pos e (by simp [he])
      have hne : e.addr ≠ t.addr + (t.len - nunits * HSIZE) := by
        unfold Apart stop at happart
        dsimp only at happart
        omega
      dsimp only
      rw [update_of_ne hne, hhdr, update_of_ne (h.node_ne ht he).symm]
      exact h.sizes e he
  · rw [total_append, total_cons, total_cons]
    dsimp only
    omega

/-- The block that is found comes into use, whole or with its last units. -/
theorem take_heap (h : Heap base m free live) (hprev : prev ∈ ⟨base, 0⟩ :: free)
    (ht : t ∈ ⟨base, 0⟩ :: free) (hn : 0 < nunits) (hfit : nunits * HSIZE ≤ t.len)
    (hnext : (m.hdr prev.addr).ptr = t.addr) :
    ∃ b free', (take m prev.addr t.addr nunits).1 = b.addr + HSIZE ∧ b.len = nunits * HSIZE ∧
      Heap base (take m prev.addr t.addr nunits).2 free' (b :: live) := by
  have hpos : 0 < nunits * HSIZE := Nat.mul_pos hn (by decide)
  have hstop := h.node_stop ht
  have hsize := h.linked.size_eq ht
  obtain ⟨c1, l1, l2, rfl, hc1⟩ := h.split_at hprev ht (Nat.lt_of_lt_of_le hpos hfit) hnext
  unfold take
  by_cases hwhole : (m.hdr t.addr).size = nunits
  · rw [if_pos hwhole]
    refine ⟨t, l1 ++ l2, ?_, by rw [← hsize, hwhole], h.takeWhole hc1⟩
    change ahead t.addr 1 = _
    unfold ahead stop HSIZE at *
    omega
  · have hmore : nunits * HSIZE < t.len := by
      unfold HSIZE at *
      omega
    have hp : ahead t.addr ((m.hdr t.addr).size - nunits) = t.addr + (t.len - nunits * HSIZE) := by
      unfold ahead
      rw [Nat.sub_mul, hsize]
      unfold stop at hstop
      exact Nat.mod_eq_of_lt (by omega)
    rw [if_neg hwhole]
    refine ⟨_, _, ?_, rfl, h.takeTail hc1 hn hmore hp rfl⟩
    change ahead (ahead t.addr ((m.hdr t.addr).size - nunits)) 1 = _
    rw [hp]
    unfold ahead stop HSIZE at *
    dsimp only
    omega

end

/-- What a call of `malloc` leaves: a null pointer, or one more block in use. -/
def Result (base nunits : Nat) (live : List Extent) (r : Nat × Mem) : Prop :=
  (r.1 = 0 ∧ ∃ free, Heap base r.2 free live) ∨
  ∃ b free, r.1 = b.addr + HSIZE ∧ b.len = nunits * HSIZE ∧ Heap base r.2 free (b :: live)

theorem Finds.result (h : Heap base m free live) (hn : 0 < nunits)
    (hfinds : Finds base m free answer nunits) :
    ∃ r, Ends (fun fuel => mallocLoop answer nunits fuel m m.freep (m.hdr m.freep).ptr) r ∧
      Result base nunits live r ∧ r.2.brk = m.brk := by
  obtain ⟨prev, hprev, t, ht, hlen, hnext, hends⟩ := hfinds
  obtain ⟨b, free', hres⟩ := h.take_heap hprev ht hn hlen hnext
  exact ⟨_, hends, .inr ⟨b, free', hres⟩, take_brk m _ _ _⟩

/-- The loop ends for every state of the heap: it asks for memory once at most. -/
theorem mallocLoop_ends (h : Heap base m free live) (hsbrk : SbrkAt answer m.brk)
    (hn : 0 < nunits) (hsmall : nunits * HSIZE < 2 ^ 31) :
    ∃ r, Ends (fun fuel => mallocLoop answer nunits fuel m m.freep (m.hdr m.freep).ptr) r ∧
      Result base nunits live r ∧ Grown answer nunits m.brk r.2.brk := by
  rcases h.scan answer nunits with hfinds | ⟨hnone, n, prevp, hround⟩
  · obtain ⟨r, hends, hres, hbrk⟩ := hfinds.result h hn
    exact ⟨r, hends, hres, .inl hbrk⟩
  have hlast : ¬ (m.hdr m.freep).size ≥ nunits := by
    obtain ⟨f, hf, hfreep⟩ := h.freep
    rw [← hfreep, h.fits_iff hf]
    exact Nat.not_le.mpr (hnone f hf)
  rcases h.morecore_ends hsbrk hsmall with ⟨k, hk⟩ | ⟨m', free', ⟨k, hk⟩, hheap, hgrown, hbig⟩
  · refine ⟨(0, m), Ends.of_add hround ⟨k + 1, fun fuel hfuel => ?_⟩, .inl ⟨rfl, free, h⟩,
      .inl rfl⟩
    obtain ⟨fuel, rfl⟩ := Nat.exists_eq_add_of_le' (Nat.le_of_add_left_le hfuel)
    have hmore := hk fuel (by omega)
    dsimp only at hmore ⊢
    rw [mallocLoop, if_neg hlast, if_pos rfl, hmore]
    rfl
  · -- the second round finds the block that `free` has put into the list
    have hfinds : Finds base m' free' answer nunits := by
      rcases hheap.scan answer nunits with hfinds | ⟨hnone', -⟩
      · exact hfinds
      · obtain ⟨e, he, hlen⟩ := hbig
        exact absurd hlen (Nat.not_le.mpr (hnone' e (mem_cons_of_mem _ he)))
    obtain ⟨r, ⟨k', hk'⟩, hres, hbrk⟩ := hfinds.result hheap hn
    rw [← hbrk] at hgrown
    refine ⟨r, Ends.of_add hround ⟨k + k' + 1, fun fuel hfuel => ?_⟩, hres, hgrown⟩
    obtain ⟨fuel, rfl⟩ := Nat.exists_eq_add_of_le' (Nat.le_of_add_left_le hfuel)
    have hmore := hk fuel (by omega)
    have hloop := hk' fuel (by omega)
    dsimp only at hmore hloop ⊢
    rw [mallocLoop, if_neg hlast, if_pos rfl, hmore]
    exact (if_neg (Nat.ne_of_gt hheap.freep_pos)).trans hloop

end Heap

end Xv6.Umalloc

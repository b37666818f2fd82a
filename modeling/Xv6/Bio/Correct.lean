import Xv6.Bio.Invariant

/-!
Correctness of the buffer cache. The list through `head` is ordered by the last
release that left a buffer unreferenced. That is not the last release: a buffer
that another process waits for stays where it is. For the buffers that `bget`
may recycle the two agree.
-/

namespace Xv6.Bio

open Lib Relation Finset Option

variable {τ δ : Type*}

/-- What a step does with the buffer `u`. -/
inductive Change (c c' : Cache τ δ) (u : BufIdx) : Prop where
  /-- the block stays, and a dirty buffer stays dirty -/
  | keep (hsame : (c'.buf u).SameBlock (c.buf u))
      (hdirty : (c.buf u).dirty = true → (c'.buf u).dirty = true)
  /-- the bytes of a dirty buffer go to the disk -/
  | write (hsame : (c'.buf u).SameBlock (c.buf u))
      (hdisk : c'.disk (c.buf u).dev (c.buf u).blockno = (c.buf u).data)
  /-- the least recently freed buffer goes to another block -/
  | recycle (hfree : (c.buf u).free = true)
      (holdest : ∀ b, (c.buf b).free = true → c.freedAt u ≤ c.freedAt b)

theorem change_of_buf {c c' : Cache τ δ} {b u : BufIdx} {x : Buf δ}
    (hbuf : c'.buf = (c.setBuf b x).buf) (hb : u = b → Change c c' u) : Change c c' u := by
  by_cases hub : u = b
  · exact hb hub
  · have hu : c'.buf u = c.buf u := by rw [hbuf, setBuf_buf, if_neg hub]
    exact .keep (by rw [hu]; exact ⟨rfl, rfl⟩) (by rw [hu]; exact id)

theorem change_of_keep {c c' : Cache τ δ} {b u : BufIdx} {x : Buf δ}
    (hbuf : c'.buf = (c.setBuf b x).buf) (hsame : x.SameBlock (c.buf b))
    (hdirty : (c.buf b).dirty = true → x.dirty = true) : Change c c' u := by
  refine change_of_buf hbuf fun hub => ?_
  have hx : c'.buf u = x := by rw [hbuf, setBuf_buf, if_pos hub]
  subst hub
  exact .keep (by rw [hx]; exact hsame) (by rw [hx]; exact hdirty)

theorem change_iderw (c : Cache τ δ) (b u : BufIdx) : Change c (c.iderw b) u := by
  refine change_of_buf (b := b) rfl fun hub => ?_
  subst hub
  have hbuf := iderw_buf c u u
  rw [if_pos rfl] at hbuf
  have hsame : ((c.iderw u).buf u).SameBlock (c.buf u) := by
    rw [hbuf]
    exact ⟨rfl, memIderw_blockno _ _⟩
  by_cases hdirty : (c.buf u).dirty = true
  · refine .write hsame ?_
    simp [Cache.iderw, Disk.memIderw, hdirty]
  · exact .keep hsame fun h => absurd h hdirty

theorem Sound.change [Fintype τ] [DecidableEq τ] {disk : Nat → Nat → δ} {s t : State τ δ}
    (h : Sound disk s) (hstep : s.Step t) (u : BufIdx) : Change s.cache t.cache u := by
  obtain ⟨p, hp⟩ := hstep
  cases hp with
  | bget hpc hget =>
    obtain ⟨l, hl⟩ := h.order
    rcases bget_eq_some hl hget with ⟨_, rfl⟩ | ⟨_, hfind, rfl⟩
    · exact change_of_keep rfl ⟨rfl, rfl⟩ id
    · refine change_of_buf rfl fun hub => ?_
      subst hub
      exact .recycle (by simpa using List.find?_some hfind) fun b hb => hl.oldest hfind hb
  | panic _ _ => exact .keep ⟨rfl, rfl⟩ id
  | acquiresleep _ _ => exact .keep ⟨rfl, rfl⟩ id
  | @bread b _ _ _ =>
    change Change s.cache (s.cache.bread b) u
    unfold Cache.bread
    split
    · exact .keep ⟨rfl, rfl⟩ id
    · exact change_iderw _ _ u
  | modify _ _ _ => exact change_of_keep rfl ⟨rfl, rfl⟩ id
  | logWrite _ _ => exact change_of_keep rfl ⟨rfl, rfl⟩ fun _ => rfl
  | bwrite _ _ => exact change_of_keep rfl ⟨rfl, rfl⟩ fun _ => rfl
  | @iderw b _ =>
    cases change_iderw s.cache b u with
    | keep hsame hdirty => exact .keep hsame hdirty
    | write hsame hdisk => exact .write hsame hdisk
    | recycle hfree holdest => exact .recycle hfree holdest
  | releasesleep _ _ _ => exact .keep ⟨rfl, rfl⟩ id
  | @brelse b _ =>
    change Change s.cache (s.cache.brelse b) u
    rw [brelse_eq]
    exact change_of_keep rfl ⟨rfl, rfl⟩ id

/-- Only one buffer of a block is in use, its count is right, and the bytes are the
latest. -/
structure Correct [Fintype τ] (disk : Nat → Nat → δ) (s : State τ δ) : Prop where
  /-- no two buffers that are referenced or valid have the same block -/
  unique : ∀ b b', b ≠ b' → (s.cache.buf b).SameBlock (s.cache.buf b') →
    (s.cache.buf b).Untouched ∨ (s.cache.buf b').Untouched
  /-- one reference for the holder, and one for each call between its count in `bget`
  and the lock, or between unlocking and its count in `brelse` -/
  refcnt : ∀ b, (s.cache.buf b).refcnt =
    (s.cache.owner b).elim 0 (fun _ => 1) + ∑ p, (s.pc p).pending b
  /-- a cycle of all buffers, by the last release that left a buffer unreferenced -/
  list : ∃ l, s.cache.links.Cycle l ∧ l.Perm (List.finRange NBUF) ∧
    l.Pairwise fun b b' => s.cache.freedAt b' < s.cache.freedAt b
  /-- what `bread` returns -/
  bread : ∀ p b dev blockno, s.pc p = .fill b dev blockno →
    ((s.cache.bread b).buf b).isBlock dev blockno = true ∧
    ((s.cache.bread b).buf b).valid = true ∧
    ((s.cache.bread b).buf b).data = latest disk (s.cache.bread b).stores dev blockno
  /-- what a process finds in the buffers it holds -/
  held : ∀ p b, s.pc p = .idle → s.cache.owner b = some p →
    (s.cache.buf b).data = latest disk s.cache.stores (s.cache.buf b).dev (s.cache.buf b).blockno

theorem Sound.correct [Fintype τ] [DecidableEq τ] {disk : Nat → Nat → δ} {s : State τ δ}
    (h : Sound disk s) : Correct disk s where
  unique b b' hne hsame := by
    obtain ⟨l, hl⟩ := h.order
    exact hl.unique hne hsame
  refcnt := h.count
  list := by
    obtain ⟨l, hl⟩ := h.order
    refine ⟨l, hl.cycle, ?_, hl.recent⟩
    exact (List.perm_ext_iff_of_nodup hl.cycle.nodup (List.nodup_finRange NBUF)).mpr fun b =>
      ⟨fun _ => List.mem_finRange b, fun _ => hl.all b⟩
  bread p b dev blockno hpc := by
    -- the step keeps the invariant, and the buffer is one that `p` holds behind it
    have hnext := sound_bread h hpc
    have hheld := (h.holds p).fill b dev blockno hpc
    have hblock := (h.holds p).request b dev blockno (Or.inr hpc)
    have howner : (s.cache.bread b).owner b = some p := by
      unfold Cache.bread
      split <;> exact hheld
    have hp : Holds (s.cache.bread b) p (Function.update s.pc p .idle p) := hnext.holds p
    rw [Function.update_self] at hp
    have hvalid := hp.valid howner
    have hsame : ((s.cache.bread b).buf b).dev = dev ∧ ((s.cache.bread b).buf b).blockno = blockno := by
      unfold Cache.bread
      split
      · exact hblock
      · rw [iderw_buf, if_pos rfl]
        exact ⟨hblock.1, (memIderw_blockno _ _).trans hblock.2⟩
    have hdata := hnext.content.data b hvalid
    change ((s.cache.bread b).buf b).data = latest disk (s.cache.bread b).stores
      ((s.cache.bread b).buf b).dev ((s.cache.bread b).buf b).blockno at hdata
    rw [hsame.1, hsame.2] at hdata
    exact ⟨isBlock_iff.mpr hsame, hvalid, hdata⟩
  held p b hpc hheld := by
    have hp := h.holds p
    rw [hpc] at hp
    exact h.content.data b (hp.valid hheld)

/-- Any processes read, change, write and release buffers in any order, from the
state behind `binit`. At every point the cache is correct, a dirty buffer keeps
its block until its bytes are on the disk, and a buffer that is given to another
block is unreferenced, clean, and of all such buffers the one released first. -/
theorem buffer_cache_correct [Fintype τ] [DecidableEq τ] (disk : Nat → Nat → δ)
    (data : BufIdx → δ) {s : State τ δ}
    (hrun : ReflTransGen State.Step (State.init disk data) s) :
    Correct disk s ∧ ∀ t, s.Step t → ∀ b,
      ((s.cache.buf b).dirty = true → (t.cache.buf b).SameBlock (s.cache.buf b) ∧
        ((t.cache.buf b).dirty = true ∨
          t.cache.disk (s.cache.buf b).dev (s.cache.buf b).blockno = (s.cache.buf b).data)) ∧
      (¬ (t.cache.buf b).SameBlock (s.cache.buf b) →
        (s.cache.buf b).refcnt = 0 ∧ (s.cache.buf b).dirty = false ∧
        ∀ b', (s.cache.buf b').refcnt = 0 → (s.cache.buf b').dirty = false →
          s.cache.releasedAt b ≤ s.cache.releasedAt b') := by
  have h : Sound disk s :=
    invariant_of_run (Sound disk) hrun (sound_init disk data) fun _ _ h hstep => h.step hstep
  refine ⟨h.correct, fun t hstep b => ?_⟩
  cases h.change hstep b with
  | keep hsame hdirty => exact ⟨fun hd => ⟨hsame, .inl (hdirty hd)⟩, fun hne => absurd hsame hne⟩
  | write hsame hdisk => exact ⟨fun _ => ⟨hsame, .inr hdisk⟩, fun hne => absurd hsame hne⟩
  | recycle hfree holdest =>
    obtain ⟨hzero, hclean⟩ := free_iff.mp hfree
    refine ⟨fun hd => ?_, fun _ => ⟨hzero, hclean, fun b' hb' hclean' => ?_⟩⟩
    · rw [hclean] at hd
      cases hd
    · rw [h.released b hzero, h.released b' hb']
      exact holdest b' (free_iff.mpr ⟨hb', hclean'⟩)

theorem step_of_next [DecidableEq τ] {s t : State τ δ} {p : τ} {call : Call δ}
    (h : s.next p call = some t) : s.Step t := by
  refine ⟨p, ?_⟩
  unfold State.next at h
  split at h
  · split at h
    · next hpc =>
      cases hget : s.cache.bget _ _ with
      | none =>
        rw [hget] at h
        cases h
        exact .panic hpc hget
      | some r =>
        rw [hget] at h
        cases h
        exact .bget hpc hget
    · cases h
  · split at h
    · next hpc =>
      cases h
      exact .modify _ hpc.1 hpc.2
    · cases h
  · split at h
    · next hpc =>
      cases h
      exact .logWrite hpc.1 hpc.2
    · cases h
  · split at h
    · next hpc =>
      cases h
      exact .bwrite hpc.1 hpc.2
    · cases h
  · split at h
    · next hpc =>
      cases h
      exact .releasesleep hpc.1 hpc.2.1 hpc.2.2
    · cases h
  · split at h
    · next hpc =>
      split at h
      · next hfree =>
        cases h
        exact .acquiresleep hpc hfree
      · cases h
    · next hpc =>
      cases h
      exact .bread hpc
    · next hpc =>
      cases h
      exact .iderw hpc
    · next hpc =>
      cases h
      exact .brelse hpc
    · cases h
    · cases h

theorem run_of_calls [DecidableEq τ] {s t : State τ δ} {calls : List (τ × Call δ)}
    (h : s.run calls = some t) : ReflTransGen State.Step s t := by
  induction calls generalizing s with
  | nil =>
    cases h
    exact .refl
  | cons call calls ih =>
    unfold State.run at h
    rw [List.foldlM_cons] at h
    obtain ⟨u, hu, htail⟩ := bind_eq_some_iff.mp h
    exact .head (step_of_next hu) (ih htail)

/-- Process 0 reads a block, changes it and gives it to the log. -/
theorem buffer_cache_correct_read : ∃ s : State (Fin 2) Nat,
    (State.init (fun _ blockno => blockno) fun _ => 0).run
      [(0, .bread 1 5), (0, .resume), (0, .resume), (0, .modify 0 7), (0, .logWrite 0)] = some s ∧
    ((s.cache.buf 0).dirty = true ∧ s.cache.owner 0 = some 0) ∧
    Correct (fun _ blockno => blockno) s := by
  obtain ⟨s, hs⟩ : ∃ s : State (Fin 2) Nat, (State.init (fun _ blockno => blockno) fun _ => 0).run
      [(0, .bread 1 5), (0, .resume), (0, .resume), (0, .modify 0 7), (0, .logWrite 0)] = some s :=
    isSome_iff_exists.mp (by decide +kernel)
  have hfacts : ((State.init (τ := Fin 2) (fun _ blockno => blockno) fun _ => 0).run
      [(0, .bread 1 5), (0, .resume), (0, .resume), (0, .modify 0 7), (0, .logWrite 0)]).map
      (fun s => ((s.cache.buf 0).dirty, s.cache.owner 0)) = some (true, some 0) := by
    decide +kernel
  rw [hs] at hfacts
  simp only [map_some, Option.some.injEq, Prod.mk.injEq] at hfacts
  exact ⟨s, hs, hfacts, (buffer_cache_correct _ _ (run_of_calls hs)).1⟩

/-- Process 0 reads blocks 5 and 6 into buffers 0 and 1 and releases 1. Process 1
asks for block 5 and waits while process 0 releases buffer 0. Behind the first half
of that call the buffer has two references and only process 1 waits for it. At the
end the buffer was released last, and buffer 1 is in front. -/
theorem release_order_differs : ∃ s t : State (Fin 2) Nat,
    ReflTransGen State.Step (State.init (fun _ _ => 0) fun _ => 0) s ∧ s.Step t ∧
    ((s.cache.buf 0).refcnt = 2 ∧
      ∀ p, s.cache.owner 0 = some p ∨ (∃ dev blockno, s.pc p = .wait 0 dev blockno) → p = 1) ∧
    (t.cache.links.next none = some 1 ∧ t.cache.releasedAt 1 < t.cache.releasedAt 0) := by
  let calls : List (Fin 2 × Call Nat) :=
    [(0, .bread 1 5), (0, .resume), (0, .resume), (0, .bread 1 6), (0, .resume), (0, .resume),
      (0, .brelse 1), (0, .resume), (1, .bread 1 5), (0, .brelse 0)]
  obtain ⟨s, hs⟩ : ∃ s, (State.init (fun _ _ => 0) fun _ => 0).run calls = some s :=
    isSome_iff_exists.mp (by decide +kernel)
  have hfirst : ((State.init (fun _ _ => 0) fun _ => 0).run calls).map (fun s =>
      ((s.cache.buf 0).refcnt, s.cache.owner 0, s.pc 0)) = some (2, none, .drop 0) := by
    decide +kernel
  have hsecond : (((State.init (fun _ _ => 0) fun _ => 0).run calls).bind
      (fun s => s.next 0 .resume)).map (fun t =>
        (t.cache.links.next none, t.cache.releasedAt 1, t.cache.releasedAt 0)) =
      some (some 1, 30, 31) := by
    decide +kernel
  rw [hs] at hfirst hsecond
  simp only [map_some, Option.some.injEq, Prod.mk.injEq] at hfirst
  obtain ⟨hrefcnt, howner, hdrop⟩ := hfirst
  rw [bind_some] at hsecond
  obtain ⟨t, hnext, ht⟩ := map_eq_some_iff.mp hsecond
  simp only [Prod.mk.injEq] at ht
  refine ⟨s, t, run_of_calls hs, step_of_next hnext, ⟨hrefcnt, fun p hp => ?_⟩, ht.1, ?_⟩
  · rcases hp with hp | ⟨dev, blockno, hp⟩
    · rw [howner] at hp
      cases hp
    · have hzero : p ≠ 0 := by
        rintro rfl
        rw [hdrop] at hp
        cases hp
      exact Fin.eq_one_of_ne_zero p hzero
  · rw [ht.2.1, ht.2.2]
    exact Nat.lt_succ_self 30

end Xv6.Bio

import Mathlib.Algebra.BigOperators.Fin
import Xv6.Bio.Content
import Xv6.Lib.Ledger

/-!
What the cache keeps at every step. The reference count of a buffer is the
number of calls that have counted it in `bget` and not yet given it back in
`brelse`, and what a process knows of the buffers it has locked stays true
while others run.
-/

namespace Xv6.Bio

open Lib Finset Function

variable {τ δ : Type*}

/-- The buffer that a process has counted in `bget`, not locked yet or not any more. -/
def Pc.pending (b : BufIdx) : Pc → Nat
  | .wait b' _ _ | .drop b' => if b' = b then 1 else 0
  | .idle | .fill _ _ _ | .write _ | .panicked => 0

@[simp]
theorem pending_idle (b : BufIdx) : Pc.idle.pending b = 0 := rfl

@[simp]
theorem pending_wait (b b' : BufIdx) (dev blockno : Nat) :
    (Pc.wait b' dev blockno).pending b = if b' = b then 1 else 0 := rfl

@[simp]
theorem pending_drop (b b' : BufIdx) : (Pc.drop b').pending b = if b' = b then 1 else 0 := rfl

/-- What holds of the calls that a process has in hand. -/
structure Holds (c : Cache τ δ) (p : τ) (pc : Pc) : Prop where
  request : ∀ b dev blockno, pc = .wait b dev blockno ∨ pc = .fill b dev blockno →
    (c.buf b).dev = dev ∧ (c.buf b).blockno = blockno
  fill : ∀ b dev blockno, pc = .fill b dev blockno → c.owner b = some p
  write : ∀ b, pc = .write b → c.owner b = some p ∧ (c.buf b).dirty = true
  held : ∀ b, c.owner b = some p → (c.buf b).valid = true ∨ ∃ dev blockno, pc = .fill b dev blockno

structure Sound [Fintype τ] (disk : Nat → Nat → δ) (s : State τ δ) : Prop where
  order : ∃ l, Order s.cache l
  released : ∀ b, (s.cache.buf b).refcnt = 0 → s.cache.releasedAt b = s.cache.freedAt b
  content : Content disk s.cache
  count : ∀ b, (s.cache.buf b).refcnt =
    (s.cache.owner b).elim 0 (fun _ => 1) + ∑ p, (s.pc p).pending b
  holds : ∀ p, Holds s.cache p (s.pc p)
  unsaved : ∀ b, s.cache.unsaved b = true → s.cache.owner b ≠ none

theorem Holds.frame {c c' : Cache τ δ} {p : τ} {pc : Pc} (h : Holds c p pc)
    (hblock : ∀ b dev blockno, pc = .wait b dev blockno ∨ pc = .fill b dev blockno →
      (c'.buf b).dev = (c.buf b).dev ∧ (c'.buf b).blockno = (c.buf b).blockno)
    (howner : ∀ b, c'.owner b = some p ↔ c.owner b = some p)
    (hflags : ∀ b, c.owner b = some p →
      (c'.buf b).valid = (c.buf b).valid ∧ (c'.buf b).dirty = (c.buf b).dirty) : Holds c' p pc where
  request b dev blockno hb := by
    rw [(hblock b dev blockno hb).1, (hblock b dev blockno hb).2]
    exact h.request b dev blockno hb
  fill b dev blockno hb := (howner b).mpr (h.fill b dev blockno hb)
  write b hb := by
    obtain ⟨hown, hdirty⟩ := h.write b hb
    exact ⟨(howner b).mpr hown, (hflags b hown).2.trans hdirty⟩
  held b hb := by
    have hown := (howner b).mp hb
    rw [(hflags b hown).1]
    exact h.held b hown

theorem Holds.idle {c : Cache τ δ} {p : τ} (h : ∀ b, c.owner b = some p → (c.buf b).valid = true) :
    Holds c p .idle where
  request b dev blockno hb := by rcases hb with hb | hb <;> cases hb
  fill b dev blockno hb := nomatch hb
  write b hb := nomatch hb
  held b hb := Or.inl (h b hb)

theorem Holds.valid {c : Cache τ δ} {p : τ} (h : Holds c p .idle) {b : BufIdx}
    (hb : c.owner b = some p) : (c.buf b).valid = true := by
  rcases h.held b hb with hvalid | ⟨_, _, hpc⟩
  · exact hvalid
  · cases hpc

theorem sum_pending [Fintype τ] [DecidableEq τ] (pc : τ → Pc) (p : τ) (k : Pc) (b : BufIdx) :
    ∑ q, (update pc p k q).pending b + (pc p).pending b = ∑ q, (pc q).pending b + k.pending b := by
  have hsum := sum_add_of_eq_off (f := fun q => (pc q).pending b)
    (g := fun q => (update pc p k q).pending b) (mem_univ p) fun q _ hq => by
      rw [update_of_ne hq]
  simpa using hsum

theorem memIderw_blockno (disk : Nat → δ) (x : Disk.Buf δ) :
    (Disk.memIderw disk x).2.blockno = x.blockno := by
  unfold Disk.memIderw
  split <;> rfl

theorem memIderw_valid (disk : Nat → δ) (x : Disk.Buf δ) :
    (Disk.memIderw disk x).2.valid = true := by
  unfold Disk.memIderw
  split <;> rfl

theorem iderw_buf (c : Cache τ δ) (b u : BufIdx) : (c.iderw b).buf u = if u = b then
    { c.buf b with toBuf := (Disk.memIderw (c.disk (c.buf b).dev) (c.buf b).toBuf).2 }
    else c.buf u := setBuf_buf c b u _

theorem setOwner_owner (c : Cache τ δ) (b u : BufIdx) (o : Option τ) :
    (c.setOwner b o).owner u = if u = b then o else c.owner u := by
  simp [Cache.setOwner, update_apply]

variable {dev blockno : Nat}

/-- What `bget` returns: the buffer that has the block, or the least recently
freed one of those that may be recycled. -/
theorem bget_eq_some {l : List BufIdx} {c c' : Cache τ δ} {b : BufIdx} (h : Order c l)
    (hget : c.bget dev blockno = some (b, c')) :
    (l.find? (fun b => (c.buf b).isBlock dev blockno) = some b ∧
      c' = c.setBuf b { c.buf b with refcnt := (c.buf b).refcnt + 1 }) ∨
    (l.find? (fun b => (c.buf b).isBlock dev blockno) = none ∧
      l.reverse.find? (fun b => (c.buf b).free) = some b ∧
      c' = c.setBuf b { c.buf b with
        dev := dev, blockno := blockno, valid := false, dirty := false, refcnt := 1 }) := by
  unfold Cache.bget at hget
  rw [h.search_next, h.search_prev] at hget
  cases hfind : l.find? fun b => (c.buf b).isBlock dev blockno with
  | some u =>
    rw [hfind] at hget
    cases hget
    exact .inl ⟨rfl, rfl⟩
  | none =>
    rw [hfind] at hget
    cases hfree : l.reverse.find? fun b => (c.buf b).free with
    | some u =>
      rw [hfree] at hget
      cases hget
      exact .inr ⟨rfl, rfl, rfl⟩
    | none =>
      rw [hfree] at hget
      cases hget

theorem brelse_eq (c : Cache τ δ) (b : BufIdx) :
    c.brelse b = { c.setBuf b { c.buf b with refcnt := (c.buf b).refcnt - 1 } with
      clock := c.clock + 1
      releasedAt := update c.releasedAt b c.clock
      links := if (c.buf b).refcnt - 1 = 0 then (c.links.unlink b).pushFront b else c.links
      freedAt := if (c.buf b).refcnt - 1 = 0 then update c.freedAt b c.clock
        else c.freedAt } := by
  unfold Cache.brelse
  dsimp only
  split <;> rfl

section

variable [Fintype τ] {disk : Nat → Nat → δ} {s : State τ δ} {p : τ} {b : BufIdx}

theorem Sound.ref_of_owner (h : Sound disk s) {q : τ} (hq : s.cache.owner b = some q) :
    (s.cache.buf b).refcnt ≠ 0 := by
  rw [h.count b, hq]
  exact Nat.ne_of_gt (Nat.add_pos_left Nat.one_pos _)

theorem Sound.ref_of_pending (h : Sound disk s) (hp : (s.pc p).pending b = 1) :
    (s.cache.buf b).refcnt ≠ 0 := by
  rw [h.count b]
  have hle : (s.pc p).pending b ≤ ∑ q, (s.pc q).pending b :=
    single_le_sum (f := fun q => (s.pc q).pending b) (fun _ _ => Nat.zero_le _) (mem_univ p)
  omega

/-- The holder of a buffer has the only valid one for the block. -/
theorem Sound.unique_valid (h : Sound disk s) (href : (s.cache.buf b).refcnt ≠ 0) {u : BufIdx}
    (hub : u ≠ b) (hsame : (s.cache.buf u).SameBlock (s.cache.buf b)) :
    (s.cache.buf u).Untouched := by
  obtain ⟨l, hl⟩ := h.order
  exact (hl.unique hub hsame).resolve_right fun hb => href hb.1

/-- Nobody has a call in hand for an unreferenced buffer. -/
theorem Sound.unreferenced (h : Sound disk s) (hzero : (s.cache.buf b).refcnt = 0) :
    s.cache.owner b = none ∧ (∀ q, (s.pc q).pending b = 0) ∧ s.cache.unsaved b = false := by
  have howner : s.cache.owner b = none := by
    cases hq : s.cache.owner b with
    | none => rfl
    | some q => exact absurd hzero (h.ref_of_owner hq)
  refine ⟨howner, fun q => ?_, ?_⟩
  · by_contra hq
    refine h.ref_of_pending (p := q) (b := b) ?_ hzero
    cases hpc : s.pc q <;> rw [hpc] at hq <;> simp_all [Pc.pending]
  · by_contra hunsaved
    exact h.unsaved b (by simpa using hunsaved) howner

variable [DecidableEq τ]

/-- A change of a referenced buffer that keeps its block and count, by a process
that goes on at `k`. -/
theorem Sound.setBuf (h : Sound disk s) {c : Cache τ δ} {x : Buf δ} {k : Pc}
    (hbuf : c.buf = update s.cache.buf b x) (hlinks : c.links = s.cache.links)
    (hfreed : c.freedAt = s.cache.freedAt) (hreleased : c.releasedAt = s.cache.releasedAt)
    (hclock : c.clock = s.cache.clock) (howner : c.owner = s.cache.owner)
    (hdev : x.dev = (s.cache.buf b).dev) (hblockno : x.blockno = (s.cache.buf b).blockno)
    (hrefcnt : x.refcnt = (s.cache.buf b).refcnt) (hheld : s.cache.owner b = some p)
    (hpending : ∀ u, k.pending u = (s.pc p).pending u) (hcontent : Content disk c)
    (hself : Holds c p k) (hunsaved : ∀ u, c.unsaved u = true → u = b ∨ s.cache.unsaved u = true) :
    Sound disk ⟨c, update s.pc p k⟩ := by
  have hat (u : BufIdx) : c.buf u = if u = b then x else s.cache.buf u := by
    rw [hbuf, update_apply]
  have href := h.ref_of_owner hheld
  have hcount (u : BufIdx) : (c.buf u).refcnt = (s.cache.buf u).refcnt := by
    rw [hat]
    split
    · next hu => rw [hu, hrefcnt]
    · rfl
  have hblock (u : BufIdx) :
      (c.buf u).dev = (s.cache.buf u).dev ∧ (c.buf u).blockno = (s.cache.buf u).blockno := by
    rw [hat]
    split
    · next hu => rw [hu, hdev, hblockno]; exact ⟨rfl, rfl⟩
    · exact ⟨rfl, rfl⟩
  refine ⟨?_, fun u hu => ?_, hcontent, fun u => ?_, ?_, fun u hu => ?_⟩
  · obtain ⟨l, hl⟩ := h.order
    refine ⟨l, hl.frame hlinks hfreed (Nat.le_of_eq hclock.symm) hblock fun u hu => ?_⟩
    have hub : u ≠ b := by
      rintro rfl
      exact href hu.1
    rw [hat, if_neg hub]
    exact hu
  · rw [hreleased, hfreed]
    exact h.released u ((hcount u).symm.trans hu)
  · have hsum := sum_pending s.pc p k u
    rw [hpending u] at hsum
    change _ = (c.owner u).elim 0 (fun _ => 1) + ∑ q, (update s.pc p k q).pending u
    rw [hcount, h.count u, howner, Nat.add_right_cancel hsum]
  · change ∀ q, Holds c q (update s.pc p k q)
    rw [forall_update_iff s.pc fun q pc => Holds c q pc]
    refine ⟨hself, fun q hq => (h.holds q).frame (fun u _ _ _ => hblock u) (by rw [howner]; simp) ?_⟩
    intro u hu
    have hub : u ≠ b := by
      rintro rfl
      exact hq (Option.some.inj (hu.symm.trans hheld))
    rw [hat, if_neg hub]
    exact ⟨rfl, rfl⟩
  · change c.owner u ≠ none
    rw [howner]
    rcases hunsaved u hu with rfl | hu
    · rw [hheld]
      nofun
    · exact h.unsaved u hu

theorem sound_bread (h : Sound disk s) (hpc : s.pc p = .fill b dev blockno) :
    Sound disk ⟨s.cache.bread b, update s.pc p .idle⟩ := by
  have hp := h.holds p
  rw [hpc] at hp
  have hheld := hp.fill b dev blockno rfl
  have hpending (u : BufIdx) : Pc.idle.pending u = (s.pc p).pending u := by
    rw [hpc]
    rfl
  -- the other buffers of the process are valid already
  have hothers {u : BufIdx} (hu : s.cache.owner u = some p) (hub : u ≠ b) :
      (s.cache.buf u).valid = true := by
    rcases hp.held u hu with hvalid | ⟨_, _, heq⟩
    · exact hvalid
    · exact absurd (Pc.fill.inj heq).1.symm hub
  unfold Cache.bread
  split
  · next hvalid =>
    refine h.setBuf (update_eq_self b s.cache.buf).symm rfl rfl rfl rfl rfl rfl rfl rfl hheld
      hpending h.content (.idle fun u hu => ?_) fun u => .inr
    by_cases hub : u = b
    · exact hub ▸ hvalid
    · exact hothers hu hub
  · next hinvalid =>
    refine h.setBuf rfl rfl rfl rfl rfl rfl rfl (memIderw_blockno _ _) rfl hheld hpending
      (h.content.read (fun u hub hs => (h.unique_valid (h.ref_of_owner hheld) hub hs).2)
        (by simpa using hinvalid)) (.idle fun u hu => ?_) fun u => .inr
    rw [iderw_buf]
    split
    · exact memIderw_valid _ _
    · next hub => exact hothers hu hub

theorem sound_modify (h : Sound disk s) (data : δ) (hpc : s.pc p = .idle)
    (hheld : s.cache.owner b = some p) : Sound disk ⟨s.cache.modify b data, s.pc⟩ := by
  have hp := h.holds p
  rw [hpc] at hp
  have hstay : s.pc = update s.pc p .idle := by rw [← hpc, update_eq_self]
  rw [hstay]
  refine h.setBuf rfl rfl rfl rfl rfl rfl rfl rfl rfl hheld (fun u => by rw [hpc])
    (h.content.modify data (fun u hub hs => (h.unique_valid (h.ref_of_owner hheld) hub hs).2)
      (hp.valid hheld)) (.idle fun u hu => ?_) fun u hu => ?_
  · change ((s.cache.setBuf b _).buf u).valid = true
    rw [setBuf_buf]
    split
    · exact hp.valid hheld
    · exact hp.valid hu
  · by_cases hub : u = b
    · exact .inl hub
    · exact .inr (by simpa [Cache.modify, hub] using hu)

theorem sound_logWrite (h : Sound disk s) (hpc : s.pc p = .idle)
    (hheld : s.cache.owner b = some p) : Sound disk ⟨(s.cache.setDirty b).save b, s.pc⟩ := by
  have hp := h.holds p
  rw [hpc] at hp
  have hstay : s.pc = update s.pc p .idle := by rw [← hpc, update_eq_self]
  rw [hstay]
  refine h.setBuf rfl rfl rfl rfl rfl rfl rfl rfl rfl hheld (fun u => by rw [hpc])
    ((h.content.setDirty (hp.valid hheld)).save ?_) (.idle fun u hu => ?_) fun u hu => ?_
  · unfold Cache.setDirty
    rw [setBuf_buf, if_pos rfl]
  · change ((s.cache.setBuf b _).buf u).valid = true
    rw [setBuf_buf]
    split
    · exact hp.valid hheld
    · exact hp.valid hu
  · by_cases hub : u = b
    · exact .inl hub
    · exact .inr (by simpa [Cache.save, Cache.setDirty, Cache.setBuf, hub] using hu)

theorem sound_bwrite (h : Sound disk s) (hpc : s.pc p = .idle) (hheld : s.cache.owner b = some p) :
    Sound disk ⟨s.cache.setDirty b, update s.pc p (.write b)⟩ := by
  have hp := h.holds p
  rw [hpc] at hp
  refine h.setBuf rfl rfl rfl rfl rfl rfl rfl rfl rfl hheld (fun u => by rw [hpc]; rfl)
    (h.content.setDirty (hp.valid hheld)) ⟨fun u dev blockno hu => ?_, nofun, fun u hu => ?_,
      fun u hu => .inl ?_⟩ fun u => .inr
  · rcases hu with hu | hu <;> cases hu
  · cases hu
    refine ⟨hheld, ?_⟩
    unfold Cache.setDirty
    rw [setBuf_buf, if_pos rfl]
  · unfold Cache.setDirty
    rw [setBuf_buf]
    split
    · exact hp.valid hheld
    · exact hp.valid hu

theorem sound_iderw (h : Sound disk s) (hpc : s.pc p = .write b) :
    Sound disk ⟨(s.cache.iderw b).save b, update s.pc p .idle⟩ := by
  have hp := h.holds p
  rw [hpc] at hp
  obtain ⟨hheld, hdirty⟩ := hp.write b rfl
  refine h.setBuf rfl rfl rfl rfl rfl rfl rfl (memIderw_blockno _ _) rfl hheld
    (fun u => by rw [hpc]; rfl)
    (h.content.write (fun u hub hs => (h.unique_valid (h.ref_of_owner hheld) hub hs).2) hdirty)
    (.idle fun u hu => ?_) fun u hu => ?_
  · change ((s.cache.iderw b).buf u).valid = true
    rw [iderw_buf]
    split
    · exact memIderw_valid _ _
    · rcases hp.held u hu with hvalid | ⟨_, _, heq⟩
      · exact hvalid
      · cases heq
  · by_cases hub : u = b
    · exact .inl hub
    · exact .inr (by simpa [Cache.save, Cache.iderw, Cache.setBuf, hub] using hu)

theorem Sound.setOwner (h : Sound disk s) {o : Option τ} {k : Pc}
    (hcount : ∀ u, (s.cache.owner u).elim 0 (fun _ => 1) + (s.pc p).pending u =
      ((s.cache.setOwner b o).owner u).elim 0 (fun _ => 1) + k.pending u)
    (hothers : ∀ q u, q ≠ p → ((s.cache.setOwner b o).owner u = some q ↔ s.cache.owner u = some q))
    (hself : Holds (s.cache.setOwner b o) p k)
    (hunsaved : ∀ u, s.cache.unsaved u = true → (s.cache.setOwner b o).owner u ≠ none) :
    Sound disk ⟨s.cache.setOwner b o, update s.pc p k⟩ := by
  refine ⟨?_, h.released, ⟨h.content.flags, h.content.data, h.content.disk⟩, fun u => ?_, ?_,
    fun u hu => hunsaved u hu⟩
  · obtain ⟨l, hl⟩ := h.order
    exact ⟨l, hl.frame rfl rfl (Nat.le_refl _) (fun _ => ⟨rfl, rfl⟩) fun _ => id⟩
  · have hsum := sum_pending s.pc p k u
    have hold := h.count u
    have hnew := hcount u
    change (s.cache.buf u).refcnt = ((s.cache.setOwner b o).owner u).elim 0 (fun _ => 1) +
      ∑ q, (update s.pc p k q).pending u
    omega
  · change ∀ q, Holds (s.cache.setOwner b o) q (update s.pc p k q)
    rw [forall_update_iff s.pc fun q pc => Holds (s.cache.setOwner b o) q pc]
    exact ⟨hself, fun q hq => (h.holds q).frame (fun _ _ _ _ => ⟨rfl, rfl⟩)
      (fun u => hothers q u hq) fun _ _ => ⟨rfl, rfl⟩⟩

theorem sound_acquiresleep (h : Sound disk s)
    (hpc : s.pc p = .wait b dev blockno) (hfree : s.cache.owner b = none) :
    Sound disk ⟨s.cache.setOwner b (some p), update s.pc p (.fill b dev blockno)⟩ := by
  have hp := h.holds p
  rw [hpc] at hp
  refine h.setOwner (fun u => ?_) (fun q u hq => ?_) ⟨?_, ?_, nofun, fun u hu => ?_⟩ fun u hu => ?_
  · rw [setOwner_owner, hpc]
    by_cases hub : u = b
    · simp [hub, hfree, Pc.pending]
    · simp [hub, Ne.symm hub, Pc.pending]
  · rw [setOwner_owner]
    split
    · next hub => simp [hub, hfree, Ne.symm hq]
    · rfl
  · rintro u dev' blockno' (hu | hu) <;> cases hu
    exact hp.request b dev blockno (Or.inl rfl)
  · rintro u dev' blockno' ⟨⟩
    rw [setOwner_owner, if_pos rfl]
  · rw [setOwner_owner] at hu
    split at hu
    · next hub => exact .inr ⟨dev, blockno, by rw [hub]⟩
    · rcases hp.held u hu with hvalid | ⟨_, _, heq⟩
      · exact .inl hvalid
      · cases heq
  · rw [setOwner_owner]
    split
    · nofun
    · exact h.unsaved u hu

theorem sound_releasesleep (h : Sound disk s) (hpc : s.pc p = .idle)
    (hheld : s.cache.owner b = some p) (hsaved : s.cache.unsaved b = false) :
    Sound disk ⟨s.cache.setOwner b none, update s.pc p (.drop b)⟩ := by
  have hp := h.holds p
  rw [hpc] at hp
  refine h.setOwner (fun u => ?_) (fun q u hq => ?_)
    ⟨fun u dev blockno hu => ?_, nofun, nofun, fun u hu => .inl ?_⟩ fun u hu => ?_
  · rw [setOwner_owner, hpc]
    by_cases hub : u = b
    · simp [hub, hheld, Pc.pending]
    · simp [hub, Ne.symm hub, Pc.pending]
  · rw [setOwner_owner]
    split
    · next hub => simp [hub, hheld, Ne.symm hq]
    · rfl
  · rcases hu with hu | hu <;> cases hu
  · rw [setOwner_owner] at hu
    split at hu
    · cases hu
    · exact hp.valid hu
  · rw [setOwner_owner]
    split
    · next hub =>
      rw [hub, hsaved] at hu
      cases hu
    · exact h.unsaved u hu

/-- A call of `bget` counts one buffer, which has then the block. -/
theorem Sound.counted (h : Sound disk s) {x : Buf δ} (hpc : s.pc p = .idle)
    (horder : ∃ l, Order (s.cache.setBuf b x) l) (hcontent : Content disk (s.cache.setBuf b x))
    (hdev : x.dev = dev) (hblockno : x.blockno = blockno)
    (hrefcnt : x.refcnt = (s.cache.buf b).refcnt + 1)
    (hused : (s.cache.buf b).refcnt ≠ 0 → x.toBuf = (s.cache.buf b).toBuf ∧ (s.cache.buf b).dev = dev) :
    Sound disk ⟨s.cache.setBuf b x, update s.pc p (.wait b dev blockno)⟩ := by
  refine ⟨horder, fun u hu => ?_, hcontent, fun u => ?_, ?_, fun u hu => h.unsaved u hu⟩
  · change ((s.cache.setBuf b x).buf u).refcnt = 0 at hu
    rw [setBuf_buf] at hu
    split at hu
    · rw [hrefcnt] at hu
      cases hu
    · exact h.released u hu
  · have hsum := sum_pending s.pc p (.wait b dev blockno) u
    have hold := h.count u
    change ((s.cache.setBuf b x).buf u).refcnt = (s.cache.owner u).elim 0 (fun _ => 1) +
      ∑ q, (update s.pc p (.wait b dev blockno) q).pending u
    rw [hpc, pending_idle, pending_wait] at hsum
    rw [setBuf_buf]
    by_cases hub : u = b
    · subst hub
      rw [if_pos rfl] at hsum ⊢
      omega
    · rw [if_neg (Ne.symm hub)] at hsum
      rw [if_neg hub]
      omega
  · change ∀ q, Holds (s.cache.setBuf b x) q (update s.pc p (.wait b dev blockno) q)
    rw [forall_update_iff s.pc fun q pc => Holds (s.cache.setBuf b x) q pc]
    -- a buffer with a holder or a waiting process is one that `bget` found
    have hkeep {u : BufIdx} (hu : (s.cache.buf u).refcnt ≠ 0) :
        ((s.cache.setBuf b x).buf u).toBuf = (s.cache.buf u).toBuf ∧
          ((s.cache.setBuf b x).buf u).dev = (s.cache.buf u).dev := by
      rw [setBuf_buf]
      split
      · next hub =>
        subst hub
        exact ⟨(hused hu).1, hdev.trans (hused hu).2.symm⟩
      · exact ⟨rfl, rfl⟩
    refine ⟨⟨?_, nofun, nofun, fun u hu => .inl ?_⟩, fun q _ => (h.holds q).frame ?_ ?_ ?_⟩
    · rintro u dev' blockno' (hu | hu) <;> cases hu
      rw [setBuf_buf, if_pos rfl]
      exact ⟨hdev, hblockno⟩
    · have hp := h.holds p
      rw [hpc] at hp
      rw [(hkeep (h.ref_of_owner hu)).1]
      exact hp.valid hu
    · rintro u dev' blockno' hu
      have href : (s.cache.buf u).refcnt ≠ 0 := by
        rcases hu with hu | hu
        · exact h.ref_of_pending (p := q) (by rw [hu]; exact if_pos rfl)
        · exact h.ref_of_owner ((h.holds q).fill u dev' blockno' hu)
      rw [(hkeep href).1, (hkeep href).2]
      exact ⟨rfl, rfl⟩
    · exact fun u => Iff.rfl
    · intro u hu
      rw [(hkeep (h.ref_of_owner hu)).1]
      exact ⟨rfl, rfl⟩

theorem sound_bget {c : Cache τ δ} (h : Sound disk s) (hpc : s.pc p = .idle)
    (hget : s.cache.bget dev blockno = some (b, c)) :
    Sound disk ⟨c, update s.pc p (.wait b dev blockno)⟩ := by
  obtain ⟨l, hl⟩ := h.order
  rcases bget_eq_some hl hget with ⟨hfind, rfl⟩ | ⟨hmiss, hfree, rfl⟩
  · have hb : (s.cache.buf b).dev = dev ∧ (s.cache.buf b).blockno = blockno := by
      simpa [isBlock_iff] using List.find?_some hfind
    exact h.counted hpc ⟨l, hl.hit hfind rfl rfl⟩ (h.content.keep rfl rfl) hb.1 hb.2 rfl
      fun _ => ⟨rfl, hb.1⟩
  · have hb : (s.cache.buf b).refcnt = 0 ∧ (s.cache.buf b).dirty = false := by
      simpa [free_iff] using List.find?_some hfree
    refine h.counted hpc ⟨l, hl.miss fun u hs => ?_⟩
      (h.content.recycle hb.2 (h.unreferenced hb.1).2.2 rfl rfl) rfl rfl (by rw [hb.1])
      fun href => absurd hb.1 href
    have hnot := List.find?_eq_none.mp hmiss u (hl.all u)
    exact hnot (isBlock_iff.mpr ⟨hs.1.symm, hs.2.symm⟩)

theorem sound_brelse (h : Sound disk s) (hpc : s.pc p = .drop b) :
    Sound disk ⟨s.cache.brelse b, update s.pc p .idle⟩ := by
  have hp := h.holds p
  rw [hpc] at hp
  have href : (s.cache.buf b).refcnt ≠ 0 :=
    h.ref_of_pending (p := p) (by rw [hpc, pending_drop, if_pos rfl])
  have hbuf (u : BufIdx) : (s.cache.brelse b).buf u = if u = b then
      { s.cache.buf b with refcnt := (s.cache.buf b).refcnt - 1 } else s.cache.buf u := by
    rw [brelse_eq]
    exact setBuf_buf s.cache b u _
  have hkeep (u : BufIdx) : ((s.cache.brelse b).buf u).toBuf = (s.cache.buf u).toBuf ∧
      ((s.cache.brelse b).buf u).dev = (s.cache.buf u).dev := by
    rw [hbuf]
    split
    · next hub =>
      subst hub
      exact ⟨rfl, rfl⟩
    · exact ⟨rfl, rfl⟩
  have hblock (u : BufIdx) : ((s.cache.brelse b).buf u).dev = (s.cache.buf u).dev ∧
      ((s.cache.brelse b).buf u).blockno = (s.cache.buf u).blockno := by
    rw [(hkeep u).1, (hkeep u).2]
    exact ⟨rfl, rfl⟩
  have hfreed : (s.cache.brelse b).freedAt = if (s.cache.buf b).refcnt - 1 = 0 then
      update s.cache.freedAt b s.cache.clock else s.cache.freedAt := by rw [brelse_eq]
  refine ⟨?_, fun u hu => ?_, ?_, fun u => ?_, ?_, fun u hu => ?_⟩
  · obtain ⟨l, hl⟩ := h.order
    by_cases hlast : (s.cache.buf b).refcnt - 1 = 0
    · refine ⟨b :: l.erase b, hl.free href ?_ ?_ ?_ hblock fun u hub => ?_⟩
      · rw [brelse_eq, if_pos hlast]
      · rw [hfreed, if_pos hlast]
      · rw [brelse_eq]
      · rw [hbuf, if_neg hub]
    · refine ⟨l, hl.frame ?_ ?_ ?_ hblock fun u hu => ?_⟩
      · rw [brelse_eq, if_neg hlast]
      · rw [hfreed, if_neg hlast]
      · rw [brelse_eq]
        exact Nat.le_succ _
      · have hub : u ≠ b := by
          rintro rfl
          exact href hu.1
        rw [hbuf, if_neg hub]
        exact hu
  · change ((s.cache.brelse b).buf u).refcnt = 0 at hu
    rw [hbuf] at hu
    rw [hfreed]
    change (s.cache.brelse b).releasedAt u = _
    rw [brelse_eq]
    change update _ _ _ _ = _
    by_cases hub : u = b
    · subst hub
      rw [if_pos rfl] at hu
      rw [if_pos hu, update_self, update_self]
    · rw [if_neg hub] at hu
      rw [update_of_ne hub, h.released u hu]
      split
      · exact (update_of_ne hub ..).symm
      · rfl
  · have hcontent := h.content.keep (b := b) (x :=
      { s.cache.buf b with refcnt := (s.cache.buf b).refcnt - 1 }) rfl rfl
    rw [brelse_eq]
    exact ⟨hcontent.flags, hcontent.data, hcontent.disk⟩
  · have hsum := sum_pending s.pc p .idle u
    have hold := h.count u
    rw [hpc, pending_idle, pending_drop] at hsum
    change ((s.cache.brelse b).buf u).refcnt = ((s.cache.brelse b).owner u).elim 0 (fun _ => 1) +
      ∑ q, (update s.pc p .idle q).pending u
    rw [hbuf, brelse_eq]
    change _ = (s.cache.owner u).elim 0 (fun _ => 1) + _
    by_cases hub : u = b
    · subst hub
      rw [if_pos rfl] at hsum ⊢
      change (s.cache.buf u).refcnt - 1 = _
      omega
    · rw [if_neg (Ne.symm hub)] at hsum
      rw [if_neg hub]
      omega
  · change ∀ q, Holds (s.cache.brelse b) q (update s.pc p .idle q)
    rw [forall_update_iff s.pc fun q pc => Holds (s.cache.brelse b) q pc]
    have howner : (s.cache.brelse b).owner = s.cache.owner := by rw [brelse_eq]; rfl
    refine ⟨.idle fun u hu => ?_, fun q _ => (h.holds q).frame (fun u _ _ _ => hblock u)
      (fun u => by rw [howner]) fun u _ => ?_⟩
    · rw [howner] at hu
      rw [(hkeep u).1]
      rcases hp.held u hu with hvalid | ⟨_, _, heq⟩
      · exact hvalid
      · cases heq
    · rw [(hkeep u).1]
      exact ⟨rfl, rfl⟩
  · change (s.cache.brelse b).unsaved u = true at hu
    change (s.cache.brelse b).owner u ≠ none
    rw [brelse_eq] at hu ⊢
    exact h.unsaved u hu

theorem sound_panic (h : Sound disk s) (hpc : s.pc p = .idle) :
    Sound disk ⟨s.cache, update s.pc p .panicked⟩ := by
  have hp := h.holds p
  rw [hpc] at hp
  refine ⟨h.order, h.released, h.content, fun u => ?_, ?_, h.unsaved⟩
  · have hsum := sum_pending s.pc p .panicked u
    rw [hpc] at hsum
    exact (h.count u).trans (congrArg _ (Nat.add_right_cancel hsum).symm)
  · change ∀ q, Holds s.cache q (update s.pc p .panicked q)
    rw [forall_update_iff s.pc fun q pc => Holds s.cache q pc]
    refine ⟨⟨fun u dev blockno hu => ?_, nofun, nofun, fun u hu => .inl (hp.valid hu)⟩,
      fun q _ => h.holds q⟩
    rcases hu with hu | hu <;> cases hu

theorem Sound.step {t : State τ δ} (h : Sound disk s) (hstep : s.Step t) : Sound disk t := by
  obtain ⟨p, hp⟩ := hstep
  cases hp with
  | bget hpc hget => exact sound_bget h hpc hget
  | panic hpc _ => exact sound_panic h hpc
  | acquiresleep hpc hfree => exact sound_acquiresleep h hpc hfree
  | bread hpc => exact sound_bread h hpc
  | modify data hpc hheld => exact sound_modify h data hpc hheld
  | logWrite hpc hheld => exact sound_logWrite h hpc hheld
  | bwrite hpc hheld => exact sound_bwrite h hpc hheld
  | iderw hpc => exact sound_iderw h hpc
  | releasesleep hpc hheld hsaved => exact sound_releasesleep h hpc hheld hsaved
  | brelse hpc => exact sound_brelse h hpc

end

theorem sound_init [Fintype τ] (disk : Nat → Nat → δ) (data : BufIdx → δ) :
    Sound disk (State.init (τ := τ) disk data) where
  order := ⟨_, order_init disk data⟩
  released _ _ := rfl
  content := ⟨nofun, nofun, fun _ _ _ => rfl⟩
  count b := by simp [State.init]
  holds p := .idle nofun
  unsaved _ := nofun

end Xv6.Bio

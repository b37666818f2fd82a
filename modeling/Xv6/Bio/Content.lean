import Xv6.Bio.Order

/-!
The bytes of a block. A valid buffer has the bytes stored last in its block, and
so does the disk where no buffer holds newer ones.
-/

namespace Xv6.Bio

open Lib Function

variable {τ δ : Type*}

structure Content (disk : Nat → Nat → δ) (c : Cache τ δ) : Prop where
  flags : ∀ b, (c.buf b).dirty = true → (c.buf b).valid = true
  data : ∀ b, (c.buf b).valid = true →
    (c.buf b).data = latest disk c.stores (c.buf b).dev (c.buf b).blockno
  disk : ∀ dev blockno, (∀ b, (c.buf b).isBlock dev blockno = true → (c.buf b).valid = true →
    (c.buf b).dirty = false ∧ c.unsaved b = false) → c.disk dev blockno = latest disk c.stores dev blockno

theorem setBuf_buf (c : Cache τ δ) (b u : BufIdx) (x : Buf δ) :
    (c.setBuf b x).buf u = if u = b then x else c.buf u := by
  simp [Cache.setBuf, update_apply]

theorem latest_cons (disk : Nat → Nat → δ) (w : Store δ) (stores : List (Store δ))
    (dev blockno : Nat) : latest disk (w :: stores) dev blockno =
      if w.dev = dev ∧ w.blockno = blockno then w.data else latest disk stores dev blockno := by
  unfold latest
  rw [List.find?_cons]
  by_cases h : w.dev = dev ∧ w.blockno = blockno
  · simp [h]
  · rw [if_neg h]
    have hfalse : (w.dev == dev && w.blockno == blockno) = false := by simpa using h
    rw [hfalse]

section

variable {disk : Nat → Nat → δ} {c : Cache τ δ} {b : BufIdx}

theorem Content.keep (h : Content disk c) {x : Buf δ} (hdev : x.dev = (c.buf b).dev)
    (hx : x.toBuf = (c.buf b).toBuf) : Content disk (c.setBuf b x) := by
  have hbuf (u : BufIdx) : ((c.setBuf b x).buf u).toBuf = (c.buf u).toBuf ∧
      ((c.setBuf b x).buf u).dev = (c.buf u).dev := by
    rw [setBuf_buf]
    split
    · next hu => rw [hu]; exact ⟨hx, hdev⟩
    · exact ⟨rfl, rfl⟩
  refine ⟨fun u => ?_, fun u => ?_, fun dev blockno hsettled => h.disk dev blockno fun u => ?_⟩
  · rw [(hbuf u).1]
    exact h.flags u
  · rw [(hbuf u).1, (hbuf u).2]
    exact h.data u
  · have hu := hsettled u
    unfold Buf.isBlock at hu ⊢
    rwa [(hbuf u).1, (hbuf u).2] at hu

theorem Content.recycle (h : Content disk c)
    (hclean : (c.buf b).dirty = false) (hsaved : c.unsaved b = false) {x : Buf δ}
    (hvalid : x.valid = false) (hdirty : x.dirty = false) : Content disk (c.setBuf b x) := by
  refine ⟨fun u => ?_, fun u => ?_, fun dev blockno hsettled => h.disk dev blockno fun u hu huv => ?_⟩
  · rw [setBuf_buf]
    split
    · rw [hdirty]
      nofun
    · exact h.flags u
  · rw [setBuf_buf]
    split
    · rw [hvalid]
      nofun
    · exact h.data u
  · by_cases hub : u = b
    · exact hub ▸ ⟨hclean, hsaved⟩
    · have hu' := hsettled u
      rw [setBuf_buf, if_neg hub] at hu'
      exact hu' hu huv

theorem Content.read (h : Content disk c)
    (hunique : ∀ u, u ≠ b → (c.buf u).SameBlock (c.buf b) → (c.buf u).valid = false)
    (hinvalid : (c.buf b).valid = false) : Content disk (c.iderw b) := by
  have hclean : (c.buf b).dirty = false := by
    by_contra hdirty
    have := h.flags b (by simpa using hdirty)
    rw [hinvalid] at this
    cases this
  have hdisk : c.disk (c.buf b).dev (c.buf b).blockno =
      latest disk c.stores (c.buf b).dev (c.buf b).blockno := by
    refine h.disk _ _ fun u hu huv => ?_
    by_cases hub : u = b
    · rw [hub, hinvalid] at huv
      cases huv
    · rw [hunique u hub (isBlock_iff.mp hu)] at huv
      cases huv
  have hread : c.iderw b = c.setBuf b { c.buf b with
      data := c.disk (c.buf b).dev (c.buf b).blockno, valid := true } := by
    unfold Cache.iderw Disk.memIderw
    simp [hclean, Cache.setBuf]
  rw [hread]
  refine ⟨fun u => ?_, fun u => ?_, fun dev blockno hsettled => h.disk dev blockno fun u hu huv => ?_⟩
  · rw [setBuf_buf]
    split
    · exact fun _ => rfl
    · exact h.flags u
  · rw [setBuf_buf]
    split
    · exact fun _ => hdisk
    · exact h.data u
  · by_cases hub : u = b
    · rw [hub, hinvalid] at huv
      cases huv
    · have hu' := hsettled u
      rw [setBuf_buf, if_neg hub] at hu'
      exact hu' hu huv

theorem Content.modify (h : Content disk c) (data : δ)
    (hunique : ∀ u, u ≠ b → (c.buf u).SameBlock (c.buf b) → (c.buf u).valid = false)
    (hvalid : (c.buf b).valid = true) : Content disk (c.modify b data) := by
  have hbuf (u : BufIdx) : (c.modify b data).buf u =
      if u = b then { c.buf b with data := data } else c.buf u := setBuf_buf c b u _
  have hother {u : BufIdx} (hub : u ≠ b) (huv : (c.buf u).valid = true) :
      ¬ ((c.buf b).dev = (c.buf u).dev ∧ (c.buf b).blockno = (c.buf u).blockno) := by
    intro hs
    rw [hunique u hub ⟨hs.1.symm, hs.2.symm⟩] at huv
    cases huv
  refine ⟨fun u => ?_, fun u => ?_, fun dev blockno hsettled => ?_⟩
  · rw [hbuf]
    split
    · exact h.flags b
    · exact h.flags u
  · rw [hbuf]
    change _ → _ = latest disk (_ :: c.stores) _ _
    rw [latest_cons]
    split
    · intro _
      exact (if_pos ⟨rfl, rfl⟩).symm
    · next hub =>
      intro huv
      rw [if_neg (hother hub huv)]
      exact h.data u huv
  · change c.disk dev blockno = latest disk (_ :: c.stores) _ _
    rw [latest_cons]
    split
    · next hs =>
      have hb := hsettled b
      rw [hbuf, if_pos rfl, isBlock_iff] at hb
      have hunsaved := (hb hs hvalid).2
      simp [Cache.modify] at hunsaved
    · next hs =>
      refine h.disk dev blockno fun u hu huv => ?_
      have hub : u ≠ b := by
        rintro rfl
        exact hs (isBlock_iff.mp hu)
      have hu' := hsettled u
      rw [hbuf, if_neg hub] at hu'
      obtain ⟨hdirty, hsaved⟩ := hu' hu huv
      refine ⟨hdirty, ?_⟩
      simpa [Cache.modify, hub] using hsaved

theorem Content.setDirty (h : Content disk c) (hvalid : (c.buf b).valid = true) :
    Content disk (c.setDirty b) := by
  have hbuf (u : BufIdx) : (c.setDirty b).buf u =
      if u = b then { c.buf b with dirty := true } else c.buf u := setBuf_buf c b u _
  refine ⟨fun u => ?_, fun u => ?_, fun dev blockno hsettled => h.disk dev blockno fun u hu huv => ?_⟩
  · rw [hbuf]
    split
    · exact fun _ => hvalid
    · exact h.flags u
  · rw [hbuf]
    split
    · exact h.data b
    · exact h.data u
  · have hu' := hsettled u
    rw [hbuf] at hu'
    by_cases hub : u = b
    · subst hub
      rw [if_pos rfl] at hu'
      exact nomatch (hu' hu huv).1
    · rw [if_neg hub] at hu'
      exact hu' hu huv

theorem Content.save (h : Content disk c) (hdirty : (c.buf b).dirty = true) :
    Content disk (c.save b) := by
  refine ⟨h.flags, h.data, fun dev blockno hsettled => h.disk dev blockno fun u hu huv => ?_⟩
  obtain ⟨hclean, hsaved⟩ := hsettled u hu huv
  have hub : u ≠ b := by
    rintro rfl
    exact nomatch hdirty.symm.trans hclean
  refine ⟨hclean, ?_⟩
  simpa [Cache.save, hub] using hsaved

/-- `iderw` of `bwrite`: the bytes go to the disk. -/
theorem Content.write (h : Content disk c)
    (hunique : ∀ u, u ≠ b → (c.buf u).SameBlock (c.buf b) → (c.buf u).valid = false)
    (hdirty : (c.buf b).dirty = true) : Content disk ((c.iderw b).save b) := by
  have hvalid := h.flags b hdirty
  have hwrite : c.iderw b = { c.setBuf b { c.buf b with dirty := false, valid := true } with
      disk := update c.disk (c.buf b).dev
        (update (c.disk (c.buf b).dev) (c.buf b).blockno (c.buf b).data) } := by
    unfold Cache.iderw Disk.memIderw
    simp [hdirty]
  have hbuf (u : BufIdx) : (c.iderw b).buf u =
      if u = b then { c.buf b with dirty := false, valid := true } else c.buf u := by
    rw [hwrite]
    exact setBuf_buf c b u _
  have hdisk (dev blockno : Nat) : (c.iderw b).disk dev blockno =
      if (c.buf b).dev = dev ∧ (c.buf b).blockno = blockno then (c.buf b).data
      else c.disk dev blockno := by
    rw [hwrite]
    by_cases hdev : dev = (c.buf b).dev
    · subst hdev
      by_cases hblock : blockno = (c.buf b).blockno
      · simp [hblock]
      · simp [hblock, Ne.symm hblock]
    · simp [hdev, Ne.symm hdev]
  refine ⟨fun u => ?_, fun u => ?_, fun dev blockno hsettled => ?_⟩
  · change ((c.iderw b).buf u).dirty = true → ((c.iderw b).buf u).valid = true
    rw [hbuf]
    split
    · exact nofun
    · exact h.flags u
  · change ((c.iderw b).buf u).valid = true → ((c.iderw b).buf u).data =
        latest disk c.stores ((c.iderw b).buf u).dev ((c.iderw b).buf u).blockno
    rw [hbuf]
    split
    · exact fun _ => h.data b hvalid
    · exact h.data u
  · change (c.iderw b).disk dev blockno = latest disk c.stores dev blockno
    rw [hdisk]
    split
    · next hs =>
      obtain ⟨rfl, rfl⟩ := hs
      exact h.data b hvalid
    · next hs =>
      refine h.disk dev blockno fun u hu huv => ?_
      have hub : u ≠ b := by
        rintro rfl
        exact hs (isBlock_iff.mp hu)
      have hu' := hsettled u
      change ((c.iderw b).buf u).isBlock dev blockno = true → ((c.iderw b).buf u).valid = true →
        ((c.iderw b).buf u).dirty = false ∧ update c.unsaved b false u = false at hu'
      rw [hbuf, if_neg hub, update_of_ne hub] at hu'
      exact hu' hu huv

end

end Xv6.Bio

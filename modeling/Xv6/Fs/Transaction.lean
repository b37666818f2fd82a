import Xv6.Fs.FileWrite
import Xv6.Fs.ReadWrite

/-!
The blocks that one round of `filewrite` passes to `log_write`: those of the part,
one of the bitmap for each block that is allocated, the indirect block and the block
of the inode. They are never more than a transaction may have.
-/

namespace Xv6.Fs

open Lib Function Finset

/-- From `k` to `k'` only blocks of a set were passed to `log_write`. -/
def Logs (k k' : Disk) (blocks : Finset Nat) : Prop :=
  ∃ new, k'.log = new ++ k.log ∧ ∀ b ∈ new, b ∈ blocks

namespace Logs

variable {k k1 k' : Disk} {blocks blocks' : Finset Nat}

theorem refl (k : Disk) : Logs k k ∅ := ⟨[], rfl, fun _ hb => nomatch hb⟩

theorem mono (h : Logs k k' blocks) (hsub : blocks ⊆ blocks') : Logs k k' blocks' := by
  obtain ⟨new, hlog, hnew⟩ := h
  exact ⟨new, hlog, fun b hb => hsub (hnew b hb)⟩

theorem trans (h : Logs k k1 blocks) (h' : Logs k1 k' blocks') : Logs k k' (blocks ∪ blocks') := by
  obtain ⟨new, hlog, hnew⟩ := h
  obtain ⟨new', hlog', hnew'⟩ := h'
  refine ⟨new' ++ new, by rw [hlog', hlog, List.append_assoc], fun b hb => ?_⟩
  rcases List.mem_append.mp hb with hb | hb
  · exact mem_union_right _ (hnew' b hb)
  · exact mem_union_left _ (hnew b hb)

theorem write (h : Logs k k' blocks) (b : Nat) (x : Bytes) :
    Logs k (k'.write b x) (blocks ∪ {b}) := by
  apply h.trans
  exact ⟨[b], rfl, fun c hc => mem_singleton.mpr (List.mem_singleton.mp hc)⟩

end Logs

theorem Allocated.logs {k k' : Disk} {b : Nat} (h : Allocated k b k') :
    Logs k k' {b, BBLOCK b k.sb} := by
  rw [h.eq]
  refine ⟨[b, BBLOCK b k.sb], rfl, fun c hc => ?_⟩
  simpa using hc

section

variable {k k' : Disk} {ino : Nat → Dinode} {i bn addr b : Nat} {ip ip' : Dinode}

theorem bmapWord_logs (hword : (if indirectWord (k.block addr) bn = 0 then do
      let (data, k) ← balloc k
      .ok (data, ip, k.write addr (overlay (k.block addr) (4 * bn) 4 (leByte data)))
    else .ok (indirectWord (k.block addr) bn, ip, k) : Except Panic (Nat × Dinode × Disk)) =
      .ok (b, ip', k')) :
    ip' = ip ∧ ∃ maps : Finset Nat,
      maps.card ≤ (if indirectWord (k.block addr) bn = 0 then 1 else 0) ∧
      Logs k k' ({b} ∪ maps ∪ {addr}) := by
  split at hword
  · next hnone =>
    obtain ⟨⟨a, k1⟩, hballoc, hr⟩ := bind_eq_ok.mp hword
    cases hr
    have ha := (balloc_yields k).sound _ hballoc
    refine ⟨rfl, {BBLOCK b k.sb}, by rw [if_pos hnone, card_singleton], ?_⟩
    exact ha.logs.write addr _
  · cases hword
    exact ⟨rfl, ∅, Nat.zero_le _, (Logs.refl k).mono (empty_subset _)⟩

/-- What `bmap` logs: the block itself, a block of the bitmap for each entry that it
had to fill, and the indirect block. -/
theorem bmap_logs (hbn : bn < MAXFILE) (hmap : bmap k ip bn = .ok (addr, ip', k')) :
    ∃ maps : Finset Nat, maps.card ≤ missing k ip (entriesOf bn) ∧
      Logs k k' ({addr} ∪ maps ∪ if bn < NDIRECT then ∅ else {ip'.addrs NDIRECT}) := by
  unfold bmap at hmap
  by_cases hdirect : bn < NDIRECT
  · rw [if_pos hdirect] at hmap
    simp only [missing_direct hdirect, hdirect, ↓reduceIte, union_empty]
    split at hmap
    · next hnone =>
      obtain ⟨⟨a, k1⟩, hballoc, hr⟩ := bind_eq_ok.mp hmap
      cases hr
      have ha := (balloc_yields k).sound _ hballoc
      exact ⟨{BBLOCK addr k.sb}, by rw [if_pos hnone, card_singleton], ha.logs⟩
    · cases hmap
      exact ⟨∅, Nat.zero_le _, (Logs.refl k).mono (empty_subset _)⟩
  · have hge := Nat.not_lt.mp hdirect
    rw [if_neg hdirect, if_pos (by unfold MAXFILE at hbn; omega)] at hmap
    rw [missing_word hge hbn, if_neg hdirect]
    split at hmap
    · next hind =>
      obtain ⟨⟨a, k1⟩, hballoc, hr⟩ := bind_eq_ok.mp hmap
      have ha := (balloc_yields k).sound _ hballoc
      dsimp only at hr
      rw [ok_bind] at hr
      obtain ⟨rfl, maps, hcard, hlogs⟩ := bmapWord_logs hr
      have hone : maps.card ≤ 1 := Nat.le_trans hcard (by split <;> decide)
      refine ⟨insert (BBLOCK a k.sb) maps, ?_, (ha.logs.trans hlogs).mono ?_⟩
      · rw [if_pos hind]
        exact Nat.le_trans (card_insert_le _ _) (by omega)
      · have hself : update ip.addrs NDIRECT a NDIRECT = a := update_self _ _ _
        dsimp only at hself ⊢
        rw [hself]
        intro c hc
        simp only [mem_union, mem_insert, mem_singleton] at hc ⊢
        tauto
    · next hind =>
      rw [ok_bind] at hmap
      obtain ⟨rfl, maps, hcard, hlogs⟩ := bmapWord_logs hmap
      rw [← num_word hge hbn hind] at hcard
      exact ⟨maps, by rw [if_neg hind]; exact hcard, hlogs⟩

end

/-- The blocks of the contents that have `n` bytes at `off`. -/
def touched (off n : Nat) : Finset Nat := (Finset.Ico off (off + n)).image (· / BSIZE)

theorem touched_block (off : Nat) {n : Nat} (hn : n ≠ 0) : (touched off n).card =
      (touched (off + inBlock off n) (n - inBlock off n)).card + 1 := by
  have hpos := inBlock_pos off hn
  have hle := inBlock_le off n
  have hinsert : touched off n =
      insert (off / BSIZE) (touched (off + inBlock off n) (n - inBlock off n)) := by
    ext j
    unfold touched
    simp only [mem_insert, mem_image, mem_Ico]
    constructor
    · rintro ⟨m, ⟨hge, hlt⟩, rfl⟩
      by_cases hfirst : m < off + inBlock off n
      · left
        have hdiv : (off + (m - off)) / BSIZE = off / BSIZE := (inBlock_div (n := n) (by omega)).1
        rwa [Nat.add_sub_cancel' hge] at hdiv
      · exact .inr ⟨m, by omega, rfl⟩
    · rintro (rfl | ⟨m, hm, rfl⟩)
      · exact ⟨off, by omega, rfl⟩
      · exact ⟨m, by omega, rfl⟩
  rw [hinsert, card_insert_of_notMem]
  unfold touched
  simp only [mem_image, mem_Ico, not_exists, not_and]
  rintro m ⟨hge, hlt⟩ heq
  -- there are bytes left only if the first block is full
  unfold inBlock BSIZE at *
  omega

section

variable {k : Disk} {ino : Nat → Dinode} {i off : Nat}

theorem writeiLoop_logs (h : k.Owned ino) (src : List UInt8)
    (hsize : off + src.length ≤ MAXFILE * BSIZE) {ip : Dinode} {k' : Disk}
    (hloop : writeiLoop k (ino i) off src = .ok (ip, k')) :
    ∃ data maps : Finset Nat, data.card ≤ (touched off src.length).card ∧
      maps.card ≤ missing k (ino i) (needed off src.length) ∧
      Logs k k' (data ∪ maps ∪ {ip.addrs NDIRECT}) := by
  -- by induction on the number of bytes that are left
  induction hlen : src.length using Nat.strong_induction_on generalizing k ino off src with
  | _ n ih =>
  subst hlen
  rw [writeiLoop] at hloop
  split at hloop
  · cases hloop
    exact ⟨∅, ∅, Nat.zero_le _, Nat.zero_le _, (Logs.refl _).mono (empty_subset _)⟩
  · next hne =>
    obtain ⟨hlength, hpos, hle, hlt, htake, hdrop⟩ := inBlock_split hne hsize
    obtain ⟨⟨addr, ip1, k1⟩, hmap, hrest⟩ := bind_eq_ok.mp hloop
    dsimp only at hrest
    have hb := (bmap_spec h hlt).sound _ hmap
    dsimp only at hb
    have hblock := written_block (src.take (inBlock off src.length)) hb hlt (by omega) (by
      rw [htake]
      unfold inBlock BSIZE
      omega)
    have hfit : off + inBlock off src.length + (src.drop (inBlock off src.length)).length ≤
        MAXFILE * BSIZE := by omega
    have hself : update ino i ip1 i = ip1 := update_self _ _ _
    obtain ⟨maps, hmaps, hlogs⟩ := bmap_logs hlt hmap
    rw [← hself] at hrest
    obtain ⟨data', maps', hdata', hmaps', hlogs'⟩ := ih (src.drop (inBlock off src.length)).length
      (by omega) hblock.owned (src.drop (inBlock off src.length)) hfit hrest rfl
    have hw := (writeiLoop_spec hblock.owned (src.drop (inBlock off src.length)) hfit).sound _ hrest
    rw [hself, hdrop, hb.missing_write hlt] at hmaps'
    rw [hdrop] at hdata'
    rw [needed_block off (by omega), missing_union _ hmap hlt hb, touched_block off (by omega)]
    refine ⟨insert addr data', maps ∪ maps', ?_, ?_, ?_⟩
    · exact Nat.le_trans (card_insert_le _ _) (by omega)
    · exact Nat.le_trans (card_union_le _ _) (by omega)
    · -- the indirect block stays the one of the first round that needs it
      have hind : (if off / BSIZE < NDIRECT then ∅ else {ip1.addrs NDIRECT}) ⊆
          ({ip.addrs NDIRECT} : Finset Nat) := by
        split
        · exact empty_subset _
        · next hge =>
          have hne : ip1.addrs NDIRECT ≠ 0 := by
            intro hnone
            exact hb.ne (hb.num ▸ num_word_none (Nat.not_lt.mp hge) hlt hnone)
          have hkept := hw.kept i MAXFILE (by rw [hself]; exact hne)
          rw [update_self, hself] at hkept
          rw [← num_indirect, ← num_indirect, hkept]
      refine ((hlogs.write addr _).trans hlogs').mono ?_
      intro b hb
      simp only [mem_union, mem_insert, mem_singleton] at hb ⊢
      have hb' : b ∈ (if off / BSIZE < NDIRECT then ∅ else {ip1.addrs NDIRECT} : Finset Nat) →
          b = ip.addrs NDIRECT := fun hmem => mem_singleton.mp (hind hmem)
      rcases hb with (((hb | hb) | hb) | hb) | (hb | hb) | hb
      · exact .inl (Or.inl (Or.inl hb))
      · exact .inl (Or.inr (Or.inl hb))
      · exact .inr (hb' hb)
      · exact .inl (Or.inl (Or.inl hb))
      · exact .inl (Or.inl (Or.inr hb))
      · exact .inl (Or.inr (Or.inr hb))
      · exact .inr hb

end

section

variable {k : Disk} {ip : Dinode} {off n : Nat}

theorem touched_card (hn : n ≤ maxChunk) :
    (touched off n).card ≤ if off % BSIZE = 0 then 3 else 4 := by
  have hmax : maxChunk = 1536 := by decide
  have hsub : touched off n ⊆
      Finset.Ico (off / BSIZE) (off / BSIZE + if off % BSIZE = 0 then 3 else 4) := by
    intro j hj
    obtain ⟨m, hm, rfl⟩ := mem_image.mp hj
    rw [mem_Ico] at hm ⊢
    unfold BSIZE at *
    split <;> omega
  have hcard := card_le_card hsub
  rw [Nat.card_Ico] at hcard
  omega

/-- At most four blocks are allocated: a part that does not begin with a block begins in
one that the file has. -/
theorem missing_le (hfree : k.HoleFree ip) (hoff : off ≤ ip.size) (hn : n ≤ maxChunk) :
    missing k ip (needed off n) ≤ 4 := by
  have hentries (bn j : Nat) (hj : j ∈ entriesOf bn) : j = bn ∨ j = MAXFILE := by
    unfold entriesOf at hj
    split at hj
    · exact .inl (mem_singleton.mp hj)
    · simpa using hj
  have hneeded (j : Nat) (hj : j ∈ needed off n) : j ∈ touched off n ∨ j = MAXFILE := by
    obtain ⟨m, hm, hmem⟩ := mem_biUnion.mp hj
    rcases hentries _ _ hmem with rfl | hlast
    · exact .inl (mem_image_of_mem _ hm)
    · exact .inr hlast
  have hcard : (touched off n).card ≤ _ := touched_card hn
  by_cases hstart : off % BSIZE = 0
  · have hsub : (needed off n).filter (fun j => ip.num k.block j = 0) ⊆
        insert MAXFILE (touched off n) := by
      intro j hj
      rw [mem_insert]
      exact (hneeded j (mem_filter.mp hj).1).symm
    rw [if_pos hstart] at hcard
    have hle := Nat.le_trans (card_le_card hsub) (card_insert_le _ _)
    unfold missing
    omega
  · rw [if_neg hstart] at hcard
    have hfirst : ip.num k.block (off / BSIZE) ≠ 0 := by
      apply hfree.blocks
      unfold BSIZE at *
      omega
    have hsub : (needed off n).filter (fun j => ip.num k.block j = 0) ⊆
        insert MAXFILE ((touched off n).erase (off / BSIZE)) := by
      intro j hj
      obtain ⟨hmem, hzero⟩ := mem_filter.mp hj
      rw [mem_insert, mem_erase]
      rcases hneeded j hmem with htouched | hlast
      · refine .inr ⟨?_, htouched⟩
        rintro rfl
        exact hfirst hzero
      · exact .inl hlast
    have hle := Nat.le_trans (card_le_card hsub) (card_insert_le _ _)
    rcases Nat.eq_zero_or_pos n with rfl | hpos
    · rw [needed_zero]
      exact Nat.zero_le _
    · have hmem : off / BSIZE ∈ touched off n := mem_image.mpr ⟨off, mem_Ico.mpr (by omega), rfl⟩
      rw [card_erase_of_mem hmem] at hle
      unfold missing
      omega

end

/-- One round of `filewrite` passes at most `MAXOPBLOCKS` blocks to `log_write`. -/
theorem filewrite_transaction (devsw : Devsw) {k : Disk} {ino : Nat → Dinode} {i off : Nat}
    {src : List UInt8} (h : k.Owned ino) (hfree : k.HoleFree (ino i)) (hoff : off ≤ (ino i).size)
    (hlen : src.length ≤ maxChunk) {r : Int × Dinode × Disk}
    (hr : writei devsw k i (ino i) off src = .ok r) :
    ∃ new, r.2.2.log = new ++ k.log ∧ new.toFinset.card ≤ MAXOPBLOCKS := by
  have hmax : MAXOPBLOCKS = 10 := rfl
  have hbound {k' : Disk} {blocks : Finset Nat} (hlogs : Logs k k' blocks)
      (hcard : blocks.card ≤ 10) : ∃ new, k'.log = new ++ k.log ∧
        new.toFinset.card ≤ MAXOPBLOCKS := by
    obtain ⟨new, hlog, hnew⟩ := hlogs
    refine ⟨new, hlog, Nat.le_trans (card_le_card ?_) hcard⟩
    intro b hb
    exact hnew b (List.mem_toFinset.mp hb)
  unfold writei at hr
  split at hr
  · split at hr
    · cases hr
      exact hbound (Logs.refl k) (Nat.zero_le _)
    · split at hr <;> cases hr <;> exact hbound (Logs.refl k) (Nat.zero_le _)
  · split at hr
    · cases hr
      exact hbound (Logs.refl k) (Nat.zero_le _)
    · split at hr
      · cases hr
        exact hbound (Logs.refl k) (Nat.zero_le _)
      · next hsize =>
        obtain ⟨⟨ip, k'⟩, hloop, hr⟩ := bind_eq_ok.mp hr
        obtain ⟨data, maps, hdata, hmaps, hlogs⟩ :=
          writeiLoop_logs h src (Nat.not_lt.mp hsize) hloop
        have htouched : (touched off src.length).card ≤ _ := touched_card hlen
        have hmissing := missing_le hfree hoff hlen
        have hfour : (if off % BSIZE = 0 then 3 else 4) ≤ 4 := by split <;> decide
        have hunion := card_union_le (data ∪ maps) {ip.addrs NDIRECT}
        have hunion' := card_union_le data maps
        rw [card_singleton] at hunion
        dsimp only at hr
        split at hr
        · cases hr
          refine hbound (hlogs.write (IBLOCK i k'.sb) _) ?_
          have hlast := card_union_le (data ∪ maps ∪ {ip.addrs NDIRECT}) {IBLOCK i k'.sb}
          rw [card_singleton] at hlast
          omega
        · cases hr
          exact hbound hlogs (by omega)

open Mkfs in
/-- Two bytes behind the one byte of a file of an image of `mkfs`. -/
theorem filewrite_transaction_mounted : ∃ img r new, mkfs [⟨[97], [1]⟩] = .ok img ∧
    writei ⟨fun _ => none, fun _ => none⟩ (mounted img) 2 (inodeAt img 2) 1 [2, 3] = .ok r ∧
    r.2.2.log = new ++ (mounted img).log ∧ new.toFinset.card ≤ MAXOPBLOCKS := by
  obtain ⟨img, s, himg, hs, _, hsize, htype, hfree⟩ := mounted_oneFile
  have hself : fileInodes [⟨[97], [1]⟩] img 2 = inodeAt img 2 := if_pos (by decide)
  -- the bytes go to the block that the file has
  have hneeded : needed 1 2 = {0} := by decide
  have hmissing : missing (mounted img) (inodeAt img 2) (needed 1 2) = 0 := by
    unfold missing
    rw [hneeded, filter_singleton, if_neg (hfree.blocks 0 (by rw [hsize]; decide))]
    rfl
  obtain ⟨r, hr⟩ : ∃ r, writei ⟨fun _ => none, fun _ => none⟩ (mounted img) 2
      (fileInodes [⟨[97], [1]⟩] img 2) 1 [2, 3] = .ok r := by
    apply writei_space _ hs.owned
    · rw [hself, htype]
      decide
    · rw [hself, hsize]
    · decide
    · rw [hself]
      exact Nat.le_trans (Nat.le_of_eq hmissing) (Nat.zero_le _)
  obtain ⟨new, hlog, hcard⟩ := filewrite_transaction ⟨fun _ => none, fun _ => none⟩ hs.owned
    (by rw [hself]; exact hfree) (by rw [hself, hsize]) (by decide) hr
  rw [hself] at hr
  exact ⟨img, r, new, himg, hr, hlog, hcard⟩

end Xv6.Fs

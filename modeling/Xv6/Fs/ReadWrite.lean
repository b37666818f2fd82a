import Mathlib.Order.Interval.Finset.Nat
import Xv6.Mkfs.Mounted

/-!
`readi` and `writei` as operations on an array of bytes. A write takes a free block
for every block of it that the file does not have, and one for the indirect block if
that is wanting; with fewer free blocks `balloc` panics.
-/

namespace Xv6.Fs

open Lib Function Finset

def Disk.nfree (k : Disk) : Nat :=
  ((Finset.range k.sb.size).filter fun b => k.inUse b = false).card

/-- The entries of an inode that lead to block `bn` of its contents. -/
def entriesOf (bn : Nat) : Finset Nat := if bn < NDIRECT then {bn} else {bn, MAXFILE}

/-- The entries that lead to `n` bytes at `off`. -/
def needed (off n : Nat) : Finset Nat :=
  (Finset.Ico off (off + n)).biUnion fun m => entriesOf (m / BSIZE)

/-- How many of some entries are not there yet. -/
def missing (k : Disk) (ip : Dinode) (entries : Finset Nat) : Nat :=
  (entries.filter fun j => ip.num k.block j = 0).card

section

variable {k k' : Disk} {ino : Nat → Dinode} {b c : Nat}

theorem Allocated.nfree_eq (h : Allocated k b k') (ho : k.Owned ino) : k'.nfree + 1 = k.nfree := by
  have herase : ((Finset.range k.sb.size).filter fun c => k'.inUse c = false) =
      ((Finset.range k.sb.size).filter fun c => k.inUse c = false).erase b := by
    ext c
    simp only [mem_filter, mem_range, mem_erase]
    constructor
    · rintro ⟨hc, hfree⟩
      rw [h.inUse_eq ho hc, Bool.or_eq_false_iff, decide_eq_false_iff_not] at hfree
      exact ⟨hfree.1, hc, hfree.2⟩
    · rintro ⟨hne, hc, hfree⟩
      rw [h.inUse_eq ho hc, Bool.or_eq_false_iff, decide_eq_false_iff_not]
      exact ⟨hc, hne, hfree⟩
  unfold Disk.nfree
  rw [h.sb_eq, herase]
  apply card_erase_add_one
  rw [mem_filter, mem_range]
  exact ⟨h.lt, h.free⟩

theorem Disk.Full.nfree_eq (h : k.Full) : k.nfree = 0 := by
  unfold Disk.nfree
  rw [card_eq_zero, filter_eq_empty_iff]
  intro b hb hfree
  rw [h b (mem_range.mp hb)] at hfree
  cases hfree

theorem nfree_write (hc : ¬ k.sb.Meta c) (x : Bytes) : (k.write c x).nfree = k.nfree := by
  have hused (b : Nat) (hb : b < k.sb.size) : (k.write c x).inUse b = k.inUse b := by
    unfold Disk.inUse
    change bit (update k.block c x (BBLOCK b k.sb)) _ = _
    rw [update_of_ne]
    rintro rfl
    exact hc (k.sb.meta_bblock hb)
  unfold Disk.nfree
  change ((Finset.range k.sb.size).filter _).card = _
  congr 1
  apply filter_congr
  intro b hb
  rw [hused b (mem_range.mp hb)]

theorem balloc_space (h : k.Owned ino) : Yields (fun e => e = .balloc ∧ k.nfree = 0)
    (fun r => Allocated k r.1 r.2 ∧ r.2.nfree + 1 = k.nfree) (balloc k) := by
  have hspec := balloc_spec k
  refine ⟨fun e he => ?_, fun r hr => ?_⟩
  · obtain ⟨hpanic, hfull⟩ := hspec.errs e he
    exact ⟨hpanic, hfull.nfree_eq⟩
  · have ha := hspec.sound r hr
    exact ⟨ha, ha.nfree_eq h⟩

end

section

variable {k : Disk} {ip : Dinode} {bn : Nat}

theorem missing_direct (hbn : bn < NDIRECT) :
    missing k ip (entriesOf bn) = if ip.addrs bn = 0 then 1 else 0 := by
  unfold missing entriesOf
  rw [if_pos hbn, filter_singleton, num_direct hbn]
  split <;> rfl

theorem missing_word (hge : NDIRECT ≤ bn) (hbn : bn < MAXFILE) :
    missing k ip (entriesOf bn) = if ip.addrs NDIRECT = 0 then 2
      else if ip.num k.block bn = 0 then 1 else 0 := by
  have hne : bn ∉ ({MAXFILE} : Finset Nat) := by
    rw [mem_singleton]
    omega
  unfold missing entriesOf
  rw [if_neg (Nat.not_lt.mpr hge), filter_insert, filter_singleton, num_indirect]
  by_cases hind : ip.addrs NDIRECT = 0
  · rw [if_pos hind, if_pos hind, num_word_none hge hbn hind, if_pos rfl,
      card_insert_of_notMem hne, card_singleton]
  · rw [if_neg hind, if_neg hind]
    split <;> rfl

end

section

variable {k : Disk} {ino : Nat → Dinode} {i bn : Nat}

theorem bmapWord_space (h : k.Owned ino) (hge : NDIRECT ≤ bn) (hlt : bn < MAXFILE)
    (hind : (ino i).addrs NDIRECT ≠ 0) :
    Yields (fun e => e = .balloc ∧ k.nfree < if (ino i).num k.block bn = 0 then 1 else 0)
      (fun r => r.2.2.nfree + (if (ino i).num k.block bn = 0 then 1 else 0) = k.nfree)
      (if indirectWord (k.block ((ino i).addrs NDIRECT)) (bn - NDIRECT) = 0 then do
        let (data, k') ← balloc k
        .ok (data, ino i, k'.write ((ino i).addrs NDIRECT)
          (overlay (k'.block ((ino i).addrs NDIRECT)) (4 * (bn - NDIRECT)) 4 (leByte data)))
      else .ok (indirectWord (k.block ((ino i).addrs NDIRECT)) (bn - NDIRECT), ino i, k)) := by
  have hdata := (h.num_own (i := i) (j := MAXFILE) hind).2.1
  rw [num_indirect] at hdata
  rw [← num_word hge hlt hind]
  split
  · have hspace := (balloc_space h).imp
      (fun e he => show e = .balloc ∧ k.nfree < 1 from ⟨he.1, by omega⟩) fun r hr => hr
    refine hspace.bind ?_
    rintro ⟨b, k'⟩ ⟨ha, hfree⟩
    apply yields_ok
    dsimp only at ha hfree ⊢
    rw [nfree_write (by rw [ha.sb_eq]; exact hdata)]
    exact hfree
  · exact yields_ok (Nat.add_zero _)

theorem bmap_space (h : k.Owned ino) (hbn : bn < MAXFILE) :
    Yields (fun e => e = .balloc ∧ k.nfree < missing k (ino i) (entriesOf bn))
      (fun r => r.2.2.nfree + missing k (ino i) (entriesOf bn) = k.nfree)
      (bmap k (ino i) bn) := by
  unfold bmap
  split
  · next hdirect =>
    rw [missing_direct hdirect]
    split
    · have hspace := (balloc_space h).imp
        (fun e he => show e = .balloc ∧ k.nfree < 1 from ⟨he.1, by omega⟩) fun r hr => hr
      exact hspace.bind fun r hr => yields_ok hr.2
    · exact yields_ok (Nat.add_zero _)
  · next hge =>
    have hge := Nat.not_lt.mp hge
    rw [if_pos (by unfold MAXFILE at hbn; omega)]
    split
    · next hind =>
      rw [missing_word hge hbn, if_pos hind]
      have hspace := (balloc_space h).imp
        (fun e he => show e = .balloc ∧ k.nfree < 2 from ⟨he.1, by omega⟩) fun r hr => hr
      refine hspace.bind ?_
      rintro ⟨a, k1⟩ ⟨ha, hfree⟩
      have hmap := bmapped_addr h ha (Nat.le_refl _) (if_neg (Nat.lt_irrefl _)).symm hind
      have htail := bmapWord_space hmap.owned (i := i) hge hbn (by
        simpa only [update_self] using hmap.ne)
      have hnone := hmap.others i bn fun _ => ⟨Nat.ne_of_lt hbn, Nat.ne_of_lt hbn⟩
      rw [num_word_none hge hbn hind, update_self] at hnone
      simp only [update_self, hnone, ↓reduceIte] at htail
      dsimp only at hfree ⊢
      refine htail.imp (fun e he => ⟨he.1, by omega⟩) fun r hr => ?_
      omega
    · next hind =>
      rw [missing_word hge hbn, if_neg hind]
      exact bmapWord_space h hge hbn hind

theorem bmap_indirect {addr : Nat} {ip ip' : Dinode} {k' : Disk}
    (hmap : bmap k ip bn = .ok (addr, ip', k')) (hbn : bn < NDIRECT) :
    ip'.addrs NDIRECT = ip.addrs NDIRECT := by
  unfold bmap at hmap
  rw [if_pos hbn] at hmap
  split at hmap
  · obtain ⟨r, _, hr⟩ := bind_eq_ok.mp hmap
    cases hr
    exact update_of_ne (Nat.ne_of_gt hbn) _ _
  · cases hmap
    rfl

/-- What is missing behind one round of `bmap` was missing before it, or is one of the
entries of the round. -/
theorem missing_union {addr : Nat} {ip : Dinode} {k' : Disk} (entries : Finset Nat)
    (hmap : bmap k (ino i) bn = .ok (addr, ip, k')) (hbn : bn < MAXFILE)
    (h : Bmapped k ino i bn addr ip k') :
    missing k (ino i) (entriesOf bn ∪ entries) =
      missing k (ino i) (entriesOf bn) + missing k' ip entries := by
  have hthere (j : Nat) (hj : j ∈ entriesOf bn) : ip.num k'.block j ≠ 0 := by
    have hself : ip.num k'.block bn ≠ 0 := h.num ▸ h.ne
    unfold entriesOf at hj
    split at hj
    · rw [mem_singleton.mp hj]
      exact hself
    · next hge =>
      rcases mem_insert.mp hj with rfl | hj
      · exact hself
      · rw [mem_singleton.mp hj, num_indirect]
        intro hind
        exact hself (num_word_none (Nat.not_lt.mp hge) hbn hind)
  have hother (j : Nat) (hj : j ∉ entriesOf bn) :
      ip.num k'.block j = (ino i).num k.block j := by
    have hne : j ≠ bn := by
      rintro rfl
      apply hj
      unfold entriesOf
      split <;> simp
    by_cases hlast : j = MAXFILE
    · subst hlast
      have hdirect : bn < NDIRECT := by
        by_contra hge
        apply hj
        unfold entriesOf
        rw [if_neg hge]
        simp
      exact bmap_indirect hmap hdirect
    · have hsame := h.others i j fun _ => ⟨hne, hlast⟩
      rwa [update_self] at hsame
  have hsplit : (entriesOf bn ∪ entries).filter (fun j => (ino i).num k.block j = 0) =
      (entriesOf bn).filter (fun j => (ino i).num k.block j = 0) ∪
        entries.filter fun j => ip.num k'.block j = 0 := by
    ext j
    simp only [mem_filter, mem_union]
    by_cases hj : j ∈ entriesOf bn
    · simp [hj, hthere j hj]
    · simp [hj, hother j hj]
  unfold missing
  rw [hsplit]
  apply card_union_of_disjoint
  rw [disjoint_left]
  intro j hfirst hsecond
  exact hthere j (mem_filter.mp hfirst).1 (mem_filter.mp hsecond).2

end

theorem Bmapped.missing_write {k k' : Disk} {ino : Nat → Dinode} {i bn addr : Nat} {ip : Dinode}
    (h : Bmapped k ino i bn addr ip k') (hbn : bn < MAXFILE) (x : Bytes) (entries : Finset Nat) :
    missing (k'.write addr x) ip entries = missing k' ip entries := by
  have hself : (update ino i ip i).num k'.block bn = addr := by
    rw [update_self]
    exact h.num
  have hnum := h.owned.num_write hbn (i := i) x i
  rw [hself, update_self] at hnum
  unfold missing
  congr 1
  apply filter_congr
  intro j _
  rw [hnum j]

theorem needed_zero (off : Nat) : needed off 0 = ∅ := by
  unfold needed
  rw [Nat.add_zero, Finset.Ico_self, biUnion_empty]

theorem needed_block (off : Nat) {n : Nat} (hn : n ≠ 0) :
    needed off n = entriesOf (off / BSIZE) ∪ needed (off + inBlock off n) (n - inBlock off n) := by
  have hpos := inBlock_pos off hn
  have hle := inBlock_le off n
  have hrest : off + inBlock off n + (n - inBlock off n) = off + n := by omega
  have hin (m : Nat) (hge : off ≤ m) (hlt : m < off + inBlock off n) :
      m / BSIZE = off / BSIZE := by
    have hdiv : (off + (m - off)) / BSIZE = off / BSIZE := (inBlock_div (n := n) (by omega)).1
    rwa [Nat.add_sub_cancel' hge] at hdiv
  ext j
  unfold needed
  rw [hrest]
  simp only [mem_union, mem_biUnion, mem_Ico]
  constructor
  · rintro ⟨m, ⟨hge, hlt⟩, hj⟩
    by_cases hfirst : m < off + inBlock off n
    · rw [hin m hge hfirst] at hj
      exact .inl hj
    · exact .inr ⟨m, ⟨by omega, hlt⟩, hj⟩
  · rintro (hj | ⟨m, ⟨hge, hlt⟩, hj⟩)
    · exact ⟨off, ⟨Nat.le_refl _, by omega⟩, hj⟩
    · exact ⟨m, ⟨by omega, hlt⟩, hj⟩

section

variable {k : Disk} {ino : Nat → Dinode} {i off n : Nat}

theorem writeiLoop_space (h : k.Owned ino) (src : List UInt8)
    (hsize : off + src.length ≤ MAXFILE * BSIZE) :
    Yields (fun e => e = .balloc ∧ k.nfree < missing k (ino i) (needed off src.length))
      (fun r => r.2.nfree + missing k (ino i) (needed off src.length) = k.nfree)
      (writeiLoop k (ino i) off src) := by
  -- by induction on the number of bytes that are left
  induction hlen : src.length using Nat.strong_induction_on generalizing k ino off src with
  | _ n ih =>
  subst hlen
  rw [writeiLoop]
  split
  · next hnil =>
    subst hnil
    apply yields_ok
    rw [List.length_nil, needed_zero]
    exact Nat.add_zero _
  · next hne =>
    obtain ⟨hlength, hpos, hle, hlt, htake, hdrop⟩ := inBlock_split hne hsize
    rw [needed_block off (by omega)]
    have hspec := bmap_spec (i := i) h hlt
    have hspace := bmap_space (i := i) h hlt
    cases hmap : bmap k (ino i) (off / BSIZE) with
    | error e =>
      obtain ⟨hpanic, hless⟩ := hspace.errs e hmap
      apply yields_error
      refine ⟨hpanic, Nat.lt_of_lt_of_le hless ?_⟩
      apply card_le_card
      exact filter_subset_filter _ subset_union_left
    | ok r =>
      obtain ⟨addr, ip, k1⟩ := r
      have hb := hspec.sound _ hmap
      have hfree := hspace.sound _ hmap
      dsimp only at hb hfree
      rw [missing_union _ hmap hlt hb, ok_bind]
      dsimp only
      have hblock := written_block (src.take (inBlock off src.length)) hb hlt (by omega) (by
        rw [htake]
        unfold inBlock BSIZE
        omega)
      have hself : (update ino i ip i).num k1.block (off / BSIZE) = addr := by
        rw [update_self]
        exact hb.num
      have hdata : ¬ k1.sb.Meta addr := by
        have hown := (hb.owned.num_own (hself.symm ▸ hb.ne)).2.1
        rwa [hself] at hown
      have hfit : off + inBlock off src.length + (src.drop (inBlock off src.length)).length ≤
          MAXFILE * BSIZE := by omega
      have hrest := ih (src.drop (inBlock off src.length)).length (by omega) hblock.owned
        (src.drop (inBlock off src.length)) hfit rfl
      rw [update_self, hdrop, hb.missing_write hlt, nfree_write hdata] at hrest
      refine hrest.imp (fun e he => ⟨he.1, by omega⟩) fun r hr => ?_
      omega

theorem writei_refused (devsw : Devsw) {src : List UInt8} {inum : Nat} {ip : Dinode}
    (htype : ip.type ≠ T_DEV) (hout : ¬ (off ≤ ip.size ∧ off + src.length ≤ MAXFILE * BSIZE)) :
    writei devsw k inum ip off src = .ok (-1, ip, k) := by
  unfold writei
  rw [if_neg htype]
  by_cases hbad : ip.size < off ∨ (off + src.length) % 4294967296 < off
  · rw [if_pos hbad]
  · rw [if_neg hbad, if_pos (by omega)]

theorem writei_space (devsw : Devsw) {src : List UInt8} (h : k.Owned ino)
    (htype : (ino i).type ≠ T_DEV) (hoff : off ≤ (ino i).size)
    (hsize : off + src.length ≤ MAXFILE * BSIZE)
    (hspace : missing k (ino i) (needed off src.length) ≤ k.nfree) :
    ∃ r, writei devsw k i (ino i) off src = .ok r := by
  have hmax : MAXFILE * BSIZE < 4294967296 := by decide
  have hloop := writeiLoop_space (i := i) h src hsize
  unfold writei
  rw [if_neg htype, if_neg (by omega), if_neg (by omega)]
  cases hr : writeiLoop k (ino i) off src with
  | error e =>
    have hless := (hloop.errs e hr).2
    omega
  | ok r =>
    rw [ok_bind]
    dsimp only
    split
    · exact ⟨_, rfl⟩
    · exact ⟨_, rfl⟩

/-- `writei` writes the bytes, or panics in `balloc` for want of a block. -/
theorem writei_or_short (devsw : Devsw) {src : List UInt8} (h : k.Owned ino)
    (hi : i < k.sb.ninodes) (htype : (ino i).type ≠ T_DEV) (hfits : (ino i).Fits)
    (hfree : k.HoleFree (ino i)) (hoff : off ≤ (ino i).size)
    (hsize : off + src.length ≤ MAXFILE * BSIZE) :
    Yields (fun e => e = .balloc ∧ k.nfree < missing k (ino i) (needed off src.length))
      (WriteiDone k ino i off src) (writei devsw k i (ino i) off src) := by
  have hdone := writei_spec devsw h hi htype hfits hfree hoff hsize
  refine ⟨fun e he => ⟨hdone.errs e he, ?_⟩, hdone.sound⟩
  by_contra hspace
  obtain ⟨r, hr⟩ := writei_space devsw h htype hoff hsize (Nat.not_lt.mp hspace)
  rw [hr] at he
  cases he

/-- `writei` succeeds only with a free block for each entry that is missing. -/
theorem writei_missing (devsw : Devsw) {src : List UInt8} (h : k.Owned ino)
    (htype : (ino i).type ≠ T_DEV) (hoff : off ≤ (ino i).size)
    (hsize : off + src.length ≤ MAXFILE * BSIZE) {r : Int × Dinode × Disk}
    (hr : writei devsw k i (ino i) off src = .ok r) :
    missing k (ino i) (needed off src.length) ≤ k.nfree := by
  have hmax : MAXFILE * BSIZE < 4294967296 := by decide
  unfold writei at hr
  rw [if_neg htype, if_neg (by omega), if_neg (by omega)] at hr
  obtain ⟨r', hloop, _⟩ := bind_eq_ok.mp hr
  have hspace := (writeiLoop_space (i := i) h src hsize).sound r' hloop
  omega

/-- Nothing is missing for bytes in blocks that the file has. -/
theorem missing_present {ip : Dinode} (hfree : k.HoleFree ip)
    (hin : ∀ m, off ≤ m → m < off + n → m / BSIZE * BSIZE < ip.size) :
    missing k ip (needed off n) = 0 := by
  unfold missing needed
  rw [card_eq_zero, filter_eq_empty_iff]
  intro j hj
  obtain ⟨m, hm, hj⟩ := mem_biUnion.mp hj
  obtain ⟨hbn, hne⟩ := hfree.block (hin m (mem_Ico.mp hm).1 (mem_Ico.mp hm).2)
  rw [Nat.mul_div_cancel _ (by decide)] at hbn hne
  unfold entriesOf at hj
  split at hj
  · rw [mem_singleton.mp hj]
    exact hne
  · next hge =>
    rcases mem_insert.mp hj with rfl | hj
    · exact hne
    · rw [mem_singleton.mp hj]
      unfold Dinode.num at hne ⊢
      rw [if_neg hge, if_pos hbn] at hne
      rw [if_neg (by decide), if_neg (Nat.lt_irrefl _), if_pos rfl]
      intro hzero
      exact hne (if_pos hzero)

/-- A file without holes is an array of bytes. `readi` returns those from `off` on, as
many as there are; `writei` replaces those at `off` if it is not behind the end and
the last is within the largest size, given the free blocks for it, and refuses with
`-1` otherwise. -/
theorem readi_writei_bytes (devsw : Devsw) (src : List UInt8) (h : k.Owned ino)
    (hi : i < k.sb.ninodes) (htype : (ino i).type = T_FILE ∨ (ino i).type = T_DIR)
    (hfits : (ino i).Fits) (hfree : k.HoleFree (ino i)) (hoff : off < 4294967296)
    (hn : n < 4294967296) :
    (readi devsw k (ino i) off n = if off ≤ (ino i).size ∧ off + n < 4294967296 then
        .ok (((min n ((ino i).size - off) : Nat) : Int), ((k.contents (ino i)).drop off).take n,
          ino i, k)
      else .ok (-1, [], ino i, k)) ∧
    if off ≤ (ino i).size ∧ off + src.length ≤ MAXFILE * BSIZE then
      (missing k (ino i) (needed off src.length) ≤ k.nfree →
        ∃ r, writei devsw k i (ino i) off src = .ok r) ∧
      Yields (fun e => e = .balloc) (WriteiDone k ino i off src)
        (writei devsw k i (ino i) off src)
    else writei devsw k i (ino i) off src = .ok (-1, ino i, k) := by
  have hdev : (ino i).type ≠ T_DEV := by
    rcases htype with htype | htype <;> rw [htype] <;> decide
  refine ⟨readi_spec devsw hdev hfree hoff hn, ?_⟩
  split
  · next hin =>
    refine ⟨writei_space devsw h hdev hin.1 hin.2, ?_⟩
    exact writei_spec devsw h hi hdev hfits hfree hin.1 hin.2
  · next hout => exact writei_refused devsw hdev hout

open Mkfs in
/-- The file of an image of `mkfs` with one byte: two more are written behind it. -/
theorem readi_writei_mounted : ∃ img, mkfs [⟨[97], [1]⟩] = .ok img ∧
    readi ⟨fun _ => none, fun _ => none⟩ (mounted img) (inodeAt img 2) 0 5 =
      .ok (1, [1], inodeAt img 2, mounted img) ∧
    ∃ r, writei ⟨fun _ => none, fun _ => none⟩ (mounted img) 2 (inodeAt img 2) 1 [2, 3] = .ok r ∧
      r.1 = 2 ∧ r.2.2.contents r.2.1 = [1, 2, 3] := by
  obtain ⟨img, s, himg, hs, hcontents, hsize, htype, hfree⟩ := mounted_oneFile
  have hself : fileInodes [⟨[97], [1]⟩] img 2 = inodeAt img 2 := if_pos (by decide)
  have hninodes : 2 < (mounted img).sb.ninodes := by
    rw [hs.mounted_sb]
    decide
  have hboth (off n : Nat) (hoff : off < 4294967296) (hn : n < 4294967296) :=
    readi_writei_bytes (n := n) ⟨fun _ => none, fun _ => none⟩ [2, 3] hs.owned (i := 2)
      hninodes (by rw [hself]; exact .inl htype) (by rw [hself]; exact Dinode.fits_read _ _)
      (by rw [hself]; exact hfree) hoff hn
  rw [hself] at hboth
  refine ⟨img, himg, ?_, ?_⟩
  · rw [(hboth 0 5 (by decide) (by decide)).1, hsize, hcontents]
    rfl
  · have hwrite := (hboth 1 5 (by decide) (by decide)).2
    rw [hsize, if_pos (by decide)] at hwrite
    have hnone : missing (mounted img) (inodeAt img 2) (needed 1 2) = 0 :=
      missing_present hfree (by rw [hsize]; decide)
    obtain ⟨r, hr⟩ := hwrite.1 (hnone ▸ Nat.zero_le _)
    have hdone := hwrite.2.sound r hr
    refine ⟨r, hr, hdone.result, ?_⟩
    rw [hdone.contents, hself, hcontents]
    rfl

end

end Xv6.Fs

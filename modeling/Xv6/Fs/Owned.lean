import Xv6.Fs.Inode
import Xv6.Lib.Numbering

/-!
Which block belongs to which inode. The numbers in the inodes and in their
indirect blocks are those of the blocks that the bitmap has in use and that are no
metadata, each once. `balloc` hands out a block that nobody has, and `bmap` gives
it a place in one file.
-/

namespace Xv6.Fs

open Lib Function

/-- The bit of block `b` in the bitmap. -/
def Disk.inUse (k : Disk) (b : Nat) : Bool := bit (k.block (BBLOCK b k.sb)) (b % BPB)

/-- The number of blocks before those of the files: boot block, super block, log,
inodes and bitmap. -/
def Superblock.nmeta (sb : Superblock) : Nat := sb.bmapstart + sb.size / BPB + 1

def Superblock.Meta (sb : Superblock) (b : Nat) : Prop := b < sb.nmeta

/-- A super block whose areas do not overlap. -/
structure Superblock.Sane (sb : Superblock) : Prop where
  size : sb.size < 4294967296
  inodestart : 1 < sb.inodestart
  bmapstart : sb.inodestart + sb.ninodes / IPB < sb.bmapstart

namespace Superblock

variable {sb : Superblock}

theorem meta_bblock (sb : Superblock) {c : Nat} (hc : c < sb.size) : sb.Meta (BBLOCK c sb) := by
  have hdiv : c / BPB ≤ sb.size / BPB := Nat.div_le_div_right (Nat.le_of_lt hc)
  unfold Meta nmeta BBLOCK BPB BSIZE at *
  omega

theorem Sane.iblock_lt (h : sb.Sane) {i : Nat} (hi : i < sb.ninodes) :
    1 < IBLOCK i sb ∧ IBLOCK i sb < sb.bmapstart := by
  have hdiv : i / IPB ≤ sb.ninodes / IPB := Nat.div_le_div_right (Nat.le_of_lt hi)
  have hstart := h.inodestart
  have hend := h.bmapstart
  unfold IBLOCK IPB BSIZE DINODESIZE at *
  omega

theorem meta_of_le {b : Nat} (hb : b ≤ sb.bmapstart) : sb.Meta b := by
  unfold Meta nmeta BPB BSIZE
  omega

theorem Sane.meta_iblock (h : sb.Sane) {i : Nat} (hi : i < sb.ninodes) : sb.Meta (IBLOCK i sb) :=
  meta_of_le (Nat.le_of_lt (h.iblock_lt hi).2)

theorem Sane.apart (h : sb.Sane) {i : Nat} (hi : i < sb.ninodes) (c : Nat) :
    IBLOCK i sb ≠ BBLOCK c sb := by
  have hlt := (h.iblock_lt hi).2
  have hge : sb.bmapstart ≤ BBLOCK c sb := Nat.le_add_left _ _
  omega

theorem Sane.one_lt_bmapstart (h : sb.Sane) : 1 < sb.bmapstart :=
  Nat.lt_of_lt_of_le h.inodestart (Nat.le_trans (Nat.le_add_right _ _) (Nat.le_of_lt h.bmapstart))

theorem Sane.one_lt_bblock (h : sb.Sane) (c : Nat) : 1 < BBLOCK c sb :=
  Nat.lt_of_lt_of_le h.one_lt_bmapstart (Nat.le_add_left _ _)

theorem Sane.meta_of_le_one (h : sb.Sane) {b : Nat} (hb : b ≤ 1) : sb.Meta b :=
  meta_of_le (Nat.le_trans hb (Nat.le_of_lt h.one_lt_bmapstart))

end Superblock

/-- The blocks of the inodes `ino` are the blocks in use, each once. -/
structure Disk.Owned (k : Disk) (ino : Nat → Dinode) : Prop where
  sane : k.sb.Sane
  super : Superblock.read (k.block 1) = k.sb
  reserved : ∀ b, b < k.sb.size → k.sb.Meta b → k.inUse b = true
  owners : Owners (fun b => b < k.sb.size ∧ ¬ k.sb.Meta b ∧ k.inUse b = true)
    fun ij : Nat × Nat => (ino ij.1).num k.block ij.2

theorem ballocScan_some {x : Bytes} {b size start bi : Nat}
    (h : ballocScan x b size start = some bi) :
    bi < BPB ∧ b + bi < size ∧ bit x bi = false := by
  -- by induction along the loop
  fun_induction ballocScan x b size start with
  | case1 _ hlt hset ih => exact ih h
  | case2 _ hlt hset =>
    cases h
    exact ⟨hlt.1, hlt.2, Bool.eq_false_iff.mpr hset⟩
  | case3 => cases h

theorem ballocScan_none {x : Bytes} {b size start : Nat} (h : ballocScan x b size start = none)
    (bi : Nat) (hstart : start ≤ bi) (hlt : bi < BPB) (hsize : b + bi < size) :
    bit x bi = true := by
  fun_induction ballocScan x b size start with
  | case1 start _ hset ih =>
    rcases Nat.eq_or_lt_of_le hstart with rfl | hnext
    · exact hset
    · exact ih h hnext
  | case2 => cases h
  | case3 start hend => omega

/-- `balloc` has handed out the free block `b`. -/
structure Allocated (k : Disk) (b : Nat) (k' : Disk) : Prop where
  lt : b < k.sb.size
  free : k.inUse b = false
  eq : k' = bzero (k.write (BBLOCK b k.sb) (setBit (k.block (BBLOCK b k.sb)) (b % BPB))) b

theorem bblock_add (sb : Superblock) {b bi : Nat} (hb : b % BPB = 0) (hbi : bi < BPB) :
    BBLOCK (b + bi) sb = BBLOCK b sb ∧ (b + bi) % BPB = bi := by
  unfold BBLOCK BPB BSIZE at *
  omega

theorem ballocLoop_spec {k : Disk} {b : Nat} (hb : b % BPB = 0) :
    (∀ c k', ballocLoop k b = .ok (c, k') → Allocated k c k') ∧
    ∀ e, ballocLoop k b = .error e →
      e = .balloc ∧ ∀ c, b ≤ c → c < k.sb.size → k.inUse c = true := by
  fun_induction ballocLoop k b with
  | case1 b hlt bi hscan bp =>
    obtain ⟨hbi, hsize, hfree⟩ := ballocScan_some hscan
    obtain ⟨hblock, hmod⟩ := bblock_add k.sb hb hbi
    refine ⟨?_, fun e he => by cases he⟩
    intro c k' h
    cases h
    refine ⟨hsize, ?_, ?_⟩
    · unfold Disk.inUse
      rw [hblock, hmod]
      exact hfree
    · rw [hblock, hmod]
  | case2 b hlt hscan ih =>
    obtain ⟨hok, herror⟩ := ih (by unfold BPB BSIZE at *; omega)
    refine ⟨hok, fun e he => ?_⟩
    obtain ⟨hpanic, hrest⟩ := herror e he
    refine ⟨hpanic, fun c hge hc => ?_⟩
    by_cases hin : c < b + BPB
    · obtain ⟨hblock, hmod⟩ := bblock_add k.sb hb (show c - b < BPB by omega)
      rw [Nat.add_sub_cancel' hge] at hblock hmod
      unfold Disk.inUse
      rw [hblock, hmod]
      exact ballocScan_none hscan (c - b) (Nat.zero_le _) (by omega) (by omega)
    · exact hrest c (by omega) hc
  | case3 b hlt =>
    refine ⟨fun c k' h => (by cases h), fun e he => ?_⟩
    cases he
    exact ⟨rfl, fun c hge hc => by omega⟩

def Disk.Full (k : Disk) : Prop := ∀ b, b < k.sb.size → k.inUse b = true

theorem balloc_spec (k : Disk) : Yields (fun e => e = .balloc ∧ k.Full)
    (fun r => Allocated k r.1 r.2) (balloc k) := by
  obtain ⟨hok, herror⟩ := ballocLoop_spec (k := k) (b := 0) (Nat.zero_mod _)
  refine ⟨fun e he => ?_, fun r hr => hok r.1 r.2 hr⟩
  obtain ⟨hpanic, hall⟩ := herror e he
  exact ⟨hpanic, fun b hb => hall b (Nat.zero_le b) hb⟩

theorem balloc_yields (k : Disk) : Yields (· = .balloc) (fun r => Allocated k r.1 r.2) (balloc k) :=
  ⟨fun e he => ((balloc_spec k).errs e he).1, (balloc_spec k).sound⟩

namespace Allocated

variable {k k' : Disk} {ino : Nat → Dinode} {b : Nat}

theorem sb_eq (h : Allocated k b k') : k'.sb = k.sb := by
  rw [h.eq]
  rfl

theorem block_self (h : Allocated k b k') : k'.block b = fun _ => 0 := by
  rw [h.eq]
  exact update_self b _ _

theorem block_other (h : Allocated k b k') {c : Nat} (hself : c ≠ b) (hmap : c ≠ BBLOCK b k.sb) :
    k'.block c = k.block c := by
  rw [h.eq]
  change update (update k.block _ _) _ _ c = _
  rw [update_of_ne hself, update_of_ne hmap]

theorem not_meta (h : Allocated k b k') (ho : k.Owned ino) : ¬ k.sb.Meta b := by
  intro hmeta
  have hused := ho.reserved b h.lt hmeta
  rw [h.free] at hused
  cases hused

theorem bblock_meta (h : Allocated k b k') : k.sb.Meta (BBLOCK b k.sb) :=
  k.sb.meta_bblock h.lt

theorem ne_zero (h : Allocated k b k') (ho : k.Owned ino) : b ≠ 0 := by
  rintro rfl
  exact h.not_meta ho (ho.sane.meta_of_le_one (Nat.zero_le 1))

theorem inUse_eq (h : Allocated k b k') (ho : k.Owned ino) {c : Nat} (hc : c < k.sb.size) :
    k'.inUse c = (decide (c = b) || k.inUse c) := by
  have hne : BBLOCK c k.sb ≠ b := by
    intro heq
    exact h.not_meta ho (heq ▸ k.sb.meta_bblock hc)
  unfold Disk.inUse
  rw [h.sb_eq]
  by_cases hblock : BBLOCK c k.sb = BBLOCK b k.sb
  · have hwrite : k'.block (BBLOCK c k.sb) = setBit (k.block (BBLOCK b k.sb)) (b % BPB) := by
      rw [h.eq]
      change update (update k.block _ _) _ _ _ = _
      rw [update_of_ne hne, hblock, update_self]
    have hiff : (c % BPB = b % BPB) ↔ (c = b) := by
      unfold BBLOCK BPB BSIZE at *
      omega
    rw [hwrite, bit_setBit, hblock]
    simp only [hiff]
  · have hcb : c ≠ b := by
      rintro rfl
      exact hblock rfl
    rw [h.block_other hne hblock]
    simp [hcb]

theorem block_one (h : Allocated k b k') (ho : k.Owned ino) : k'.block 1 = k.block 1 := by
  apply h.block_other
  · rintro rfl
    exact h.not_meta ho (ho.sane.meta_of_le_one (Nat.le_refl 1))
  · exact Nat.ne_of_lt (ho.sane.one_lt_bblock b)

theorem block_iblock (h : Allocated k b k') (ho : k.Owned ino) {i : Nat} (hi : i < k.sb.ninodes) :
    k'.block (IBLOCK i k.sb) = k.block (IBLOCK i k.sb) := by
  apply h.block_other
  · rintro rfl
    exact h.not_meta ho (ho.sane.meta_iblock hi)
  · exact ho.sane.apart hi b

theorem block_data (h : Allocated k b k') {c : Nat} (hself : c ≠ b) (hdata : ¬ k.sb.Meta c) :
    k'.block c = k.block c := by
  apply h.block_other hself
  rintro rfl
  exact hdata h.bblock_meta

end Allocated

namespace Disk.Owned

variable {k k' k1 : Disk} {ino ino' : Nat → Dinode} {i j b : Nat}

theorem num_own (h : k.Owned ino) (hne : (ino i).num k.block j ≠ 0) :
    (ino i).num k.block j < k.sb.size ∧ ¬ k.sb.Meta ((ino i).num k.block j) ∧
      k.inUse ((ino i).num k.block j) = true := h.owners.range (i, j) hne

theorem inj (h : k.Owned ino) {n l : Nat} (hne : (ino i).num k.block j ≠ 0)
    (heq : (ino i).num k.block j = (ino n).num k.block l) : i = n ∧ j = l :=
  Prod.mk.inj (h.owners.inj (i, j) (n, l) hne heq)

theorem fresh (h : k.Owned ino) (ha : Allocated k b k') : (ino i).num k.block j ≠ b := by
  intro heq
  have hused := (h.num_own (i := i) (j := j) (heq ▸ ha.ne_zero h)).2.2
  rw [heq, ha.free] at hused
  cases hused

theorem alloc (h : k.Owned ino) (ha : Allocated k b k1) (hsb : k'.sb = k.sb)
    (hmeta : ∀ c, k.sb.Meta c → k'.block c = k1.block c)
    (hnone : (ino i).num k.block j = 0) (hself : (ino' i).num k'.block j = b)
    (hothers : ∀ i' j', (i', j') ≠ (i, j) →
      (ino' i').num k'.block j' = (ino i').num k.block j') : k'.Owned ino' := by
  have hused {c : Nat} (hc : c < k.sb.size) : k'.inUse c = k1.inUse c := by
    unfold inUse
    rw [hsb, ha.sb_eq, hmeta _ (k.sb.meta_bblock hc)]
  have hown (c : Nat) : (c < k.sb.size ∧ ¬ k.sb.Meta c ∧ k'.inUse c = true) ↔
      c = b ∨ (c < k.sb.size ∧ ¬ k.sb.Meta c ∧ k.inUse c = true) := by
    constructor
    · rintro ⟨hc, hdata, huse⟩
      rw [hused hc, ha.inUse_eq h hc, Bool.or_eq_true, decide_eq_true_iff] at huse
      exact huse.imp id fun huse => ⟨hc, hdata, huse⟩
    · rintro (rfl | ⟨hc, hdata, huse⟩)
      · refine ⟨ha.lt, ha.not_meta h, ?_⟩
        rw [hused ha.lt, ha.inUse_eq h ha.lt]
        simp
      · refine ⟨hc, hdata, ?_⟩
        rw [hused hc, ha.inUse_eq h hc, huse, Bool.or_true]
  refine ⟨hsb ▸ h.sane, ?_, ?_, ?_⟩
  · rw [hmeta 1 (h.sane.meta_of_le_one (Nat.le_refl 1)), ha.block_one h, hsb]
    exact h.super
  · rw [hsb]
    intro c hc hm
    rw [hused hc, ha.inUse_eq h hc, h.reserved c hc hm, Bool.or_true]
  · rw [hsb]
    apply h.owners.take (i := (i, j)) (ha.ne_zero h) _ hnone hself
      (fun ij hne => hothers ij.1 ij.2 hne) hown
    rintro ⟨_, _, huse⟩
    rw [ha.free] at huse
    cases huse

end Disk.Owned

/-- Entry `bn` of inode `i` has the number `addr`, by `bmap` if it had none. -/
structure Bmapped (k : Disk) (ino : Nat → Dinode) (i bn : Nat) (addr : Nat) (ip : Dinode)
    (k' : Disk) : Prop where
  owned : k'.Owned (update ino i ip)
  num : ip.num k'.block bn = addr
  ne : addr ≠ 0
  fields : ip = { ino i with addrs := ip.addrs }
  rest : ∀ j, NDIRECT < j → ip.addrs j = (ino i).addrs j
  others : ∀ i' j, (i' = i → j ≠ bn ∧ j ≠ MAXFILE) →
    (update ino i ip i').num k'.block j = (ino i').num k.block j
  kept : ∀ i' j, (ino i').num k.block j ≠ 0 →
    (update ino i ip i').num k'.block j = (ino i').num k.block j
  bytes : ∀ i' j, j < MAXFILE → (ino i').num k.block j ≠ 0 →
    k'.block ((ino i').num k.block j) = k.block ((ino i').num k.block j)
  iblock : ∀ n, n < k.sb.ninodes → k'.block (IBLOCK n k.sb) = k.block (IBLOCK n k.sb)
  sb : k'.sb = k.sb
  present : (ino i).num k.block bn ≠ 0 → ip = ino i ∧ k' = k

section

variable {k k1 : Disk} {ino : Nat → Dinode} {i bn b : Nat}

theorem bmapped_present (h : k.Owned ino) (hne : (ino i).num k.block bn ≠ 0) :
    Bmapped k ino i bn ((ino i).num k.block bn) (ino i) k := by
  have hsame : update ino i (ino i) = ino := update_eq_self i ino
  refine ⟨?_, rfl, hne, rfl, fun _ _ => rfl, ?_, ?_, fun _ _ _ _ => rfl, fun _ _ => rfl, rfl,
    fun _ => ⟨rfl, rfl⟩⟩
  · rw [hsame]
    exact h
  · intro i' j _
    rw [hsame]
  · intro i' j _
    rw [hsame]

theorem bmapped_addr (h : k.Owned ino) (ha : Allocated k b k1) {e : Nat} (he : e ≤ NDIRECT)
    (hbn : bn = if e < NDIRECT then e else MAXFILE) (hnone : (ino i).addrs e = 0) :
    Bmapped k ino i bn b { ino i with addrs := update (ino i).addrs e b } k1 := by
  have hfresh (i' : Nat) (hne : (ino i').addrs NDIRECT ≠ 0) :
      k1.block ((ino i').addrs NDIRECT) = k.block ((ino i').addrs NDIRECT) :=
    ha.block_data (h.fresh (i := i') (j := MAXFILE) ha) (h.num_own (i := i') (j := MAXFILE) hne).2.1
  have hsame (i' j : Nat) : (ino i').num k1.block j = (ino i').num k.block j :=
    num_congr (hfresh i')
  have hnum : (ino i).num k.block bn = 0 := by
    rw [hbn]
    split
    · next hlt => rw [num_direct hlt, hnone]
    · next hge =>
      obtain rfl : e = NDIRECT := by omega
      rw [num_indirect, hnone]
  have hself : Dinode.num k1.block { ino i with addrs := update (ino i).addrs e b } bn = b := by
    rw [hbn]
    split
    · next hlt =>
      rw [num_direct hlt]
      change update (ino i).addrs e b e = b
      rw [update_self]
    · next hge =>
      obtain rfl : e = NDIRECT := by omega
      rw [num_indirect]
      change update (ino i).addrs NDIRECT b NDIRECT = b
      rw [update_self]
  have hothers (i' j : Nat) (hne : (i', j) ≠ (i, bn)) :
      (update ino i { ino i with addrs := update (ino i).addrs e b } i').num
        k1.block j = (ino i').num k.block j := by
    by_cases hi : i' = i
    · subst hi
      have hj : j ≠ bn := fun heq => hne (by rw [heq])
      rw [update_self, ← hsame]
      by_cases hlt : e < NDIRECT
      · rw [if_pos hlt] at hbn
        exact num_setAddr hlt (hbn ▸ hj)
      · obtain rfl : e = NDIRECT := by omega
        rw [if_neg hlt] at hbn
        exact num_setIndirect hnone ha.block_self (hbn ▸ hj)
    · rw [update_of_ne hi, hsame]
  have hentry (i' j : Nat) (hne : (ino i').num k.block j ≠ 0) : (i', j) ≠ (i, bn) := by
    rintro heq
    obtain ⟨rfl, rfl⟩ := Prod.mk.inj heq
    exact hne hnum
  refine ⟨?_, hself, ha.ne_zero h, rfl, ?_, ?_, ?_, ?_, ?_, ha.sb_eq, fun hne => absurd hnum hne⟩
  · apply h.alloc ha ha.sb_eq (fun _ _ => rfl) hnum _ hothers
    rw [update_self]
    exact hself
  · intro j hj
    exact update_of_ne (by omega) _ _
  · intro i' j hne
    apply hothers
    intro heq
    obtain ⟨hi, hj⟩ := Prod.mk.inj heq
    exact (hne hi).1 hj
  · intro i' j hne
    exact hothers i' j (hentry i' j hne)
  · intro i' j _ hne
    exact ha.block_data (h.fresh ha) (h.num_own hne).2.1
  · intro n hn
    exact ha.block_iblock h hn

theorem bmapped_word (h : k.Owned ino) (ha : Allocated k b k1) (hge : NDIRECT ≤ bn)
    (hlt : bn < MAXFILE) (hind : (ino i).addrs NDIRECT ≠ 0) (hnone : (ino i).num k.block bn = 0) :
    Bmapped k ino i bn b (ino i) (k1.write ((ino i).addrs NDIRECT)
      (overlay (k1.block ((ino i).addrs NDIRECT)) (4 * (bn - NDIRECT)) 4 (leByte b))) := by
  have hupdate : update ino i (ino i) = ino := update_eq_self i ino
  have hsmall : b < 4294967296 := Nat.lt_trans ha.lt h.sane.size
  have hown := h.num_own (i := i) (j := MAXFILE) hind
  have hkept (i' j : Nat) (hne : (ino i').num k.block j ≠ 0) :
      k1.block ((ino i').num k.block j) = k.block ((ino i').num k.block j) :=
    ha.block_data (h.fresh ha) (h.num_own hne).2.1
  have hindirect := hkept i MAXFILE hind
  rw [num_indirect] at hown hindirect
  rw [hindirect]
  -- the blocks of the contents and the indirect blocks of others are different blocks
  have hapart (i' j : Nat) (hne : (ino i').num k.block j ≠ 0) (hother : (i', j) ≠ (i, MAXFILE)) :
      (ino i').num k.block j ≠ (ino i).addrs NDIRECT := by
    intro heq
    obtain ⟨hi, hj⟩ := h.inj (n := i) (l := MAXFILE) hne heq
    exact hother (by rw [hi, hj])
  have hblock (c : Nat) (hc : c ≠ (ino i).addrs NDIRECT) :
      (k1.write ((ino i).addrs NDIRECT) (overlay (k.block ((ino i).addrs NDIRECT))
        (4 * (bn - NDIRECT)) 4 (leByte b))).block c = k1.block c := update_of_ne hc _ _
  have hself : (k1.write ((ino i).addrs NDIRECT) (overlay (k.block ((ino i).addrs NDIRECT))
      (4 * (bn - NDIRECT)) 4 (leByte b))).block ((ino i).addrs NDIRECT) =
      overlay (k.block ((ino i).addrs NDIRECT)) (4 * (bn - NDIRECT)) 4 (leByte b) :=
    update_self _ _ _
  have hnew : (ino i).num (k1.write ((ino i).addrs NDIRECT)
      (overlay (k.block ((ino i).addrs NDIRECT)) (4 * (bn - NDIRECT)) 4 (leByte b))).block bn =
      b := by
    rw [num_word hge hlt hind, hself, indirectWord_overlay _ hsmall, if_pos rfl]
  have hothers (i' j : Nat) (hne : (i', j) ≠ (i, bn)) : (ino i').num (k1.write
      ((ino i).addrs NDIRECT) (overlay (k.block ((ino i).addrs NDIRECT)) (4 * (bn - NDIRECT)) 4
      (leByte b))).block j = (ino i').num k.block j := by
    by_cases hi : i' = i
    · subst hi
      by_cases hin : NDIRECT ≤ j ∧ j < MAXFILE
      · rw [num_word hin.1 hin.2 hind, num_word hin.1 hin.2 hind, hself,
          indirectWord_overlay _ hsmall, if_neg]
        intro heq
        exact hne (by rw [show j = bn by omega])
      · unfold Dinode.num
        split
        · rfl
        · have hnot : ¬ j < MAXFILE := by omega
          rw [if_neg hnot, if_neg hnot]
    · apply num_congr
      intro hne'
      have hdiff := hapart i' MAXFILE hne' fun heq => hi (Prod.mk.inj heq).1
      rw [num_indirect] at hdiff
      rw [hblock _ hdiff]
      exact hkept i' MAXFILE hne'
  have hmeta (c : Nat) (hc : k.sb.Meta c) : c ≠ (ino i).addrs NDIRECT := by
    rintro rfl
    exact hown.2.1 hc
  have hentry (i' j : Nat) (hne : (ino i').num k.block j ≠ 0) : (i', j) ≠ (i, bn) := by
    rintro heq
    obtain ⟨rfl, rfl⟩ := Prod.mk.inj heq
    exact hne hnone
  refine ⟨?_, hnew, ha.ne_zero h, rfl, fun _ _ => rfl, ?_, ?_, ?_, ?_, ha.sb_eq,
    fun hne => absurd hnone hne⟩
  · rw [hupdate]
    exact h.alloc ha ha.sb_eq (fun c hc => hblock c (hmeta c hc)) hnone hnew hothers
  · intro i' j hne
    rw [hupdate]
    apply hothers
    intro heq
    obtain ⟨hi, hj⟩ := Prod.mk.inj heq
    exact (hne hi).1 hj
  · intro i' j hne
    rw [hupdate]
    exact hothers i' j (hentry i' j hne)
  · intro i' j hj hne
    have hdiff := hapart i' j hne fun heq => Nat.ne_of_lt hj (Prod.mk.inj heq).2
    rw [hblock _ hdiff]
    exact hkept i' j hne
  · intro n hn
    rw [hblock _ (hmeta _ (h.sane.meta_iblock hn))]
    exact ha.block_iblock h hn

theorem Bmapped.trans {ip ip' : Dinode} {addr : Nat} {k' : Disk}
    (h : Bmapped k ino i MAXFILE b ip k1)
    (h' : Bmapped k1 (update ino i ip) i bn addr ip' k')
    (hnone : (ino i).num k.block bn = 0) : Bmapped k ino i bn addr ip' k' := by
  have howned := h'.owned
  have hfields := h'.fields
  have hrest := h'.rest
  have hothers := h'.others
  have hkept := h'.kept
  have hbytes := h'.bytes
  simp only [update_idem, update_self] at howned hfields hrest hothers hkept
  refine ⟨howned, h'.num, h'.ne, ?_, ?_, ?_, ?_, ?_, ?_, h'.sb.trans h.sb,
    fun hne => absurd hnone hne⟩
  · rw [hfields, h.fields]
  · intro j hj
    rw [hrest j hj, h.rest j hj]
  · intro i' j hne
    rw [hothers i' j hne, h.others i' j fun hi => ⟨(hne hi).2, (hne hi).2⟩]
  · intro i' j hne
    have hfirst := h.kept i' j hne
    rw [hkept i' j (by rw [hfirst]; exact hne), hfirst]
  · intro i' j hj hne
    have hfirst := h.kept i' j hne
    have hsecond := hbytes i' j hj (by rw [hfirst]; exact hne)
    rw [hfirst] at hsecond
    rw [hsecond, h.bytes i' j hj hne]
  · intro n hn
    have hsecond := h'.iblock n (h.sb ▸ hn)
    rw [h.sb] at hsecond
    rw [hsecond, h.iblock n hn]

theorem bmapWord_spec (h : k.Owned ino) (hge : NDIRECT ≤ bn) (hlt : bn < MAXFILE)
    (hind : (ino i).addrs NDIRECT ≠ 0) :
    Yields (· = .balloc) (fun r => Bmapped k ino i bn r.1 r.2.1 r.2.2)
      (if indirectWord (k.block ((ino i).addrs NDIRECT)) (bn - NDIRECT) = 0 then do
        let (data, k') ← balloc k
        .ok (data, ino i, k'.write ((ino i).addrs NDIRECT)
          (overlay (k'.block ((ino i).addrs NDIRECT)) (4 * (bn - NDIRECT)) 4 (leByte data)))
      else .ok (indirectWord (k.block ((ino i).addrs NDIRECT)) (bn - NDIRECT), ino i, k)) := by
  rw [← num_word hge hlt hind]
  split
  · next hnone =>
    exact (balloc_yields k).bind fun r ha => yields_ok (bmapped_word h ha hge hlt hind hnone)
  · next hne => exact yields_ok (bmapped_present h hne)

theorem bmap_spec (h : k.Owned ino) (hbn : bn < MAXFILE) :
    Yields (· = .balloc) (fun r => Bmapped k ino i bn r.1 r.2.1 r.2.2) (bmap k (ino i) bn) := by
  unfold bmap
  split
  · next hdirect =>
    have hnum : (ino i).num k.block bn = (ino i).addrs bn := num_direct hdirect
    split
    · next hnone =>
      refine (balloc_yields k).bind fun r ha => yields_ok ?_
      exact bmapped_addr h ha (Nat.le_of_lt hdirect) (by rw [if_pos hdirect]) hnone
    · next hne =>
      apply yields_ok
      rw [← hnum] at hne ⊢
      exact bmapped_present h hne
  · next hge =>
    have hge := Nat.not_lt.mp hge
    rw [if_pos (by unfold MAXFILE at hbn; omega)]
    split
    · next hind =>
      refine (balloc_yields k).bind ?_
      rintro ⟨a, k1⟩ ha
      have hmap := bmapped_addr h ha (Nat.le_refl _) (if_neg (Nat.lt_irrefl _)).symm hind
      have htail := bmapWord_spec hmap.owned (i := i) hge hbn (by
        simpa only [update_self] using hmap.ne)
      simp only [update_self] at htail
      refine htail.weaken fun r hr => ?_
      exact hmap.trans hr (num_word_none hge hbn hind)
    · next hind => exact bmapWord_spec h hge hbn hind

end

end Xv6.Fs

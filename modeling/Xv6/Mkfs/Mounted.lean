import Xv6.Fs.Contents
import Xv6.Mkfs.Image

/-!
The image of `mkfs` as the kernel finds it. The super block is the one `mkfs` wrote,
the blocks in use are those of the files, and the bytes of each inode are those of
its file.
-/

namespace Xv6.Mkfs

open Lib Fs

/-- The disk when `iinit` has read the super block. -/
def mounted (img : Image) : Disk := readsb ⟨img.sect, sb, []⟩

/-- The inodes of the files, and blank ones for the others. -/
def fileInodes (files : List Input) (img : Image) (i : Nat) : Dinode :=
  if 1 ≤ i ∧ i < files.length + 2 then inodeAt img i else blank

theorem sb_sane : sb.Sane := by
  constructor <;> decide

theorem sb_nmeta : sb.nmeta = nmeta := by decide

namespace Finished

variable {files : List Input} {s : State} {img : Image} {i : Nat}

theorem mounted_sb (h : Finished files s img) : (mounted img).sb = sb := by
  have hsect : img.sect 1 = overlay zeroes 0 SUPERSIZE sb.byte := by
    rw [h.front 1 (by decide), format_eq]
    dsimp only
    rw [Function.update_self]
  have hread : Superblock.read (overlay zeroes 0 SUPERSIZE sb.byte) = sb := by decide
  unfold mounted readsb
  dsimp only
  rw [hsect, hread]

theorem mounted_inUse (h : Finished files s img) {b : Nat} (hb : b < sb.size) :
    (mounted img).inUse b = decide (b < need files) := by
  have hlt : b < BPB := Nat.lt_trans hb (by decide)
  have hblock : BBLOCK b sb = sb.bmapstart := by
    unfold BBLOCK
    rw [Nat.div_eq_of_lt hlt, Nat.zero_add]
  have hsect : (mounted img).block = img.sect := rfl
  unfold Disk.inUse
  rw [h.mounted_sb, hblock, hsect, h.bits, Nat.mod_eq_of_lt hlt, bit_bitmap]

theorem num_fileInodes (h : Finished files s img) (i j : Nat) :
    (fileInodes files img i).num img.sect j = (inodes s i).num s.img.sect j := by
  have hfree := h.built.freeinode
  unfold fileInodes
  split
  · next hi => exact h.num_eq hi.1 hi.2 j
  · next hi =>
    have hblank : inodes s i = blank := if_neg (by rw [hfree]; exact hi)
    have hnum (block : Nat → Bytes) : blank.num block j = 0 := by simp [Dinode.num, blank]
    rw [hblank, hnum, hnum]

theorem owned (h : Finished files s img) : (mounted img).Owned (fileInodes files img) := by
  have hsb := h.mounted_sb
  have hlayout := h.built.good.layout
  have hneed := h.built.freeblock
  have hblocks := h.built.good.blocks
  have hlower := hlayout.lower
  rw [hneed] at hblocks hlower
  refine ⟨hsb ▸ sb_sane, ?_, ?_, ?_⟩
  · rfl
  · rw [hsb]
    intro b hb hmeta
    unfold Superblock.Meta at hmeta
    rw [sb_nmeta] at hmeta
    rw [h.mounted_inUse hb]
    exact decide_eq_true (by omega)
  · have hown (b : Nat) : (b < (mounted img).sb.size ∧ ¬ (mounted img).sb.Meta b ∧
        (mounted img).inUse b = true) ↔ nmeta ≤ b ∧ b < need files := by
      unfold Superblock.Meta
      rw [hsb, sb_nmeta]
      constructor
      · rintro ⟨hb, hmeta, huse⟩
        rw [h.mounted_inUse hb] at huse
        exact ⟨Nat.not_lt.mp hmeta, of_decide_eq_true huse⟩
      · rintro ⟨hge, hlt⟩
        have hb : b < sb.size := Nat.lt_of_lt_of_le hlt hblocks
        refine ⟨hb, Nat.not_lt.mpr hge, ?_⟩
        rw [h.mounted_inUse hb]
        exact decide_eq_true hlt
    have hhanded := hlayout.handed
    rw [hneed] at hhanded
    have howners : Owners (fun b => nmeta ≤ b ∧ b < need files)
        fun ij : Nat × Nat => (inodes s ij.1).num s.img.sect ij.2 :=
      ⟨fun hzero => absurd hzero.1 (by decide), hhanded.range, hhanded.inj,
        fun b hb => hhanded.onto b hb.1 hb.2⟩
    exact howners.congr hown fun ij => h.num_fileInodes ij.1 ij.2

theorem size_mounted (h : Finished files s img) (hi : 2 ≤ i) (hlt : i < files.length + 2) :
    (inodeAt img i).size = (dataOf files i).length := by
  have hfree := h.built.freeinode
  have hcount := h.built.good.count
  have hroot : i ≠ ROOTINO := by
    unfold ROOTINO
    omega
  rw [h.others i hroot (by omega), ← h.built.good.size i, inodes_of_lt (by omega) (by omega)]

theorem type_mounted (h : Finished files s img) (hi : 2 ≤ i) (hlt : i < files.length + 2) :
    (inodeAt img i).type = T_FILE := by
  have hfree := h.built.freeinode
  have hcount := h.built.good.count
  have hroot : i ≠ ROOTINO := by
    unfold ROOTINO
    omega
  have htype := h.built.type i
  rw [if_neg hroot, if_pos ⟨hi, hlt⟩, inodes_of_lt (by omega) (by omega)] at htype
  rw [h.others i hroot (by omega), htype]

theorem holeFree_mounted (h : Finished files s img) (hi : 2 ≤ i) (hlt : i < files.length + 2) :
    (mounted img).HoleFree (inodeAt img i) := by
  refine ⟨?_, fun j hj => ?_⟩
  · rw [h.size_mounted hi hlt]
    exact h.built.good.small i
  · exact (h.holeFree_file hi hlt j (by unfold BSIZE at *; omega)).1

theorem fileByte_mounted (h : Finished files s img) (hi : 1 ≤ i) (hlt : i < files.length + 2)
    {m : Nat} (hm : m < (dataOf files i).length) :
    (mounted img).fileByte (inodeAt img i) m = (dataOf files i).getD m 0 := by
  have hlayout := h.built.good.layout
  have hbytes := hlayout.bytes i m hm
  have hbound := hlayout.num_lt ((hlayout.has i _).mpr (hlayout.covers i m hm).2)
  unfold Disk.fileByte
  change img.sect ((inodeAt img i).num img.sect (m / BSIZE)) (m % BSIZE) = _
  rw [h.num_eq hi hlt, h.sect _ hbound.1]
  exact hbytes

theorem contents_mounted (h : Finished files s img) (hi : 2 ≤ i) (hlt : i < files.length + 2) :
    (mounted img).contents (inodeAt img i) = dataOf files i := by
  have hsize := h.size_mounted hi hlt
  apply List.ext_getElem
  · rw [contents_length, hsize]
  · intro m hm hm'
    rw [contents_getElem, h.fileByte_mounted (by omega) hlt hm', List.getD_eq_getElem _ _ hm']

end Finished

theorem mounted_oneFile : ∃ img s, mkfs [⟨[97], [1]⟩] = .ok img ∧
    Finished [⟨[97], [1]⟩] s img ∧ (mounted img).contents (inodeAt img 2) = [1] ∧
    (inodeAt img 2).size = 1 ∧ (inodeAt img 2).type = T_FILE ∧
    (mounted img).HoleFree (inodeAt img 2) := by
  obtain ⟨img, himg⟩ := (mkfs_spec [⟨[97], [1]⟩] (by decide)).total ⟨by decide, by decide⟩
  obtain ⟨s, hs⟩ := (mkfs_spec [⟨[97], [1]⟩] (by decide)).sound img himg
  exact ⟨img, s, himg, hs, hs.contents_mounted (by decide) (by decide),
    hs.size_mounted (by decide) (by decide), hs.type_mounted (by decide) (by decide),
    hs.holeFree_mounted (by decide) (by decide)⟩

end Xv6.Mkfs

import Mathlib.Algebra.GroupWithZero.Nat
import Mathlib.Data.List.Induction
import Xv6.Mkfs.Append

/-!
The inodes and the files of the image. `Good` says that the inodes below the
counter describe the files `data` and that the blocks below the other counter are
theirs; `ialloc`, `iappend` and the copy of an input file keep it while there are
inodes, room in the file and free blocks.
-/

namespace Xv6.Mkfs

open Lib Fs Function List

def inodeAt (img : Image) (i : Nat) : Dinode :=
  Dinode.read (img.sect (IBLOCK i sb)) (Dinode.slot i)

theorem iblock_lt {i : Nat} (hi : i < 208) :
    2 + nlog ≤ IBLOCK i sb ∧ IBLOCK i sb < sb.bmapstart := by
  have hstart : sb.inodestart = 32 := by decide
  have hend : sb.bmapstart = 58 := by decide
  have hlog : 2 + nlog = 32 := by decide
  have hdiv : i / IPB < 26 := Nat.div_lt_of_lt_mul hi
  unfold IBLOCK
  rw [hstart, hend, hlog]
  exact ⟨Nat.le_add_left _ _, Nat.add_lt_add_right hdiv 32⟩

theorem bmapstart_lt : sb.bmapstart < nmeta := by decide

theorem nmeta_lt : nmeta < FSSIZE := by decide

theorem rinode_of_lt {img : Image} {i : Nat} (hlen : img.len = FSSIZE) (hi : i < 208) :
    rinode img i = .ok (inodeAt img i) := by
  have hblock := iblock_lt hi
  have hbound := bmapstart_lt
  have hmeta := nmeta_lt
  have hsmall : FSSIZE < 8388608 := by decide
  unfold rinode rsect
  rw [seek_of_lt (by omega), if_pos (by omega)]
  rfl

theorem winode_of_lt {img : Image} {i : Nat} {d : Dinode} (hlen : img.len = FSSIZE) (hi : i < 208)
    (hd : d.Fits) : ∃ img', winode img i d = .ok img' ∧ img'.len = FSSIZE ∧ inodeAt img' i = d ∧
      (∀ k, k ≠ i → inodeAt img' k = inodeAt img k) ∧
      ∀ b, b ≠ IBLOCK i sb → img'.sect b = img.sect b := by
  have hblock := iblock_lt hi
  have hbound := bmapstart_lt
  have hmeta := nmeta_lt
  have hsmall : FSSIZE < 8388608 := by decide
  refine ⟨⟨update img.sect (IBLOCK i sb) (overlay (img.sect (IBLOCK i sb)) (Dinode.slot i)
    DINODESIZE d.byte), FSSIZE⟩, ?_, rfl, ?_, fun k hk => ?_,
    fun b hb => update_of_ne hb _ _⟩
  · unfold winode rsect
    dsimp only
    rw [seek_of_lt (by omega), if_pos (by omega)]
    change Except.ok (wsect img (IBLOCK i sb) _) = _
    rw [wsect_of_lt hlen (by omega)]
  · unfold inodeAt
    dsimp only
    rw [update_self]
    exact Dinode.read_overlay _ _ hd
  · unfold inodeAt
    dsimp only
    by_cases heq : IBLOCK k sb = IBLOCK i sb
    · rw [heq, update_self]
      refine Dinode.read_outside (slot_disjoint ?_ hk)
      unfold IBLOCK at heq
      omega
    · rw [update_of_ne heq]

def blank : Dinode := ⟨0, 0, 0, 0, 0, fun _ => 0⟩

/-- The inodes that are allocated, and blank ones for the others. -/
def inodes (s : State) (i : Nat) : Dinode :=
  if 1 ≤ i ∧ i < s.freeinode then inodeAt s.img i else blank

/-- The image after some files: what is in it is the files `data`. -/
structure Good (s : State) (data : Nat → List UInt8) : Prop where
  len : s.img.len = FSSIZE
  count : s.freeinode ≤ 208
  blocks : s.freeblock ≤ FSSIZE
  layout : Layout s.img.sect s.freeblock (inodes s) data fun i j => Uses (data i).length j
  size : ∀ i, (inodes s i).size = (data i).length
  small : ∀ i, (data i).length ≤ MAXFILE * BSIZE

section

variable {s : State} {data : Nat → List UInt8} {i : Nat}

theorem inodes_of_lt (hi : 1 ≤ i) (hlt : i < s.freeinode) : inodes s i = inodeAt s.img i :=
  if_pos ⟨hi, hlt⟩

theorem Layout.fits {block : Nat → Bytes} {hi size : Nat} {ino : Nat → Dinode}
    {Has : Nat → Nat → Prop} (h : Layout block hi ino data Has) (hsmall : hi ≤ FSSIZE)
    {d din : Dinode} (hself : ino i = din) (hd : d.Fits) (hsize : size < 4294967296)
    (hdin : din = { d with addrs := din.addrs })
    (hrest : ∀ k, NDIRECT < k → din.addrs k = d.addrs k) :
    Dinode.Fits { din with size := size } := by
  have hfs : FSSIZE < 4294967296 := by decide
  have haddrs (k : Nat) : din.addrs k < 4294967296 := by
    by_cases hzero : din.addrs k = 0
    · omega
    · rcases Nat.lt_trichotomy k NDIRECT with hk | hk | hk
      · have hbound := h.num_lt (i := i) (j := k) (by rwa [hself, num_direct hk])
        rw [hself, num_direct hk] at hbound
        omega
      · subst hk
        have hbound := h.num_lt (i := i) (j := MAXFILE) (by rwa [hself])
        rw [hself, num_indirect] at hbound
        omega
      · rw [hrest k hk]
        exact hd.addrs k
  have hfields : ({ din with size := size } : Dinode) =
      { d with size := size, addrs := din.addrs } := by
    rw [hdin]
  rw [hfields]
  exact ⟨hd.type, hd.major, hd.minor, hd.nlink, hsize, haddrs,
    fun k hk => (hrest k hk).trans (hd.rest k hk)⟩

structure Stays (s s' : State) : Prop where
  freeinode : s'.freeinode = s.freeinode
  type : ∀ k, (inodes s' k).type = (inodes s k).type
  front : ∀ b, b < 2 + nlog → s'.img.sect b = s.img.sect b

structure Appended (s : State) (data : Nat → List UInt8) (i : Nat) (p : List UInt8)
    (s' : State) : Prop where
  good : Good s' (update data i (data i ++ p))
  stays : Stays s s'
  free : s'.freeblock + blocksOf (data i).length =
    s.freeblock + blocksOf ((data i).length + p.length)

theorem Keeps.inodes {s s' : State} (h : Keeps s s') (hcount : s.freeinode ≤ 208) :
    Mkfs.inodes s' = Mkfs.inodes s := by
  funext k
  unfold Mkfs.inodes
  rw [h.freeinode]
  split
  · next hk =>
    have hblock := iblock_lt (i := k) (by omega)
    have hbound := bmapstart_lt
    unfold inodeAt
    rw [h.sect _ (by omega)]
  · rfl

theorem iappend_spec (h : Good s data) (hi : 1 ≤ i) (hlt : i < s.freeinode) (p : List UInt8) :
    Succeeds ((data i).length + p.length ≤ MAXFILE * BSIZE ∧
        s.freeblock + blocksOf ((data i).length + p.length) ≤ FSSIZE + blocksOf (data i).length)
      (Appended s data i p) (iappend s i p) := by
  have hi' : i < 208 := Nat.lt_of_lt_of_le hlt h.count
  have hino := inodes_of_lt hi hlt
  have hsize := h.size i
  unfold iappend
  rw [rinode_of_lt h.len hi', ← hino]
  change Succeeds _ _ (iappendLoop s (inodes s i) (inodes s i).size p >>= _)
  rw [hsize]
  refine (iappendLoop_spec p h.len h.blocks h.layout rfl (h.small i)).bind id ?_
  rintro ⟨din, off, s'⟩ ⟨hpost, rfl⟩
  dsimp only at hpost ⊢
  have hsmall := hpost.small
  rw [length_append] at hsmall
  have hfits : (inodes s i).Fits := hino ▸ Dinode.fits_read _ _
  have hnew : Dinode.Fits { din with size := (data i).length + p.length } :=
    hpost.layout.fits (i := i) hpost.blocks (by rw [update_self]) hfits
      (Nat.lt_of_le_of_lt hsmall (by decide)) hpost.addrs hpost.rest
  have hkeep := hpost.keeps.inodes h.count
  obtain ⟨img, hwrite, hlen, hself, hothers, hsect⟩ :=
    winode_of_lt (hpost.keeps.len.trans h.len) hi' hnew
  rw [hwrite]
  have hfree := hpost.free
  have hinodes : inodes { s' with img := img } =
      update (inodes s) i { din with size := (data i).length + p.length } := by
    funext k
    by_cases hk : k = i
    · subst hk
      rw [update_self, ← hself]
      exact if_pos ⟨hi, hpost.keeps.freeinode ▸ hlt⟩
    · rw [update_of_ne hk, ← hkeep]
      unfold inodes
      rw [hothers k hk]
  have hblock := iblock_lt hi'
  have hbound := bmapstart_lt
  refine succeeds_ok ⟨⟨hlen, ?_, hpost.blocks, ?_, fun k => ?_, fun k => ?_⟩,
    ⟨hpost.keeps.freeinode, fun k => ?_, fun b hb => ?_⟩, ?_⟩
  · rw [hpost.keeps.freeinode]
    exact h.count
  · rw [hinodes]
    refine hpost.layout.frame (fun b hb => hsect b (by omega)) fun k => ?_
    by_cases hk : k = i
    · rw [hk, update_self, update_self]
    · rw [update_of_ne hk, update_of_ne hk]
  · rw [hinodes]
    by_cases hk : k = i
    · rw [hk, update_self, update_self, length_append]
    · rw [update_of_ne hk, update_of_ne hk]
      exact h.size k
  · by_cases hk : k = i
    · rw [hk, update_self]
      exact hpost.small
    · rw [update_of_ne hk]
      exact h.small k
  · rw [hinodes]
    by_cases hk : k = i
    · rw [hk, update_self, hpost.addrs]
    · rw [update_of_ne hk]
  · rw [hsect b (by omega), hpost.keeps.sect b (by omega)]
  · rwa [length_append] at hfree

theorem ialloc_spec (h : Good s data) (hpos : 1 ≤ s.freeinode) (hlt : s.freeinode < 208)
    (type : Int) (htype : -32768 ≤ type ∧ type < 32768) :
    ∃ s', ialloc s type = .ok (s.freeinode, s') ∧ Good s' data ∧ s'.freeinode = s.freeinode + 1 ∧
      s'.freeblock = s.freeblock ∧ (∀ b, b < 2 + nlog → s'.img.sect b = s.img.sect b) ∧
      ∀ k, (inodes s' k).type = if k = s.freeinode then type else (inodes s k).type := by
  have hfits : Dinode.Fits ⟨type, 0, 0, 1, 0, fun _ => 0⟩ := by
    refine ⟨htype, ?_, ?_, ?_, ?_, fun _ => ?_, fun _ _ => rfl⟩ <;> dsimp only <;> omega
  obtain ⟨img, hwrite, hlen, hself, hothers, hsect⟩ := winode_of_lt h.len hlt hfits
  have hblock := iblock_lt hlt
  have hbound := bmapstart_lt
  have hnone : inodes s s.freeinode = blank := if_neg (by omega)
  have hinodes : inodes ⟨img, s.freeinode + 1, s.freeblock⟩ =
      update (inodes s) s.freeinode ⟨type, 0, 0, 1, 0, fun _ => 0⟩ := by
    funext k
    by_cases hk : k = s.freeinode
    · rw [hk, update_self, ← hself]
      exact if_pos ⟨hpos, Nat.lt_succ_self _⟩
    · rw [update_of_ne hk]
      unfold inodes
      rw [hothers k hk]
      have hiff : (1 ≤ k ∧ k < s.freeinode + 1) ↔ (1 ≤ k ∧ k < s.freeinode) := by omega
      simp only [hiff]
  refine ⟨⟨img, s.freeinode + 1, s.freeblock⟩, ?_, ⟨hlen, hlt, h.blocks, ?_, fun k => ?_, h.small⟩,
    rfl, rfl, fun b hb => hsect b (by omega), fun k => ?_⟩
  · unfold ialloc
    dsimp only
    rw [hwrite]
    rfl
  · rw [hinodes]
    refine h.layout.frame (fun b hb => hsect b (by omega)) fun k => ?_
    by_cases hk : k = s.freeinode
    · rw [hk, update_self, hnone]
      rfl
    · rw [update_of_ne hk]
  · rw [hinodes]
    by_cases hk : k = s.freeinode
    · have hsize := h.size s.freeinode
      rw [hnone] at hsize
      rw [hk, update_self]
      exact hsize
    · rw [update_of_ne hk]
      exact h.size k
  · rw [hinodes]
    split
    · next hk => rw [hk, update_self]
    · next hk => rw [update_of_ne hk]

theorem Appended.trans {p q : List UInt8} {s' s'' : State} (h : Appended s data i p s')
    (h' : Appended s' (update data i (data i ++ p)) i q s'') :
    Appended s data i (p ++ q) s'' := by
  have hgood := h'.good
  have hfree' := h'.free
  have hfree := h.free
  simp only [update_self, update_idem, append_assoc] at hgood
  simp only [update_self, length_append] at hfree'
  refine ⟨hgood, ⟨?_, fun k => ?_, fun b hb => ?_⟩, ?_⟩
  · rw [h'.stays.freeinode, h.stays.freeinode]
  · rw [h'.stays.type, h.stays.type]
  · rw [h'.stays.front b hb, h.stays.front b hb]
  · rw [length_append, ← Nat.add_assoc]
    omega

theorem copyFile_spec (h : Good s data) (hi : 1 ≤ i) (hlt : i < s.freeinode) (rest : List UInt8) :
    Succeeds ((data i).length + rest.length ≤ MAXFILE * BSIZE ∧
        s.freeblock + blocksOf ((data i).length + rest.length) ≤ FSSIZE + blocksOf (data i).length)
      (Appended s data i rest) (copyFile s i rest) := by
  -- by induction on the number of bytes that are left
  induction hn : rest.length using Nat.strong_induction_on generalizing s data rest with
  | _ n ih =>
  rw [← hn, copyFile]
  split
  · next hrest =>
    subst hrest
    refine succeeds_ok ⟨?_, ⟨rfl, fun _ => rfl, fun _ _ => rfl⟩, rfl⟩
    simpa only [append_nil, update_eq_self] using h
  · next hrest =>
    have hpos := length_pos_iff.mpr hrest
    have hsplit : (rest.take BSIZE).length + (rest.drop BSIZE).length = rest.length := by
      rw [← length_append, take_append_drop]
    have hmono : blocksOf ((data i).length + (rest.take BSIZE).length) ≤
        blocksOf ((data i).length + rest.length) := blocksOf_mono (by omega)
    refine (iappend_spec h hi hlt (rest.take BSIZE)).bind (fun hc => ⟨by omega, by omega⟩) ?_
    intro s' hpost
    have hfree := hpost.free
    have htail := ih (rest.drop BSIZE).length (by
      rw [length_drop]; unfold BSIZE; omega) hpost.good (hpost.stays.freeinode ▸ hlt)
      (rest.drop BSIZE) rfl
    rw [update_self, length_append, Nat.add_assoc, hsplit] at htail
    refine htail.weaken (by omega) fun s'' hpost' => ?_
    have hall := hpost.trans hpost'
    rwa [take_append_drop] at hall

end

def rootEntries (files : List Input) : List UInt8 :=
  direntBytes ROOTINO dot ++ direntBytes ROOTINO dotdot ++
    (files.zipIdx 2).flatMap fun x => direntBytes x.2 (basename x.1.path)

def dataOf (files : List Input) (i : Nat) : List UInt8 :=
  if i = ROOTINO then rootEntries files
  else if i < 2 then []
  else (files[i - 2]?).elim [] Input.contents

def need (files : List Input) : Nat :=
  nmeta + blocksOf (rootEntries files).length + (files.map fun f => blocksOf f.contents.length).sum

theorem rootEntries_snoc (files : List Input) (file : Input) : rootEntries (files ++ [file]) =
    rootEntries files ++ direntBytes (files.length + 2) (basename file.path) := by
  unfold rootEntries
  rw [zipIdx_append]
  simp [Nat.add_comm]

theorem rootEntries_length (files : List Input) :
    (rootEntries files).length = (files.length + 2) * DIRENTSIZE := by
  induction files using List.reverseRecOn with
  | nil => decide
  | append_singleton files file ih =>
    rw [rootEntries_snoc, length_append, ih, direntBytes_length, length_append, length_singleton]
    unfold DIRENTSIZE DIRSIZ
    omega

theorem dataOf_snoc (files : List Input) (file : Input) : dataOf (files ++ [file]) =
    update (update (dataOf files) ROOTINO
      (rootEntries files ++ direntBytes (files.length + 2) (basename file.path)))
      (files.length + 2) file.contents := by
  funext i
  unfold dataOf ROOTINO
  by_cases hnew : i = files.length + 2
  · subst hnew
    rw [update_self, if_neg (by omega), if_neg (by omega), Nat.add_sub_cancel,
      List.getElem?_concat_length]
    rfl
  · rw [update_of_ne hnew]
    by_cases hroot : i = 1
    · subst hroot
      simp [rootEntries_snoc]
    · rw [update_of_ne hroot, if_neg hroot, if_neg hroot]
      split
      · rfl
      · rw [List.getElem?_append]
        split
        · rfl
        · rw [List.getElem?_eq_none (by simp; omega), List.getElem?_eq_none (by omega)]

theorem need_snoc (files : List Input) (file : Input) :
    need (files ++ [file]) + blocksOf (rootEntries files).length =
      need files + blocksOf (rootEntries (files ++ [file])).length +
        blocksOf file.contents.length := by
  unfold need
  simp only [map_append, sum_append, map_cons, map_nil, sum_cons, sum_nil]
  omega

end Xv6.Mkfs

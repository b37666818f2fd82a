import Xv6.Mkfs.Files

/-!
The whole image. Up to 206 files the inodes fit the blocks that are kept for them,
and the image is the one of the files; `mkfs` counts neither inodes nor blocks, and
the inode of file 207 is in the block of the bitmap.
-/

namespace Xv6.Mkfs

open Lib Fs Function List

/-- What has been built when the files `done` are in the image. -/
structure Built (done : List Input) (s : State) : Prop where
  good : Good s (dataOf done)
  freeinode : s.freeinode = done.length + 2
  freeblock : s.freeblock = need done
  type : ∀ k, (inodes s k).type = if k = ROOTINO then T_DIR
    else if 2 ≤ k ∧ k < done.length + 2 then T_FILE else 0
  front : ∀ b, b < 2 + nlog → s.img.sect b = format.sect b

theorem need_append (done rest : List Input) : need done ≤ need (done ++ rest) := by
  have hlength : (rootEntries done).length ≤ (rootEntries (done ++ rest)).length := by
    rw [rootEntries_length, rootEntries_length, length_append]
    apply Nat.mul_le_mul_right
    omega
  have hmono := blocksOf_mono hlength
  unfold need
  rw [map_append, sum_append]
  omega

theorem dataOf_new (done : List Input) : dataOf done (done.length + 2) = [] := by
  simp [dataOf, ROOTINO]

section

variable {s : State} {done : List Input} {file : Input}

theorem addFile_spec (h : Built done s) (hcount : done.length < 206) :
    Succeeds (file.contents.length ≤ MAXFILE * BSIZE ∧ need (done ++ [file]) ≤ FSSIZE)
      (Built (done ++ [file])) (addFile ROOTINO s file) := by
  have hfree := h.freeinode
  obtain ⟨s1, halloc, hgood, hinode, hblock, hfront, htype⟩ :=
    ialloc_spec h.good (by omega) (by omega) T_FILE (by decide)
  have hroot : dataOf done ROOTINO = rootEntries done := if_pos rfl
  have hnew := dataOf_new done
  have hneed := need_snoc done file
  have hlength := rootEntries_length done
  have hentry := direntBytes_length (done.length + 2) (basename file.path)
  have hsnoc : (rootEntries (done ++ [file])).length = (rootEntries done).length + DIRENTSIZE := by
    rw [rootEntries_snoc, length_append, direntBytes_length]
  have hne : done.length + 2 ≠ ROOTINO := by
    unfold ROOTINO
    omega
  unfold addFile
  rw [halloc, ok_bind]
  dsimp only
  rw [hfree]
  have happend := iappend_spec hgood (i := ROOTINO) (Nat.le_refl 1)
    (by rw [hinode, hfree]; unfold ROOTINO; omega)
    (direntBytes (done.length + 2) (basename file.path))
  rw [hroot, hentry] at happend
  refine happend.bind (fun hc => ⟨?_, ?_⟩) ?_
  · rw [hlength]
    unfold MAXFILE NINDIRECT NDIRECT BSIZE DIRENTSIZE DIRSIZ at *
    omega
  · rw [hblock, h.freeblock, ← hsnoc]
    omega
  · intro s2 hs2
    have hcopy := copyFile_spec hs2.good (i := done.length + 2) (by omega)
      (by rw [hs2.stays.freeinode, hinode, hfree]; omega) file.contents
    have hfree2 := hs2.free
    rw [hroot, hentry, ← hsnoc, hblock, h.freeblock] at hfree2
    rw [update_of_ne hne, hnew, length_nil, Nat.zero_add] at hcopy
    refine hcopy.weaken (fun hc => ⟨hc.1, ?_⟩) ?_
    · have hzero : blocksOf 0 = 0 := by decide
      omega
    · intro s3 hs3
      have hdata : dataOf (done ++ [file]) = update (update (dataOf done) ROOTINO
          (dataOf done ROOTINO ++ direntBytes (done.length + 2) (basename file.path)))
          (done.length + 2) file.contents := by
        rw [dataOf_snoc, hroot]
      have hgood3 := hs3.good
      have hfree3 := hs3.free
      rw [update_of_ne hne, hnew, nil_append, ← hdata] at hgood3
      rw [update_of_ne hne, hnew, length_nil, Nat.zero_add] at hfree3
      refine ⟨hgood3, ?_, ?_, fun k => ?_, fun b hb => ?_⟩
      · rw [hs3.stays.freeinode, hs2.stays.freeinode, hinode, hfree, length_append,
          length_singleton]
      · have hzero : blocksOf 0 = 0 := by decide
        omega
      · rw [hs3.stays.type, hs2.stays.type, htype, h.type, hfree, length_append, length_singleton]
        unfold ROOTINO
        split_ifs <;> first | rfl | omega
      · rw [hs3.stays.front b hb, hs2.stays.front b hb, hfront b hb, h.front b hb]

theorem addFiles_spec (files : List Input) (h : Built done s)
    (hcount : done.length + files.length ≤ 206) :
    Succeeds ((∀ f ∈ files, f.contents.length ≤ MAXFILE * BSIZE) ∧ need (done ++ files) ≤ FSSIZE)
      (Built (done ++ files)) (files.foldlM (addFile ROOTINO) s) := by
  induction files generalizing done s with
  | nil =>
    rw [append_nil]
    exact succeeds_ok h
  | cons file files ih =>
    rw [length_cons] at hcount
    have happ : done ++ file :: files = (done ++ [file]) ++ files := by simp
    have hle := need_append (done ++ [file]) files
    rw [foldlM_cons, happ]
    refine (addFile_spec h (by omega)).bind
      (fun hc => ⟨hc.1 file mem_cons_self, by omega⟩) ?_
    intro s' hs'
    refine (ih hs' (by rw [length_append, length_singleton]; omega)).weaken ?_
      fun _ hb => hb
    exact fun hc => ⟨fun f hf => hc.1 f (mem_cons_of_mem _ hf), hc.2⟩

end

theorem zeroed_eq {n : Nat} (hn : n ≤ 8388608) :
    (List.range n).foldl (fun img i => wsect img i zeroes) ⟨fun _ => zeroes, 0⟩ =
      ⟨fun _ => zeroes, n⟩ := by
  induction n with
  | zero => rfl
  | succ n ih =>
    rw [range_succ, foldl_append, ih (by omega)]
    simp only [foldl_cons, foldl_nil, wsect]
    rw [seek_of_lt (by omega), update_eq_self]
    congr 1
    omega

theorem format_eq : format =
    ⟨update (fun _ => zeroes) 1 (overlay zeroes 0 SUPERSIZE sb.byte), FSSIZE⟩ := by
  unfold format
  dsimp only
  rw [zeroed_eq (by decide)]
  exact wsect_of_lt rfl (by decide) _

theorem format_good : Good ⟨format, 1, nmeta⟩ fun _ => [] := by
  have hmeta := nmeta_lt
  have hino : inodes ⟨format, 1, nmeta⟩ = fun _ => blank := by
    funext i
    exact if_neg (by dsimp only; omega)
  have hnum (block : Nat → Bytes) (j : Nat) : blank.num block j = 0 := by
    simp [Dinode.num, blank]
  have huses (j : Nat) : ¬ Uses 0 j := by
    unfold Uses
    omega
  refine ⟨?_, by decide, Nat.le_of_lt hmeta, ⟨?_, ?_, ?_, ?_, ?_, Nat.le_refl _⟩, ?_, ?_⟩
  · rw [format_eq]
  · rw [hino]
    exact handed_empty nmeta fun _ => hnum _ _
  · intro i j
    rw [hino]
    simp [hnum, huses]
  · intro i m hm
    exact absurd hm (Nat.not_lt_zero m)
  · intro i m hm
    exact absurd hm (Nat.not_lt_zero m)
  · intro b hb
    have hpos : b ≠ 1 := by
      have hlt : 1 < nmeta := by decide
      change nmeta ≤ b at hb
      omega
    rw [format_eq]
    dsimp only
    exact update_of_ne hpos _ _
  · intro i
    rw [hino]
    rfl
  · intro i
    exact Nat.zero_le _

theorem start_spec : ∃ s1, ialloc ⟨format, 1, nmeta⟩ T_DIR = .ok (ROOTINO, s1) ∧
    ∃ s2, iappend s1 ROOTINO (direntBytes ROOTINO dot) = .ok s2 ∧
    ∃ s, iappend s2 ROOTINO (direntBytes ROOTINO dotdot) = .ok s ∧ Built [] s := by
  obtain ⟨s1, halloc, hgood, hinode, hblock, hfront, htype⟩ :=
    ialloc_spec format_good (Nat.le_refl 1) (by decide) T_DIR (by decide)
  have hlt : ROOTINO < s1.freeinode := by
    rw [hinode]
    decide
  have hfirst := iappend_spec hgood (i := ROOTINO) (Nat.le_refl 1) hlt (direntBytes ROOTINO dot)
  rw [direntBytes_length, length_nil, hblock] at hfirst
  obtain ⟨s2, hs2⟩ := hfirst.total (by decide)
  have hpost2 := hfirst.sound s2 hs2
  have hsecond := iappend_spec hpost2.good (i := ROOTINO) (Nat.le_refl 1)
    (by rw [hpost2.stays.freeinode]; exact hlt) (direntBytes ROOTINO dotdot)
  have hfree2 := hpost2.free
  rw [direntBytes_length, length_nil, hblock] at hfree2
  rw [update_self, nil_append, direntBytes_length, direntBytes_length] at hsecond
  have hblocks : blocksOf 0 = 0 ∧ blocksOf DIRENTSIZE = 1 ∧
      blocksOf (DIRENTSIZE + DIRENTSIZE) = 1 := by decide
  have hsmall : nmeta + 1 ≤ FSSIZE ∧ DIRENTSIZE + DIRENTSIZE ≤ MAXFILE * BSIZE := by decide
  dsimp only at hfree2
  rw [Nat.zero_add] at hfree2
  obtain ⟨s, hs⟩ := hsecond.total (by omega)
  have hpost := hpost2.trans (hsecond.sound s hs)
  have hdata : dataOf [] = update (fun _ => []) ROOTINO
      ([] ++ (direntBytes ROOTINO dot ++ direntBytes ROOTINO dotdot)) := by
    funext k
    by_cases hk : k = ROOTINO
    · simp [dataOf, rootEntries, hk]
    · simp [dataOf, hk]
  have hgood' := hpost.good
  rw [← hdata] at hgood'
  refine ⟨s1, halloc, s2, hs2, s, hs, hgood', ?_, ?_, fun k => ?_, fun b hb => ?_⟩
  · rw [hpost.stays.freeinode, hinode]
    rfl
  · have hfree := hpost.free
    have hlength : (direntBytes ROOTINO dot ++ direntBytes ROOTINO dotdot).length =
        DIRENTSIZE + DIRENTSIZE := by
      rw [length_append, direntBytes_length, direntBytes_length]
    have hneed : need [] = nmeta + 1 := by decide
    rw [length_nil, hlength, Nat.zero_add, hblock] at hfree
    dsimp only at hfree
    omega
  · have hblank : (inodes ⟨format, 1, nmeta⟩ k).type = 0 := by
      have hnone : ¬ (1 ≤ k ∧ k < 1) := by omega
      unfold inodes
      rw [if_neg hnone]
      rfl
    have hempty : ¬ (2 ≤ k ∧ k < ([] : List Input).length + 2) := by
      rw [length_nil]
      omega
    rw [hpost.stays.type, htype, hblank, if_neg hempty]
    rfl
  · rw [hpost.stays.front b hb, hfront b hb]

def bitmap (used : Nat) : Bytes := (List.range used).foldl setBit zeroes

theorem bit_bitmap (used j : Nat) : bit (bitmap used) j = decide (j < used) := by
  unfold bitmap
  induction used with
  | zero => simp [bit, zeroes]
  | succ used ih =>
    rw [range_succ, foldl_append, foldl_cons, foldl_nil, bit_setBit, ih, ← Bool.decide_or]
    congr 1
    apply propext
    omega

/-- The image of the files, and that of the last steps. -/
structure Finished (files : List Input) (s : State) (img : Image) : Prop where
  built : Built files s
  len : img.len = FSSIZE
  root : inodeAt img ROOTINO = { inodeAt s.img ROOTINO with
    size := ((rootEntries files).length / BSIZE + 1) * BSIZE }
  others : ∀ k, k ≠ ROOTINO → k < 208 → inodeAt img k = inodeAt s.img k
  front : ∀ b, b < 2 + nlog → img.sect b = format.sect b
  bits : img.sect sb.bmapstart = bitmap (need files)
  sect : ∀ b, nmeta ≤ b → img.sect b = s.img.sect b

theorem mkfs_spec (files : List Input) (hcount : files.length ≤ 206) :
    Succeeds ((∀ f ∈ files, f.contents.length ≤ MAXFILE * BSIZE) ∧ need files ≤ FSSIZE)
      (fun img => ∃ s, Finished files s img) (mkfs files) := by
  obtain ⟨s1, h1, s2, h2, s, hs, hbuilt⟩ := start_spec
  unfold mkfs
  rw [h1, ok_bind]
  dsimp only
  rw [if_neg (not_not.mpr rfl)]
  rw [h2, ok_bind, hs, ok_bind]
  refine (addFiles_spec files hbuilt (by simpa using hcount)).bind (fun hc => hc) ?_
  intro s' hs'
  rw [nil_append] at hs'
  have hgood := hs'.good
  have hlt : ROOTINO < 208 := by decide
  have hino : inodes s' ROOTINO = inodeAt s'.img ROOTINO :=
    inodes_of_lt (Nat.le_refl 1) (by rw [hs'.freeinode]; unfold ROOTINO; omega)
  have hsize : (inodeAt s'.img ROOTINO).size = (rootEntries files).length := by
    rw [← hino, hgood.size]
    rfl
  have hround : ((rootEntries files).length / BSIZE + 1) * BSIZE < 4294967296 := by
    rw [rootEntries_length]
    unfold BSIZE DIRENTSIZE DIRSIZ
    omega
  rw [rinode_of_lt hgood.len hlt, ok_bind, hsize, Nat.mod_eq_of_lt hround]
  have hfits : (inodeAt s'.img ROOTINO).Fits := Dinode.fits_read _ _
  obtain ⟨img, hwrite, hlen, hself, hothers, hsect⟩ := winode_of_lt hgood.len hlt
    (hfits.setSize hround)
  have hblock := iblock_lt hlt
  have hbmap := bmapstart_lt
  have hmeta := nmeta_lt
  have hused : need files < BSIZE * 8 := by
    have hle := hgood.blocks
    rw [hs'.freeblock] at hle
    exact Nat.lt_of_le_of_lt hle (by decide)
  rw [hwrite, ok_bind, hs'.freeblock, balloc, if_pos hused, wsect_of_lt hlen (by omega)]
  -- only the bitmap block differs from the image before
  have hother (k : Nat) (hk : k < 208) : inodeAt ⟨update img.sect sb.bmapstart
      ((List.range (need files)).foldl setBit zeroes), FSSIZE⟩ k = inodeAt img k := by
    have hk' := iblock_lt hk
    unfold inodeAt
    dsimp only
    rw [update_of_ne (by omega)]
  refine succeeds_ok ⟨s', hs', rfl, ?_, fun k hk hk' => ?_, fun b hb => ?_, ?_, fun b hb => ?_⟩
  · rw [hother ROOTINO hlt]
    exact hself
  · rw [hother k hk']
    exact hothers k hk
  · dsimp only
    rw [update_of_ne (by omega), hsect b (by omega), hs'.front b hb]
  · dsimp only
    rw [update_self]
    rfl
  · dsimp only
    rw [update_of_ne (by omega), hsect b (by omega)]

section

variable {s s' : State} {din din' : Dinode}

/-- No block is handed out twice, whatever is in the image. -/
theorem iappendBlock_mono {fbn x : Nat} (h : iappendBlock s din fbn = .ok (x, din', s')) :
    s.freeblock ≤ s'.freeblock := by
  unfold iappendBlock at h
  split at h
  · split at h
    · cases h
      exact Nat.le_succ _
    · cases h
      exact Nat.le_refl _
  · by_cases hnone : din.addrs NDIRECT = 0
    · simp only [hnone, ↓reduceIte] at h
      obtain ⟨buf, _, h⟩ := bind_eq_ok.mp h
      split at h
      · cases h
        dsimp only
        omega
      · cases h
        exact Nat.le_succ _
    · simp only [hnone, ↓reduceIte] at h
      obtain ⟨buf, _, h⟩ := bind_eq_ok.mp h
      split at h
      · cases h
        exact Nat.le_succ _
      · cases h
        exact Nat.le_refl _

theorem iappendStep_mono {off : Nat} {p : List UInt8}
    (h : iappendStep s din off p = .ok (din', s')) : s.freeblock ≤ s'.freeblock := by
  unfold iappendStep at h
  dsimp only at h
  split at h
  · cases h
  · obtain ⟨⟨x, d, s1⟩, hblock, h⟩ := bind_eq_ok.mp h
    obtain ⟨buf, _, h⟩ := bind_eq_ok.mp h
    have hmono := iappendBlock_mono hblock
    cases h
    exact hmono

theorem iappendLoop_mono {off off' : Nat} {p : List UInt8}
    (h : iappendLoop s din off p = .ok (din', off', s')) : s.freeblock ≤ s'.freeblock := by
  -- by induction on the number of bytes that are left
  induction hn : p.length using Nat.strong_induction_on generalizing s din off p with
  | _ n ih =>
  rw [iappendLoop] at h
  split at h
  · cases h
    exact Nat.le_refl _
  · next hp =>
    obtain ⟨⟨d, s1⟩, hstep, h⟩ := bind_eq_ok.mp h
    have hpos := chunk_pos off hp
    have hlen := length_pos_iff.mpr hp
    have hrest := ih _ (by rw [length_drop]; omega) h rfl
    exact Nat.le_trans (iappendStep_mono hstep) hrest

theorem iappend_mono {inum : Nat} {p : List UInt8} (h : iappend s inum p = .ok s') :
    s.freeblock ≤ s'.freeblock := by
  unfold iappend at h
  obtain ⟨d, _, h⟩ := bind_eq_ok.mp h
  obtain ⟨⟨d', off, s1⟩, hloop, h⟩ := bind_eq_ok.mp h
  obtain ⟨img, _, h⟩ := bind_eq_ok.mp h
  have hmono := iappendLoop_mono hloop
  cases h
  exact hmono

theorem copyFile_mono {inum : Nat} {rest : List UInt8} (h : copyFile s inum rest = .ok s') :
    s.freeblock ≤ s'.freeblock := by
  induction hn : rest.length using Nat.strong_induction_on generalizing s rest with
  | _ n ih =>
  rw [copyFile] at h
  split at h
  · cases h
    exact Nat.le_refl _
  · next hrest =>
    obtain ⟨s1, hstep, h⟩ := bind_eq_ok.mp h
    have hlen := length_pos_iff.mpr hrest
    have hdrop : (rest.drop BSIZE).length < n := by
      rw [length_drop]
      unfold BSIZE
      omega
    exact Nat.le_trans (iappend_mono hstep) (ih _ hdrop h rfl)

theorem addFile_mono {rootino : Nat} {file : Input} (h : addFile rootino s file = .ok s') :
    s.freeblock ≤ s'.freeblock := by
  unfold addFile at h
  obtain ⟨⟨inum, s1⟩, halloc, h⟩ := bind_eq_ok.mp h
  obtain ⟨s2, happend, h⟩ := bind_eq_ok.mp h
  have hsame : s1.freeblock = s.freeblock := by
    unfold ialloc at halloc
    obtain ⟨img, _, halloc⟩ := bind_eq_ok.mp halloc
    cases halloc
    rfl
  have h1 := iappend_mono happend
  have h2 := copyFile_mono h
  omega

theorem addFiles_mono {rootino : Nat} {files : List Input}
    (h : files.foldlM (addFile rootino) s = .ok s') : s.freeblock ≤ s'.freeblock := by
  induction files generalizing s with
  | nil =>
    cases h
    exact Nat.le_refl _
  | cons file files ih =>
    rw [foldlM_cons] at h
    obtain ⟨s1, hfile, h⟩ := bind_eq_ok.mp h
    exact Nat.le_trans (addFile_mono hfile) (ih h)

end

/-- With more than 206 files the image ends in a bitmap of at least 66 blocks. -/
theorem mkfs_many {files : List Input} {img : Image} (hcount : 206 < files.length)
    (h : mkfs files = .ok img) : ∃ used, 66 ≤ used ∧ img.sect sb.bmapstart = bitmap used := by
  obtain ⟨s1, h1, s2, h2, s, hs, hbuilt⟩ := start_spec
  unfold mkfs at h
  rw [h1, ok_bind] at h
  dsimp only at h
  rw [if_neg (not_not.mpr rfl), h2, ok_bind, hs, ok_bind, ← take_append_drop 206 files,
    foldlM_append] at h
  obtain ⟨s3, hfiles, h⟩ := bind_eq_ok.mp h
  obtain ⟨s4, hfirst, hrest⟩ := bind_eq_ok.mp hfiles
  obtain ⟨din, _, h⟩ := bind_eq_ok.mp h
  obtain ⟨img', _, h⟩ := bind_eq_ok.mp h
  have htake : (files.take 206).length = 206 := by
    rw [length_take]
    omega
  have hbuilt' := (addFiles_spec (files.take 206) hbuilt (by
    rw [htake]
    decide)).sound s4 hfirst
  rw [nil_append] at hbuilt'
  have hblocks : need (files.take 206) ≥ 66 := by
    have hroot : blocksOf ((206 + 2) * DIRENTSIZE) = 7 := by decide
    have hmeta : nmeta = 59 := by decide
    unfold need
    rw [rootEntries_length, htake]
    omega
  have hmono := addFiles_mono hrest
  rw [hbuilt'.freeblock] at hmono
  refine ⟨s3.freeblock, by omega, ?_⟩
  unfold balloc at h
  split at h
  · cases h
    have hseek : seek sb.bmapstart = sb.bmapstart := seek_of_lt (by decide)
    unfold wsect
    dsimp only
    rw [hseek, update_self]
    rfl
  · cases h

/-- Every block of the contents of an inode has a number, of a block of the image. -/
def HoleFree (img : Image) (inum : Nat) : Prop :=
  ∀ j, j < ((inodeAt img inum).size + (BSIZE - 1)) / BSIZE →
    (inodeAt img inum).num img.sect j ≠ 0 ∧ (inodeAt img inum).num img.sect j < FSSIZE

namespace Finished

variable {files : List Input} {s : State} {img : Image} {k : Nat}

theorem num_eq (h : Finished files s img) (hk : 1 ≤ k) (hlt : k < files.length + 2) (j : Nat) :
    (inodeAt img k).num img.sect j = (inodes s k).num s.img.sect j := by
  have hfree := h.built.freeinode
  have hcount := h.built.good.count
  have hino : inodes s k = inodeAt s.img k := inodes_of_lt hk (by omega)
  have haddrs : (inodeAt img k).addrs = (inodes s k).addrs := by
    rw [hino]
    by_cases hroot : k = ROOTINO
    · rw [hroot, h.root]
    · rw [h.others k hroot (by omega)]
  have hsame : (inodeAt img k).num img.sect j = (inodes s k).num img.sect j := by
    unfold Dinode.num
    rw [haddrs]
  rw [hsame]
  apply num_congr
  intro hne
  exact h.sect _ (h.built.good.layout.num_lt (i := k) (j := MAXFILE) hne).1

theorem holeFree_iff (h : Finished files s img) (hk : 1 ≤ k) (hlt : k < files.length + 2) :
    HoleFree img k ↔
      ∀ j, j < ((inodeAt img k).size + (BSIZE - 1)) / BSIZE → Uses (dataOf files k).length j := by
  have hlayout := h.built.good.layout
  have hblocks := h.built.good.blocks
  unfold HoleFree
  simp only [h.num_eq hk hlt]
  constructor
  · intro hfree j hj
    exact (hlayout.has k j).mp (hfree j hj).1
  · intro huses j hj
    have hne := (hlayout.has k j).mpr (huses j hj)
    have hbound := hlayout.num_lt hne
    exact ⟨hne, by omega⟩

theorem holeFree_file (h : Finished files s img) (hk : 2 ≤ k) (hlt : k < files.length + 2) :
    HoleFree img k := by
  have hfree := h.built.freeinode
  have hcount := h.built.good.count
  have hroot : k ≠ ROOTINO := by
    unfold ROOTINO
    omega
  have hsize : (inodeAt img k).size = (dataOf files k).length := by
    rw [h.others k hroot (by omega), ← h.built.good.size k, inodes_of_lt (by omega) (by omega)]
  have hsmall := h.built.good.small k
  apply (h.holeFree_iff (by omega) hlt).mpr
  rw [hsize]
  intro j hj
  unfold Uses
  unfold BSIZE at *
  omega

/-- The size of the root directory was rounded up to one more block if it was even. -/
theorem holeFree_root (h : Finished files s img) :
    HoleFree img ROOTINO ↔ (files.length + 2) % 32 ≠ 0 := by
  have hcount := h.built.good.count
  rw [h.built.freeinode] at hcount
  have hdata : dataOf files ROOTINO = rootEntries files := if_pos rfl
  rw [h.holeFree_iff (k := ROOTINO) (Nat.le_refl 1) (by unfold ROOTINO; omega), h.root, hdata,
    rootEntries_length]
  dsimp only
  unfold Uses MAXFILE NINDIRECT NDIRECT BSIZE DIRENTSIZE DIRSIZ
  constructor
  · intro huses
    have hlast := huses ((files.length + 2) * (2 + 14) / 512) (by omega)
    omega
  · intro hmod j hj
    omega

end Finished

theorem testBit_bitmap (used k : Nat) {t : Nat} (ht : t < 8) :
    (bitmap used k).toNat.testBit t = decide (8 * k + t < used) := by
  have hbit := bit_bitmap used (8 * k + t)
  have hdiv : (8 * k + t) / 8 = k := by omega
  have hmod : (8 * k + t) % 8 = t := by omega
  unfold bit at hbit
  rwa [hdiv, hmod] at hbit

theorem bitmap_full {used k : Nat} (h : 8 * k + 8 ≤ used) : (bitmap used k).toNat = 255 := by
  apply Nat.eq_of_testBit_eq
  intro t
  by_cases ht : t < 8
  · have hone : (255 : Nat).testBit t = true := by
      have hall : ∀ t < 8, (255 : Nat).testBit t = true := by decide
      exact hall t ht
    rw [testBit_bitmap used k ht, hone]
    exact decide_eq_true (by omega)
  · have hpow : 2 ^ 8 ≤ 2 ^ t := Nat.pow_le_pow_right (by decide) (by omega)
    have hlt := (bitmap used k).toNat_lt
    rw [Nat.testBit_lt_two_pow (by omega), Nat.testBit_lt_two_pow (by omega)]

theorem bitmap_empty {used k : Nat} (h : used ≤ 8 * k) : (bitmap used k).toNat = 0 := by
  apply Nat.eq_of_testBit_eq
  intro t
  rw [Nat.zero_testBit]
  by_cases ht : t < 8
  · rw [testBit_bitmap used k ht]
    exact decide_eq_false (by omega)
  · have hpow : 2 ^ 8 ≤ 2 ^ t := Nat.pow_le_pow_right (by decide) (by omega)
    have hlt := (bitmap used k).toNat_lt
    exact Nat.testBit_lt_two_pow (by omega)

theorem bitmap_pos {used k : Nat} (h : 8 * k < used) : 0 < (bitmap used k).toNat := by
  apply Nat.pos_of_ne_zero
  intro hzero
  have hbit := testBit_bitmap used k (t := 0) (by decide)
  rw [hzero, Nat.zero_testBit] at hbit
  exact absurd (of_decide_eq_false hbit.symm) (by omega)

theorem le32_bitmap_full (used i : Nat) (h : 8 * i + 32 ≤ used) :
    le32 (bitmap used) i = 4294967295 := by
  unfold le32 le16
  rw [bitmap_full (by omega), bitmap_full (by omega), bitmap_full (by omega),
    bitmap_full (by omega)]

theorem le32_bitmap_empty (used i : Nat) (h : used ≤ 8 * i) : le32 (bitmap used) i = 0 := by
  unfold le32 le16
  rw [bitmap_empty (by omega), bitmap_empty (by omega), bitmap_empty (by omega),
    bitmap_empty (by omega)]

theorem le32_bitmap_pos (used i : Nat) (h : 8 * i < used) : 0 < le32 (bitmap used) i := by
  have hpos := bitmap_pos h
  unfold le32 le16
  omega

/-- A bitmap of at least 66 blocks, read as an inode, has a size and lacks a block for it. -/
theorem bitmap_not_inode {img : Image} {used : Nat} (hused : 66 ≤ used)
    (h : img.sect sb.bmapstart = bitmap used) : ¬ HoleFree img 208 := by
  have hino : inodeAt img 208 = Dinode.read (bitmap used) 0 := by
    rw [← h]
    rfl
  have hsize : (inodeAt img 208).size = le32 (bitmap used) 8 := by
    rw [hino]
    rfl
  have haddr (k : Nat) (hk : k ≤ NDIRECT) :
      (inodeAt img 208).addrs k = le32 (bitmap used) (12 + 4 * k) := by
    rw [hino]
    simp [Dinode.read, hk]
  intro hfree
  have hpos := le32_bitmap_pos used 8 (by omega)
  have hfirst := hfree 0
  have hsecond := hfree 1
  rw [num_direct (by decide), haddr _ (by decide), hsize] at hfirst hsecond
  unfold BSIZE FSSIZE at hfirst hsecond
  rcases Nat.lt_or_ge used 97 with hlow | hmid
  · have hnone := le32_bitmap_empty used 12 (by omega)
    exact (hfirst (by omega)).1 hnone
  · rcases Nat.lt_or_ge used 129 with hlow | hhigh
    · have hall := le32_bitmap_full used 8 (by omega)
      have hnone := le32_bitmap_empty used 16 (by omega)
      exact (hsecond (by omega)).1 hnone
    · have hall := le32_bitmap_full used 12 (by omega)
      have hbound := (hfirst (by omega)).2
      rw [Nat.mul_zero, Nat.add_zero, hall] at hbound
      omega

/-- The image of `mkfs` has no holes exactly when its inodes are in the blocks kept for
them and the root directory does not end with a block. -/
theorem mkfs_hole_free_iff {files : List Input} {img : Image} (h : mkfs files = .ok img) :
    (∀ inum, 1 ≤ inum → inum ≤ files.length + 1 → HoleFree img inum) ↔
      files.length ≤ 206 ∧ (files.length + 2) % 32 ≠ 0 := by
  by_cases hcount : files.length ≤ 206
  · obtain ⟨s, hs⟩ := (mkfs_spec files hcount).sound img h
    rw [← hs.holeFree_root]
    constructor
    · intro hall
      exact ⟨hcount, hall ROOTINO (Nat.le_refl 1) (by unfold ROOTINO; omega)⟩
    · rintro ⟨_, hroot⟩ inum hpos hle
      rcases Nat.eq_or_lt_of_le hpos with rfl | hlt
      · exact hroot
      · exact hs.holeFree_file hlt (by omega)
  · obtain ⟨used, hused, hbits⟩ := mkfs_many (by omega) h
    constructor
    · intro hall
      exact absurd (hall 208 (by decide) (by omega)) (bitmap_not_inode hused hbits)
    · rintro ⟨hle, _⟩
      exact absurd hle hcount

/-- One file: the image has no holes. -/
theorem mkfs_hole_free_one : ∃ img, mkfs [⟨[97], [1]⟩] = .ok img ∧
    ∀ inum, 1 ≤ inum → inum ≤ 2 → HoleFree img inum := by
  obtain ⟨img, himg⟩ := (mkfs_spec [⟨[97], [1]⟩] (by decide)).total ⟨by decide, by decide⟩
  exact ⟨img, himg, (mkfs_hole_free_iff himg).mpr ⟨by decide, by decide⟩⟩

/-- 30 empty files with names of one letter. -/
def thirtyFiles : List Input := (List.range 30).map fun i => ⟨[UInt8.ofNat (97 + i)], []⟩

/-- The entries of 30 files and the two of the directory itself fill a block: the size
of the root directory says two. -/
theorem mkfs_root_hole : ∃ img, mkfs thirtyFiles = .ok img ∧
    (inodeAt img ROOTINO).size = 2 * BSIZE ∧ (inodeAt img ROOTINO).num img.sect 1 = 0 ∧
    ¬ HoleFree img ROOTINO := by
  have hlength : thirtyFiles.length = 30 := by decide
  have hempty : ∀ f ∈ thirtyFiles, f.contents.length ≤ MAXFILE * BSIZE := by decide
  have hneed : need thirtyFiles ≤ FSSIZE := by
    unfold need
    rw [rootEntries_length]
    decide
  have hdata : dataOf thirtyFiles ROOTINO = rootEntries thirtyFiles := if_pos rfl
  have hspec := mkfs_spec thirtyFiles (by rw [hlength]; decide)
  obtain ⟨img, himg⟩ := hspec.total ⟨hempty, hneed⟩
  obtain ⟨s, hs⟩ := hspec.sound img himg
  refine ⟨img, himg, ?_, ?_, ?_⟩
  · rw [hs.root, rootEntries_length]
    rfl
  · have hnot : ¬ Uses (dataOf thirtyFiles ROOTINO).length 1 := by
      rw [hdata, rootEntries_length, hlength]
      unfold Uses MAXFILE NINDIRECT NDIRECT BSIZE DIRENTSIZE DIRSIZ
      omega
    rw [hs.num_eq (k := ROOTINO) (Nat.le_refl 1) (by rw [hlength]; decide)]
    rw [← hs.built.good.layout.has] at hnot
    exact not_not.mp hnot
  · rw [hs.holeFree_root, hlength]
    omega

end Xv6.Mkfs

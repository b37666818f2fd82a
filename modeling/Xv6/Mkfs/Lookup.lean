import Xv6.Fs.Walk

/-!
The files of an image under their names. The root directory may have a hole behind its last
entry, so that the loop of `dirlookup` is followed only up to the entry it finds.
-/

namespace Xv6.Fs

open Lib List

/-- The loop of `dirlookup` up to the entry with the name; nothing is said of what is behind. -/
theorem dirlookupLoop_found (devsw : Devsw) {k : Disk} {dp : Dinode} {name : List UInt8}
    {n b size : Nat} (es : Nat → List UInt8)
    (hread : ∀ j ≤ n, readi devsw k dp (DIRENTSIZE * j) DIRENTSIZE =
      .ok ((DIRENTSIZE : Nat), es j, dp, k))
    (hsize : DIRENTSIZE * n < size)
    (hbefore : ∀ j < n, ∀ c, slotOf (Dirent.read (es j)) = some c → c.1 ≠ nameKey name)
    (hat : slotOf (Dirent.read (es n)) = some (nameKey name, b)) {j : Nat} (hj : j ≤ n) :
    dirlookupLoop devsw name size k dp (DIRENTSIZE * j) =
      .ok (some (b, DIRENTSIZE * n), dp, k) := by
  induction hj using Nat.decreasingInduction with
  | self =>
    rw [dirlookupLoop, if_pos hsize, hread n (Nat.le_refl n), onDisk, ok_bind]
    dsimp only
    rw [if_neg (not_not_intro rfl)]
    generalize Dirent.read (es n) = de at hat
    unfold slotOf at hat
    split at hat
    · cases hat
    · next hzero =>
      obtain ⟨hkey, rfl⟩ := Prod.mk.inj (Option.some.inj hat)
      rw [if_neg hzero, if_pos ((namecmp_eq_zero _ _).mpr hkey.symm)]
  | of_succ j hlt hnext =>
    have hoff : DIRENTSIZE * j < size :=
      Nat.lt_trans (Nat.mul_lt_mul_of_pos_left hlt (by decide)) hsize
    have hother := hbefore j hlt
    rw [dirlookupLoop, if_pos hoff, hread j (Nat.le_of_lt hlt), onDisk, ok_bind]
    dsimp only
    rw [if_neg (not_not_intro rfl)]
    generalize Dirent.read (es j) = de at hother
    by_cases hzero : de.inum = 0
    · rw [if_pos hzero]
      exact hnext
    · have hslot : slotOf de = some (nameKey de.name, de.inum) := if_neg hzero
      have hne := hother _ hslot
      rw [if_neg hzero, if_neg fun hcmp => hne ((namecmp_eq_zero _ _).mp hcmp).symm]
      exact hnext

theorem skipelem_name {name : List UInt8} (hne : name ≠ []) (hslash : slash ∉ name)
    (hlen : name.length ≤ DIRSIZ) : skipelem name = some (name, []) := by
  have hnot (c : UInt8) (hc : c ∈ name) : c ≠ slash := fun heq => hslash (heq ▸ hc)
  have hskip : name.dropWhile (· == slash) = name := by
    cases name with
    | nil => rfl
    | cons c rest =>
      apply dropWhile_cons_of_neg
      simpa using hnot c mem_cons_self
  have helem : name.takeWhile (· != slash) = name :=
    takeWhile_eq_self_iff.mpr fun c hc => bne_iff_ne.mpr (hnot c hc)
  have hrest : name.dropWhile (· != slash) = [] :=
    dropWhile_eq_nil_iff.mpr fun c hc => bne_iff_ne.mpr (hnot c hc)
  unfold skipelem
  dsimp only
  rw [hskip, if_neg hne, helem, hrest, take_of_length_le hlen]
  rfl

theorem namei_name {κ0 : Kern} {ino : Nat → Dinode} (hdisk : κ0.disk.OnDisk ino)
    (hcached : κ0.Cached ino) (hunlocked : ∀ j, (κ0.icache j).locked = false)
    (htwo : κ0.TwoFree) (devsw : Devsw) {cwd : Nat} (hcwd : cwd < NINODE)
    (href : 0 < (κ0.icache cwd).ref) (hlive : Live κ0 ino (κ0.icache cwd).inum)
    (htype : (ino (κ0.icache cwd).inum).type = T_DIR) {name : List UInt8} (hne : name ≠ [])
    (hslash : slash ∉ name) (hlen : name.length ≤ DIRSIZ) {b off : Nat}
    (hfound : dirlookupLoop devsw name (ino (κ0.icache cwd).inum).size κ0.disk
      (ino (κ0.icache cwd).inum) 0 = .ok (some (b, off), ino (κ0.icache cwd).inum, κ0.disk)) :
    ∃ j κ, namei devsw κ0 cwd name = .ok (some j, κ) ∧ Walk κ0 ino [j] none κ ∧
      (κ.icache j).inum = b := by
  have hgot : Got κ0 (κ0.icache cwd).inum cwd (idup κ0 cwd) := Got.cached href rfl
  obtain ⟨h, hinums0⟩ := (Walk.start hcached hunlocked).got hcwd hgot
  have hx := hinums0 cwd href
  have hi : cwd ∈ [cwd] := mem_singleton_self cwd
  obtain ⟨κ1, hlock, hwalk, hip, hinums⟩ := h.ilock hdisk hi (by rw [hx]; exact hlive.lt)
    (by rw [hx]; exact hlive.type)
  rw [hx] at hip
  have hlookup : dirlookup devsw κ1 cwd name =
      iget κ1 b >>= fun r => .ok (some (r.1, off), r.2) := by
    unfold dirlookup
    dsimp only
    rw [hip, if_neg (not_not_intro htype), hwalk.disk, hfound, ok_bind]
    dsimp only
    rw [← hip, ← hwalk.disk, Listed.setInode_self]
  have hget := iget_spec κ1 b
  cases hi' : iget κ1 b with
  | error e => exact absurd (hwalk.canGet htwo b) (hget.errs e hi').2
  | ok r =>
    obtain ⟨next, κ2⟩ := r
    obtain ⟨hlt, hgot2, _⟩ := hget.sound _ hi'
    dsimp only at hlt hgot2
    obtain ⟨hwalk2, hinums2⟩ := hwalk.got hlt hgot2
    have hx2 : (κ2.icache cwd).inum = (κ0.icache cwd).inum := by
      rw [hinums2 cwd (hwalk.ref_pos hi), hinums, hx]
    obtain ⟨κ3, hput, hwalk3, hinums3⟩ :=
      (hwalk2.perm (List.Perm.swap cwd next [])).iunlockput (by rw [hx2]; exact hlive)
    refine ⟨next, κ3, ?_, hwalk3, by rw [hinums3, hgot2.inum_eq]⟩
    have hhead : name.head? ≠ some slash := fun hhead => hslash (mem_of_mem_head? hhead)
    have hlast : namexLoop devsw false κ3 next name [] = .ok (some (next, name), κ3) := by
      rw [namexLoop]
      rfl
    have hloop : namexLoop devsw false (idup κ0 cwd) cwd [] name = .ok (some (next, name), κ3) := by
      rw [namexLoop]
      split
      · next hnone =>
        rw [skipelem_name hne hslash hlen] at hnone
        cases hnone
      · next name' rest hskip =>
        rw [skipelem_name hne hslash hlen] at hskip
        cases hskip
        rw [hlock, ok_bind, hip, if_neg (not_not_intro htype),
          if_neg (fun h => Bool.noConfusion h.1), hlookup, hi', ok_bind, ok_bind]
        dsimp only
        rw [hput, ok_bind]
        exact hlast
    unfold namei namex
    rw [if_neg hhead, hloop]
    rfl

end Xv6.Fs

namespace Xv6.Mkfs

open Lib Fs List

section

def entries (files : List Input) : List (Nat × List UInt8) :=
  (ROOTINO, dot) :: (ROOTINO, dotdot) :: (files.zipIdx 2).map fun x => (x.2, basename x.1.path)

theorem rootEntries_eq (files : List Input) :
    rootEntries files = (entries files).flatMap fun x => direntBytes x.1 x.2 := by
  unfold rootEntries entries
  simp [flatMap_map]

theorem flatMap_part {α : Type*} {f : α → List UInt8} {n : Nat} (hf : ∀ x, (f x).length = n)
    (l : List α) {j : Nat} {x : α} (hx : l[j]? = some x) :
    ((l.flatMap f).drop (n * j)).take n = f x := by
  induction l generalizing j with
  | nil => cases hx
  | cons a l ih =>
    rw [flatMap_cons]
    cases j with
    | zero =>
      obtain rfl : a = x := Option.some.inj hx
      rw [Nat.mul_zero, drop_zero, take_left' (hf a)]
    | succ j =>
      rw [Nat.mul_succ, Nat.add_comm, ← drop_drop, drop_left' (hf a)]
      exact ih hx

theorem entry_bytes (files : List Input) {j : Nat} {x : Nat × List UInt8}
    (hx : (entries files)[j]? = some x) :
    ((rootEntries files).drop (DIRENTSIZE * j)).take DIRENTSIZE = direntBytes x.1 x.2 := by
  rw [rootEntries_eq]
  exact flatMap_part (fun x => direntBytes_length x.1 x.2) (entries files) hx

theorem entries_file (files : List Input) {k : Nat} {file : Input} (hfile : files[k]? = some file) :
    (entries files)[k + 2]? = some (k + 2, basename file.path) := by
  unfold entries
  simp [hfile, Nat.add_comm]

end

namespace Finished

variable {files : List Input} {s : State} {img : Image}

theorem rootino_lt (files : List Input) : 1 ≤ ROOTINO ∧ ROOTINO < files.length + 2 := by
  unfold ROOTINO
  omega

theorem root_type (h : Finished files s img) : (inodeAt img ROOTINO).type = T_DIR := by
  have hfree := h.built.freeinode
  have htype := h.built.type ROOTINO
  have hlt := rootino_lt files
  rw [if_pos rfl, inodes_of_lt hlt.1 (by rw [hfree]; exact hlt.2)] at htype
  have hsame : (inodeAt img ROOTINO).type = (inodeAt s.img ROOTINO).type := by rw [h.root]
  rw [hsame, htype]

theorem root_size (h : Finished files s img) :
    (rootEntries files).length < (inodeAt img ROOTINO).size := by
  rw [h.root]
  dsimp only
  unfold BSIZE
  omega

theorem readi_root (h : Finished files s img) (devsw : Devsw) {j : Nat}
    (hj : j < files.length + 2) :
    readi devsw (mounted img) (inodeAt img ROOTINO) (DIRENTSIZE * j) DIRENTSIZE =
      .ok ((DIRENTSIZE : Nat), ((rootEntries files).drop (DIRENTSIZE * j)).take DIRENTSIZE,
        inodeAt img ROOTINO, mounted img) := by
  have hlayout := h.built.good.layout
  have hsmall := h.built.good.small ROOTINO
  have hlt := rootino_lt files
  have hdata : dataOf files ROOTINO = rootEntries files := if_pos rfl
  have hsize := h.root_size
  have hlength := rootEntries_length files
  have hend : DIRENTSIZE * j + DIRENTSIZE ≤ (rootEntries files).length := by
    rw [hlength]
    unfold DIRENTSIZE DIRSIZ
    omega
  have hbytes (m : Nat) (hm : m < (rootEntries files).length) :
      (mounted img).fileByte (inodeAt img ROOTINO) m = (rootEntries files).getD m 0 := by
    have hbyte := h.fileByte_mounted hlt.1 hlt.2 (by rw [hdata]; exact hm)
    rw [hdata] at hbyte
    exact hbyte
  rw [hdata] at hsmall
  have hblocks (m : Nat) (hm : m < (rootEntries files).length) :
      (inodeAt img ROOTINO).num (mounted img).block (m / BSIZE) ≠ 0 := by
    have hcover := hlayout.covers ROOTINO m (by rw [hdata]; exact hm)
    have hne := (hlayout.has ROOTINO _).mpr hcover.2
    rw [← h.num_eq hlt.1 hlt.2] at hne
    exact hne
  have hloop : readiLoop (mounted img) (inodeAt img ROOTINO) (DIRENTSIZE * j) DIRENTSIZE = _ :=
    readiLoop_eq (by omega) fun m _ hm => hblocks m (by omega)
  have hread : (List.range DIRENTSIZE).map
      (fun t => (mounted img).fileByte (inodeAt img ROOTINO) (DIRENTSIZE * j + t)) =
      ((rootEntries files).drop (DIRENTSIZE * j)).take DIRENTSIZE := by
    apply ext_getElem
    · rw [length_map, length_range, length_take, length_drop]
      omega
    · intro t ht _
      rw [length_map, length_range] at ht
      rw [getElem_map, getElem_range, hbytes _ (by omega), getElem_take,
        getElem_drop, getD_eq_getElem _ _ (by omega)]
  have hmax : MAXFILE * BSIZE < 4294967296 := by decide
  unfold readi
  rw [if_neg (by rw [h.root_type]; decide), if_neg (by omega), if_neg (by omega)]
  dsimp only
  rw [hloop, ok_bind, hread]

theorem inUse_iff (h : Finished files s img) {b : Nat} (hb : b < FSSIZE) :
    (mounted img).inUse b = true ↔ b < nmeta ∨
      b ≠ 0 ∧ ∃ i j, (fileInodes files img i).num (mounted img).block j = b := by
  have howned := h.owned
  have hsb := h.mounted_sb
  have hmeta : (mounted img).sb.Meta b ↔ b < nmeta := by
    unfold Superblock.Meta
    rw [hsb, sb_nmeta]
  have hsize : b < (mounted img).sb.size := by
    rw [hsb]
    exact hb
  constructor
  · intro huse
    by_cases hlow : b < nmeta
    · exact .inl hlow
    · obtain ⟨ij, hij⟩ := howned.owners.onto b ⟨hsize, fun hm => hlow (hmeta.mp hm), huse⟩
      have hpos := nmeta_pos
      exact .inr ⟨by omega, ij.1, ij.2, hij⟩
  · rintro (hlow | ⟨hne, i, j, hij⟩)
    · exact howned.reserved b hsize (hmeta.mpr hlow)
    · rw [← hij] at hne ⊢
      exact (howned.num_own hne).2.2

end Finished

section

theorem basename_ne_nil (path : List UInt8) : basename path ≠ [] := by
  unfold basename
  dsimp only
  split
  · decide
  · split
    · decide
    · next hne =>
      rw [Ne, reverse_eq_nil_iff]
      exact elem_ne_nil hne (head_ne_slash path.reverse)

theorem slash_notMem_basename {path : List UInt8} (h : basename path ≠ [slash]) :
    slash ∉ basename path := by
  unfold basename at h ⊢
  dsimp only at h ⊢
  split
  · decide
  · next hpath =>
    rw [if_neg hpath] at h
    split
    · next hrest => exact absurd (if_pos hrest) h
    · intro hmem
      have htake := mem_takeWhile_imp (mem_reverse.mp hmem)
      exact absurd htake (by decide)

theorem zero_notMem_basename {path : List UInt8} (h : 0 ∉ path) : 0 ∉ basename path := by
  unfold basename
  dsimp only
  split
  · decide
  · split
    · decide
    · intro hmem
      have htake := (takeWhile_sublist _).subset (mem_reverse.mp hmem)
      have hdrop := (dropWhile_sublist _).subset htake
      exact h (mem_reverse.mp hdrop)

def entryName (file : Input) : List UInt8 := (basename file.path).take DIRSIZ

theorem nameKey_of_plain {name : List UInt8} (h : 0 ∉ name) : nameKey name = name.take DIRSIZ := by
  unfold nameKey
  apply takeWhile_eq_self_iff.mpr
  intro c hc
  have hne : c ≠ 0 := fun heq => h (heq ▸ mem_of_mem_take hc)
  exact decide_eq_true hne

end

/-- Input files of an image: regular files with different names in the directory, that fit. -/
structure Inputs (files : List Input) : Prop where
  count : files.length + 1 < NINODES
  size : ∀ f ∈ files, f.contents.length ≤ MAXFILE * BSIZE
  need : need files ≤ FSSIZE
  string : ∀ f ∈ files, 0 ∉ f.path
  file : ∀ f ∈ files, basename f.path ≠ [slash]
  dots : ∀ f ∈ files, entryName f ≠ dot ∧ entryName f ≠ dotdot
  distinct : (files.map entryName).Nodup

section

variable {files : List Input} {s : State} {img : Image}

theorem Inputs.nameKey_eq (h : Inputs files) {f : Input} (hf : f ∈ files) :
    nameKey (basename f.path) = entryName f ∧ nameKey (entryName f) = entryName f := by
  have hplain := zero_notMem_basename (h.string f hf)
  constructor
  · exact nameKey_of_plain hplain
  · unfold entryName
    rw [nameKey_of_plain fun hmem => hplain (mem_of_mem_take hmem), take_take, Nat.min_self]

theorem Finished.lookup (h : Finished files s img) (hin : Inputs files) (devsw : Devsw) {k : Nat}
    {file : Input} (hfile : files[k]? = some file) :
    dirlookupLoop devsw (entryName file) (inodeAt img ROOTINO).size (mounted img)
      (inodeAt img ROOTINO) 0 =
      .ok (some (k + 2, DIRENTSIZE * (k + 2)), inodeAt img ROOTINO, mounted img) := by
  have hk : k < files.length := (List.getElem?_eq_some_iff.mp hfile).1
  have hmem : file ∈ files := mem_of_getElem? hfile
  have hkey := hin.nameKey_eq hmem
  have hcount := hin.count
  have hmax : NINODES < 65536 := by decide
  have hslot {j : Nat} {x : Nat × List UInt8} (hx : (entries files)[j]? = some x)
      (hne : x.1 ≠ 0) (hlt : x.1 < 65536) :
      slotOf (Dirent.read (((rootEntries files).drop (DIRENTSIZE * j)).take DIRENTSIZE)) =
        some (nameKey x.2, x.1) := by
    rw [entry_bytes files hx]
    exact slotOf_direntBytes hne hlt x.2
  refine dirlookupLoop_found devsw (n := k + 2) (j := 0)
    (fun j => ((rootEntries files).drop (DIRENTSIZE * j)).take DIRENTSIZE) ?_ ?_ ?_ ?_
    (Nat.zero_le _)
  · exact fun j hj => h.readi_root devsw (by omega)
  · refine Nat.lt_of_le_of_lt ?_ h.root_size
    rw [rootEntries_length]
    unfold DIRENTSIZE DIRSIZ
    omega
  · intro j hj c hc
    rw [hkey.2]
    match j with
    | 0 =>
      rw [hslot (x := (ROOTINO, dot)) rfl (by decide) (by decide)] at hc
      cases hc
      exact fun heq => (hin.dots file hmem).1 heq.symm
    | 1 =>
      rw [hslot (x := (ROOTINO, dotdot)) rfl (by decide) (by decide)] at hc
      cases hc
      exact fun heq => (hin.dots file hmem).2 heq.symm
    | j + 2 =>
      have hj' : j < files.length := by omega
      have hget := entries_file files (List.getElem?_eq_getElem hj')
      rw [hslot hget (Nat.succ_ne_zero _) (by dsimp only; omega)] at hc
      cases hc
      rw [(hin.nameKey_eq (getElem_mem hj')).1]
      intro heq
      have hnodup := List.nodup_iff_getElem?_ne_getElem?.mp hin.distinct j k (by omega)
        (by rw [length_map]; exact hk)
      apply hnodup
      rw [List.getElem?_map, List.getElem?_map, hfile, List.getElem?_eq_getElem hj']
      exact congrArg some heq
  · rw [hslot (entries_file files hfile) (Nat.succ_ne_zero _) (by dsimp only; omega), hkey.1,
      hkey.2]

/-- A kernel that runs on the image: the cached inodes are those of the image, none is
locked, and there is room in the cache. -/
structure Runs (img : Image) (κ : Kern) (cwd : Nat) : Prop where
  disk : κ.disk = mounted img
  cached : κ.Cached (inodeAt img)
  unlocked : ∀ j, (κ.icache j).locked = false
  free : κ.TwoFree
  cwd_lt : cwd < NINODE
  cwd_ref : 0 < (κ.icache cwd).ref
  cwd_root : (κ.icache cwd).inum = ROOTINO

/-- The image of any files that fit: the bitmap has the blocks in use, and in a kernel that
runs on it every name leads to an inode that has the size and the bytes of its file. -/
theorem mkfs_kernel_agree {files : List Input} (hin : Inputs files) : ∃ img, mkfs files = .ok img ∧
      (∀ b < FSSIZE, (mounted img).inUse b = true ↔ b < nmeta ∨
        b ≠ 0 ∧ ∃ i j, (fileInodes files img i).num (mounted img).block j = b) ∧
      ∀ devsw κ cwd, Runs img κ cwd → ∀ (k : Nat) (file : Input), files[k]? = some file →
        ∃ j κ1 κ2, namei devsw κ cwd (entryName file) = .ok (some j, κ1) ∧
          (κ1.icache j).inum = k + 2 ∧ ilock κ1 j = .ok κ2 ∧
          (κ2.icache j).ip.type = T_FILE ∧ (κ2.icache j).ip.size = file.contents.length ∧
          ∀ off n, off < 4294967296 → n < 4294967296 → readi devsw κ2.disk (κ2.icache j).ip off n =
              if off ≤ file.contents.length ∧ off + n < 4294967296 then
                .ok (((min n (file.contents.length - off) : Nat) : Int),
                  (file.contents.drop off).take n, (κ2.icache j).ip, κ2.disk)
              else .ok (-1, [], (κ2.icache j).ip, κ2.disk) := by
  have hcount := hin.count
  have hninodes : NINODES = 200 := rfl
  have hspec := mkfs_spec files (by omega)
  obtain ⟨img, himg⟩ := hspec.total ⟨hin.size, hin.need⟩
  obtain ⟨s, h⟩ := hspec.sound img himg
  refine ⟨img, himg, fun b hb => h.inUse_iff hb, fun devsw κ cwd hrun k file hfile => ?_⟩
  have hmem : file ∈ files := mem_of_getElem? hfile
  have hk : k < files.length := (List.getElem?_eq_some_iff.mp hfile).1
  have hsb : κ.disk.sb = sb := by rw [hrun.disk, h.mounted_sb]
  have honDisk : κ.disk.OnDisk (inodeAt img) := by
    intro n _
    rw [hsb, hrun.disk]
    rfl
  have hlive : Live κ (inodeAt img) (κ.icache cwd).inum := by
    refine ⟨?_, ?_, .inr ⟨cwd, hrun.cwd_lt, hrun.cwd_ref, rfl⟩⟩
    · rw [hsb, hrun.cwd_root]
      decide
    · rw [hrun.cwd_root, h.root_type]
      decide
  have hplain : Fs.slash ∉ entryName file := fun hslash =>
    slash_notMem_basename (hin.file file hmem) (mem_of_mem_take hslash)
  have hne : entryName file ≠ [] := by
    unfold entryName
    rw [Ne, take_eq_nil_iff]
    exact not_or.mpr ⟨by decide, basename_ne_nil file.path⟩
  have hlookup := h.lookup hin devsw hfile
  rw [← hrun.cwd_root, ← hrun.disk] at hlookup
  obtain ⟨j, κ1, hnamei, hwalk, hinum⟩ := namei_name honDisk hrun.cached hrun.unlocked hrun.free
    devsw hrun.cwd_lt hrun.cwd_ref hlive (by rw [hrun.cwd_root]; exact h.root_type) hne hplain
    (length_take_le _ _) hlookup
  have htype := h.type_mounted (i := k + 2) (by omega) (by omega)
  obtain ⟨κ2, hlock, hwalk2, hip, -⟩ := hwalk.ilock honDisk (mem_singleton_self j)
    (by rw [hinum, hsb]; change k + 2 < 200; omega) (by rw [hinum, htype]; decide)
  rw [hinum] at hip
  have hdata : dataOf files (k + 2) = file.contents := by
    have hroot : ¬ k + 2 = ROOTINO := by
      unfold ROOTINO
      omega
    unfold dataOf
    rw [if_neg hroot, if_neg (by omega), Nat.add_sub_cancel, hfile]
    rfl
  have hsize := h.size_mounted (i := k + 2) (by omega) (by omega)
  rw [hdata] at hsize
  refine ⟨j, κ1, κ2, hnamei, hinum, hlock, ?_, ?_, fun off n hoff hn => ?_⟩
  · rw [hip, htype]
  · rw [hip, hsize]
  · have hcontents := h.contents_mounted (i := k + 2) (by omega) (by omega)
    rw [hip, hwalk2.disk, hrun.disk, readi_spec devsw (by rw [htype]; decide)
      (h.holeFree_mounted (by omega) (by omega)) hoff hn, hcontents, hdata, hsize]

end

namespace Sample

/-- A kernel after the boot, with the root directory in its inode cache. -/
def booted (img : Image) : Kern where
  disk := mounted img
  icache j := if j = 0 then ⟨ROOTINO, 1, false, false, blank⟩ else ⟨0, 0, false, false, blank⟩

theorem booted_runs (img : Image) : Runs img (booted img) 0 := by
  have hentry {j : Nat} (href : 0 < ((booted img).icache j).ref) : j = 0 := by
    by_contra hj
    have hfree : (booted img).icache j = ⟨0, 0, false, false, blank⟩ := if_neg hj
    rw [hfree] at href
    exact absurd href (by decide)
  have hvalid (j : Nat) : ((booted img).icache j).valid = false ∧
      ((booted img).icache j).locked = false := by
    change (if j = 0 then (⟨ROOTINO, 1, false, false, blank⟩ : Entry) else _).valid = false ∧
      (if j = 0 then (⟨ROOTINO, 1, false, false, blank⟩ : Entry) else _).locked = false
    split <;> exact ⟨rfl, rfl⟩
  refine ⟨rfl, ⟨?_, ?_⟩, fun j => (hvalid j).2, ?_, by decide, ?_, rfl⟩
  · intro j _ _ hj
    rw [(hvalid j).1] at hj
    cases hj
  · intro j _ l _ hj hl _
    rw [hentry hj, hentry hl]
  · exact ⟨1, by decide, 2, by decide, by decide, rfl, rfl⟩
  · exact Nat.one_pos

def oneFile : List Input := [⟨[97], [1]⟩]

theorem oneFile_inputs : Inputs oneFile := by
  refine ⟨by decide, ?_, by decide, ?_, ?_, ?_, by decide⟩ <;>
    · intro f hf
      obtain rfl := mem_singleton.mp hf
      decide

end Sample

/-- The name `a` in the image of one file. -/
theorem mkfs_kernel_agree_one : ∃ img, mkfs Sample.oneFile = .ok img ∧
    ∃ j κ, namei ⟨fun _ => none, fun _ => none⟩ (Sample.booted img) 0 [97] = .ok (some j, κ) ∧
      (κ.icache j).inum = 2 := by
  obtain ⟨img, himg, -, hnames⟩ := mkfs_kernel_agree Sample.oneFile_inputs
  obtain ⟨j, κ1, -, hnamei, hinum, -⟩ := hnames ⟨fun _ => none, fun _ => none⟩ _ 0
    (Sample.booted_runs img) 0 ⟨[97], [1]⟩ rfl
  exact ⟨img, himg, j, κ1, hnamei, hinum⟩

end Xv6.Mkfs

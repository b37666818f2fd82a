import Xv6.Fs.Directory

/-!
When `dirlink` adds an entry. A name that is there is refused, unless it is bound to an
inode that the process has locked, as the directory itself is; a name that is not there
needs a free entry or room for the directory to grow. A directory of the largest size without
a free entry shows that there need not be one.
-/

namespace Xv6.Fs

open Lib List

section

variable {κ : Kern} {ino : Nat → Dinode} {d : Nat}

def Kern.CanLink (κ : Kern) (d : Nat) (key : List UInt8) : Prop :=
  match Slots.find (κ.dir d) key with
  | some (b, _) => κ.Unlocked b ∧ κ.CanGet b
  | none => κ.Room d

/-- `dirlink` adds the entry, or refuses a name that is there and leaves everything as it
was, exactly where the name is bound to an inode that is not locked, for which the inode
cache has an entry, or the name is free and so is an entry, or the directory can grow. The
result `-1` is that of a name that is there. -/
theorem dirlink_adds_iff (h : OpenDir κ ino d) (devsw : Devsw) (name : List UInt8) {inum : Nat}
    (hne : inum ≠ 0) (hlt : inum < 65536) :
    ((∃ r κ', dirlink devsw κ d name inum = .ok (r, κ') ∧ (r = 0 ∧ Slots.binding (κ'.dir d) =
            Function.update (Slots.binding (κ.dir d)) (nameKey name) (some inum) ∨
          r = -1 ∧ κ.Same κ')) ↔ κ.CanLink d (nameKey name)) ∧
      ∀ r κ', dirlink devsw κ d name inum = .ok (r, κ') → r < 0 →
        (Slots.binding (κ.dir d) (nameKey name)).isSome := by
  unfold Kern.CanLink Slots.binding
  cases hfind : Slots.find (κ.dir d) (nameKey name) with
  | some found =>
    obtain ⟨b, j⟩ := found
    have hspec := h.dirlink_bound devsw inum hfind
    refine ⟨⟨?_, fun hcan => ?_⟩, fun _ _ _ _ => rfl⟩
    · rintro ⟨r, κ', hr, _⟩
      exact (hspec.sound _ hr).1
    · cases hr : dirlink devsw κ d name inum with
      | error e => exact absurd hcan (hspec.errs e hr)
      | ok r =>
        obtain ⟨_, hminus, hsame⟩ := hspec.sound r hr
        exact ⟨r.1, r.2, rfl, .inr ⟨hminus, hsame⟩⟩
  | none =>
    have hspec := h.dirlink_free devsw hne hlt hfind
    refine ⟨⟨?_, fun hroom => ?_⟩, fun r κ' hr hneg => ?_⟩
    · rintro ⟨r, κ', hr, _⟩
      exact (hspec.sound _ hr).1
    · cases hr : dirlink devsw κ d name inum with
      | error e => exact absurd hroom (hspec.errs e hr)
      | ok r =>
        obtain ⟨_, hzero, ino', hchanged⟩ := hspec.sound r hr
        refine ⟨r.1, r.2, rfl, .inl ⟨hzero, ?_⟩⟩
        have hbinding := Slots.binding_put h.unique hfind inum
        rw [← hchanged.dir] at hbinding
        exact hbinding
    · have hzero : r = 0 := (hspec.sound _ hr).2.1
      omega

end

namespace Sample

open Mkfs

/-- Byte `p` of an entry: the names are two bytes each, all different. -/
def entryByte (inum t p : Nat) : UInt8 :=
  if p < 2 then leByte inum p
  else if p = 2 then UInt8.ofNat (1 + t % 255)
  else if p = 3 then UInt8.ofNat (1 + t / 255)
  else 0

/-- A disk with a file of the largest size, which holds directory entries for an inode. -/
def disk (inum : Nat) : Disk where
  block b :=
    if b = 1 then overlay zeroes 0 SUPERSIZE sb.byte
    else if b = sb.bmapstart then bitmap (nmeta + MAXFILE + 1)
    else if b < nmeta then zeroes
    else if b < nmeta + MAXFILE then
      fun p => entryByte inum (32 * (b - nmeta) + p / 16) (p % 16)
    else fun p => leByte (nmeta + NDIRECT + p / 4) (p % 4)
  sb := sb
  log := []

/-- A directory of `m` entries in the blocks of the file. -/
def dir (m : Nat) : Dinode where
  type := T_DIR
  major := 0
  minor := 0
  nlink := 1
  size := DIRENTSIZE * m
  addrs e := if e < NDIRECT then nmeta + e else if e = NDIRECT then nmeta + MAXFILE else 0

/-- An empty file. -/
def file : Dinode := { blank with type := T_FILE, nlink := 1 }

def inodes (m i : Nat) : Dinode := if i = 1 then dir m else file

/-- The directory is locked, and the inode of the new entry has been read. It is locked when
`create` calls `dirlink`, and not when `sys_link` does. -/
def kern (m inum : Nat) (lock : Bool) : Kern where
  disk := disk inum
  icache i := if i = 0 then ⟨1, 1, true, true, dir m⟩
    else if i = 1 then ⟨2, 1, true, lock, file⟩ else ⟨0, 0, false, false, blank⟩

variable {m inum : Nat} {lock : Bool}

theorem block_data {j : Nat} (hj : j < MAXFILE) :
    (disk inum).block (nmeta + j) = fun p => entryByte inum (32 * j + p / 16) (p % 16) := by
  have hmeta : sb.bmapstart < nmeta := by decide
  have hone : 1 < nmeta := by decide
  change (if nmeta + j = 1 then _ else if nmeta + j = sb.bmapstart then _ else
    if nmeta + j < nmeta then _ else if nmeta + j < nmeta + MAXFILE then _ else _) = _
  rw [if_neg (by omega), if_neg (by omega), if_neg (by omega), if_pos (by omega),
    Nat.add_sub_cancel_left]

theorem block_indirect :
    (disk inum).block (nmeta + MAXFILE) = fun p => leByte (nmeta + NDIRECT + p / 4) (p % 4) := rfl

theorem num_dir (j : Nat) :
    (dir m).num (disk inum).block j = if j ≤ MAXFILE then nmeta + j else 0 := by
  have hdirect : NDIRECT < MAXFILE := by decide
  have hind : (dir m).addrs NDIRECT = nmeta + MAXFILE := rfl
  by_cases hj : j < NDIRECT
  · rw [num_direct hj, if_pos (by omega)]
    exact if_pos hj
  · by_cases hlt : j < MAXFILE
    · rw [num_word (by omega) hlt (by rw [hind]; decide), if_pos (by omega), hind, block_indirect]
      unfold indirectWord
      have hword (k : Nat) (hk : k < 4) :
          leByte (nmeta + NDIRECT + (4 * (j - NDIRECT) + k) / 4) ((4 * (j - NDIRECT) + k) % 4) =
            leByte (nmeta + j) k := by
        congr 1 <;> omega
      rw [le32_leByte hword, Nat.mod_eq_of_lt]
      have hbound : nmeta + MAXFILE < 4294967296 := by decide
      omega
    · by_cases heq : j = MAXFILE
      · rw [heq, num_indirect, hind, if_pos (Nat.le_refl _)]
      · unfold Dinode.num
        rw [if_neg hj, if_neg hlt, if_neg heq, if_neg (by omega)]

theorem num_file (j : Nat) : file.num (disk inum).block j = 0 := by
  unfold Dinode.num file blank
  simp

theorem inUse_eq {b : Nat} (hb : b < sb.size) :
    (disk inum).inUse b = decide (b < nmeta + MAXFILE + 1) := by
  have hlt : b < BPB := Nat.lt_trans hb (by decide)
  have hblock : BBLOCK b sb = sb.bmapstart := by
    unfold BBLOCK
    rw [Nat.div_eq_of_lt hlt, Nat.zero_add]
  have hmap : (disk inum).block sb.bmapstart = bitmap (nmeta + MAXFILE + 1) := rfl
  change bit ((disk inum).block (BBLOCK b sb)) (b % BPB) = _
  rw [hblock, hmap, Nat.mod_eq_of_lt hlt, bit_bitmap]

theorem owned (m inum : Nat) : (disk inum).Owned (inodes m) := by
  have hnmeta := sb_nmeta
  have hsize : nmeta + MAXFILE + 1 ≤ sb.size := by decide
  have hpos : 0 < nmeta := by decide
  have hnum (i j : Nat) : (inodes m i).num (disk inum).block j =
      if i = 1 ∧ j ≤ MAXFILE then nmeta + j else 0 := by
    unfold inodes
    by_cases hi : i = 1
    · rw [if_pos hi, num_dir]
      simp only [hi, true_and]
    · rw [if_neg hi, num_file, if_neg fun h => hi h.1]
  refine ⟨sb_sane, ?_, ?_, ?_⟩
  · change Superblock.read (overlay zeroes 0 SUPERSIZE sb.byte) = sb
    decide
  · intro b hb hmeta
    change b < sb.nmeta at hmeta
    rw [inUse_eq hb]
    exact decide_eq_true (by omega)
  · have hown (b : Nat) : (b < (disk inum).sb.size ∧ ¬ (disk inum).sb.Meta b ∧
        (disk inum).inUse b = true) ↔ nmeta ≤ b ∧ b ≤ nmeta + MAXFILE := by
      change b < sb.size ∧ ¬ b < sb.nmeta ∧ _ ↔ _
      constructor
      · rintro ⟨hb, hmeta, huse⟩
        rw [inUse_eq hb] at huse
        have hlt := of_decide_eq_true huse
        omega
      · rintro ⟨hge, hle⟩
        refine ⟨by omega, by omega, ?_⟩
        rw [inUse_eq (by omega)]
        exact decide_eq_true (by omega)
    have howners : Owners (fun b => nmeta ≤ b ∧ b ≤ nmeta + MAXFILE)
        fun ij : Nat × Nat => if ij.1 = 1 ∧ ij.2 ≤ MAXFILE then nmeta + ij.2 else 0 := by
      refine ⟨by omega, fun ij hij => ?_, fun ij kl hij heq => ?_, fun b hb => ?_⟩
      · split at hij
        · next h =>
          rw [if_pos h]
          omega
        · exact absurd rfl hij
      · split at hij
        · next h =>
          rw [if_pos h] at heq
          split at heq
          · next h' =>
            apply Prod.ext
            · omega
            · omega
          · omega
        · exact absurd rfl hij
      · refine ⟨(1, b - nmeta), ?_⟩
        rw [if_pos ⟨rfl, by omega⟩]
        omega
    exact howners.congr hown fun ij => hnum ij.1 ij.2

theorem holeFree (hm : DIRENTSIZE * m ≤ MAXFILE * BSIZE) : (disk inum).HoleFree (dir m) := by
  refine ⟨hm, fun j hj => ?_⟩
  have hlt : j * BSIZE < MAXFILE * BSIZE := Nat.lt_of_lt_of_le hj hm
  have hpos : 0 < nmeta := by decide
  rw [num_dir, if_pos (Nat.le_of_lt (Nat.lt_of_mul_lt_mul_right hlt))]
  omega

theorem contents_eq (hm : DIRENTSIZE * m ≤ MAXFILE * BSIZE) : (disk inum).contents (dir m) =
      (List.range (DIRENTSIZE * m)).map fun p => entryByte inum (p / 16) (p % 16) := by
  apply map_congr_left
  intro p hp
  have hlt : p < MAXFILE * BSIZE := Nat.lt_of_lt_of_le (mem_range.mp hp) hm
  have hj : p / BSIZE < MAXFILE := Nat.div_lt_of_lt_mul (by rw [Nat.mul_comm]; exact hlt)
  unfold Disk.fileByte
  rw [num_dir, if_pos (Nat.le_of_lt hj), block_data hj]
  dsimp only
  unfold BSIZE
  congr 1 <;> omega

def name (t : Nat) : List UInt8 := [UInt8.ofNat (1 + t % 255), UInt8.ofNat (1 + t / 255)]

theorem direntAt_eq (hm : DIRENTSIZE * m ≤ MAXFILE * BSIZE) {t : Nat} (ht : t < m) :
    direntAt ((disk inum).contents (dir m)) t =
      Dirent.read ((List.range 16).map fun p => entryByte inum t p) := by
  have hchunk : (((disk inum).contents (dir m)).drop (DIRENTSIZE * t)).take DIRENTSIZE =
      (List.range 16).map fun p => entryByte inum t p := by
    rw [contents_eq hm]
    apply ext_getElem
    · rw [length_take, length_drop, length_map, length_range, length_map, length_range]
      unfold DIRENTSIZE DIRSIZ
      omega
    · intro p hp hp'
      rw [length_map, length_range] at hp'
      rw [getElem_take, getElem_drop, getElem_map, getElem_map, getElem_range, getElem_range]
      unfold DIRENTSIZE DIRSIZ
      congr 1 <;> omega
  unfold direntAt
  rw [hchunk]

theorem lt_of_fits (hm : DIRENTSIZE * m ≤ MAXFILE * BSIZE) : m ≤ 4480 := by
  have hsize : MAXFILE * BSIZE = DIRENTSIZE * 4480 := by decide
  rw [hsize] at hm
  exact Nat.le_of_mul_le_mul_left hm (by decide)

theorem ofNat_succ_ne_zero {n : Nat} (hn : n < 255) : UInt8.ofNat (1 + n) ≠ 0 := by
  rw [Ne, ← UInt8.toNat_inj, UInt8.toNat_ofNat']
  change ¬ (1 + n) % 256 = 0
  omega

theorem slot_eq (hm : DIRENTSIZE * m ≤ MAXFILE * BSIZE) (hne : inum ≠ 0) (hlt : inum < 65536)
    {t : Nat} (ht : t < m) :
    slotOf (direntAt ((disk inum).contents (dir m)) t) = some (name t, inum) := by
  have hle := lt_of_fits hm
  have ha := ofNat_succ_ne_zero (n := t % 255) (by omega)
  have hb := ofNat_succ_ne_zero (n := t / 255) (by omega)
  have hbytes : (List.range 16).map (fun p => entryByte inum t p) = direntBytes inum (name t) := by
    unfold direntBytes name DIRSIZ
    rw [strncpy, if_neg ha, strncpy, if_neg hb]
    rfl
  have hkey : nameKey (name t) = name t := by
    unfold nameKey name DIRSIZ
    simp only [take_succ_cons, take_nil, takeWhile_cons, takeWhile_nil, ne_eq,
      ha, hb, not_false_eq_true, decide_true, if_true]
  rw [direntAt_eq hm ht, hbytes, slotOf_direntBytes hne hlt, hkey]

theorem slots_eq (hm : DIRENTSIZE * m ≤ MAXFILE * BSIZE) (hne : inum ≠ 0) (hlt : inum < 65536) :
    (kern m inum lock).dir 0 = (List.range m).map fun t => some (name t, inum) := by
  change slots ((disk inum).contents (dir m)) = _
  unfold slots
  have hsize : (dir m).size = DIRENTSIZE * m := rfl
  rw [contents_length, hsize, Nat.mul_div_cancel_left m (by decide)]
  apply map_congr_left
  intro t ht
  exact slot_eq hm hne hlt (mem_range.mp ht)

theorem slots_get {i : Nat} {key : List UInt8} {v : Nat}
    (h : ((List.range m).map fun t => some (name t, inum))[i]? = some (some (key, v))) :
    i < m ∧ key = name i ∧ v = inum := by
  rw [List.getElem?_map, Option.map_eq_some_iff] at h
  obtain ⟨t, ht, heq⟩ := h
  obtain ⟨hi, hti⟩ := List.getElem?_eq_some_iff.mp ht
  rw [length_range] at hi
  rw [getElem_range] at hti
  cases heq
  exact ⟨hi, by rw [hti], rfl⟩

theorem name_inj {t t' : Nat} (ht : t < 4480) (ht' : t' < 4480) (h : name t = name t') :
    t = t' := by
  unfold name at h
  simp only [List.cons.injEq, ← UInt8.toNat_inj, UInt8.toNat_ofNat', and_true] at h
  omega

theorem unique (hm : DIRENTSIZE * m ≤ MAXFILE * BSIZE) :
    Slots.Unique ((List.range m).map fun t => some (name t, inum)) := by
  have hle := lt_of_fits hm
  intro i j key v v' hi hj
  obtain ⟨hi, hkey, _⟩ := slots_get hi
  obtain ⟨hj, hkey', _⟩ := slots_get hj
  exact name_inj (by omega) (by omega) (hkey.symm.trans hkey')

theorem opened (hm : DIRENTSIZE * m ≤ MAXFILE * BSIZE) (hne : inum ≠ 0) (hlt : inum < 65536) :
    OpenDir (kern m inum lock) (inodes m) 0 := by
  have hused {i : Nat} (href : 0 < ((kern m inum lock).icache i).ref) : i = 0 ∨ i = 1 := by
    by_contra hi
    rw [not_or] at hi
    have hfree : (kern m inum lock).icache i = ⟨0, 0, false, false, blank⟩ :=
      (if_neg hi.1).trans (if_neg hi.2)
    rw [hfree] at href
    exact absurd href (by decide)
  refine ⟨owned m inum, ⟨?_, ?_⟩, by decide, Nat.one_pos, rfl, rfl, ?_, ?_, rfl, ?_, holeFree hm,
    Nat.dvd_mul_right _ _, by rw [slots_eq hm hne hlt]; exact unique hm⟩
  · intro i _ href _
    rcases hused href with rfl | rfl <;> rfl
  · intro i _ j _ hi hj hinum
    rcases hused hi with rfl | rfl <;> rcases hused hj with rfl | rfl
    · rfl
    · exact absurd (show (1 : Nat) = 2 from hinum) (by decide)
    · exact absurd (show (2 : Nat) = 1 from hinum) (by decide)
    · rfl
  · intro i hzero
    have hi : i ≠ 0 ∧ i ≠ 1 := by
      constructor <;> rintro rfl <;> exact absurd hzero Nat.one_ne_zero
    exact congrArg Entry.locked ((if_neg hi.1).trans (if_neg hi.2))
  · change 1 < sb.ninodes
    decide
  · have hle : MAXFILE * BSIZE < 4294967296 := by decide
    have hshort : (-32768 : Int) ≤ 1 ∧ (1 : Int) < 32768 := by decide
    have hnone : (-32768 : Int) ≤ 0 ∧ (0 : Int) < 32768 := by decide
    refine ⟨hshort, hnone, hnone, hshort, Nat.lt_of_le_of_lt hm hle, fun e => ?_, fun e he => ?_⟩
    · change (if e < NDIRECT then nmeta + e else if e = NDIRECT then nmeta + MAXFILE else 0) < _
      have hbound : nmeta + MAXFILE < 4294967296 := by decide
      have hdirect : NDIRECT < MAXFILE := by decide
      split
      · omega
      · split
        · exact hbound
        · decide
    · change (if e < NDIRECT then nmeta + e else if e = NDIRECT then nmeta + MAXFILE else 0) = 0
      rw [if_neg (by omega), if_neg (by omega)]

theorem find_letter (hm : DIRENTSIZE * m ≤ MAXFILE * BSIZE) (hne : inum ≠ 0)
    (hlt : inum < 65536) : Slots.find ((kern m inum lock).dir 0) (nameKey [97]) = none := by
  rw [slots_eq hm hne hlt, Slots.find_eq_none]
  intro i v hget
  have hlength : (nameKey [97]).length = 2 := congrArg List.length (slots_get hget).2.1
  exact absurd hlength (by decide)

theorem hole_eq (hm : DIRENTSIZE * m ≤ MAXFILE * BSIZE) (hne : inum ≠ 0)
    (hlt : inum < 65536) : Slots.hole ((kern m inum lock).dir 0) = m := by
  have hlength : ((kern m inum lock).dir 0).length = m := by
    rw [slots_eq hm hne hlt, length_map, length_range]
  have hfull : ¬ Slots.hole ((kern m inum lock).dir 0) < ((kern m inum lock).dir 0).length := by
    rw [Slots.hole_lt_iff, slots_eq hm hne hlt]
    simp
  have hle := Slots.hole_le ((kern m inum lock).dir 0)
  omega

/-- The entry of the only name is in a block with room for another. -/
theorem room : (kern 1 1 lock).Room 0 := by
  have hm : DIRENTSIZE * 1 ≤ MAXFILE * BSIZE := by decide
  unfold Kern.Room
  rw [hole_eq hm (by decide) (by decide)]
  have hnone : missing (disk 1) (dir 1) (needed (DIRENTSIZE * 1) DIRENTSIZE) = 0 :=
    missing_present (holeFree hm) (by decide)
  exact ⟨by decide, hnone.trans_le (Nat.zero_le _)⟩

end Sample

/-- `create` adds a name to a directory with one entry, both inodes locked. -/
theorem dirlink_adds_create :
    ∃ κ', dirlink ⟨fun _ => none, fun _ => none⟩ (Sample.kern 1 1 true) 0 [97] 2 = .ok (0, κ') ∧
      Slots.binding (κ'.dir 0) =
        Function.update (Slots.binding ((Sample.kern 1 1 true).dir 0)) (nameKey [97]) (some 2) := by
  have hm : DIRENTSIZE * 1 ≤ MAXFILE * BSIZE := by decide
  have hfind : Slots.find ((Sample.kern 1 1 true).dir 0) (nameKey [97]) = none :=
    Sample.find_letter hm (by decide) (by decide)
  have hopened : OpenDir (Sample.kern 1 1 true) (Sample.inodes 1) 0 :=
    Sample.opened hm (by decide) (by decide)
  obtain ⟨hadds, hbound⟩ := dirlink_adds_iff hopened ⟨fun _ => none, fun _ => none⟩ [97]
    (show 2 ≠ 0 by decide) (by decide)
  unfold Kern.CanLink at hadds
  rw [hfind] at hadds
  obtain ⟨r, κ', hr, ⟨rfl, hbinding⟩ | ⟨rfl, _⟩⟩ := hadds.mpr Sample.room
  · exact ⟨κ', hr, hbinding⟩
  · have hsome := hbound _ _ hr (by decide)
    unfold Slots.binding at hsome
    rw [hfind] at hsome
    cases hsome

/-- A directory with 4480 names is full: `dirlink` of another name, as `create` calls it,
panics. -/
theorem dirlink_panics :
    OpenDir (Sample.kern 4480 2 true) (Sample.inodes 4480) 0 ∧
    dirlink ⟨fun _ => none, fun _ => none⟩ (Sample.kern 4480 2 true) 0 [97] 2 =
      .error .dirlink := by
  have hm : DIRENTSIZE * 4480 ≤ MAXFILE * BSIZE := by decide
  have hopened : OpenDir (Sample.kern 4480 2 true) (Sample.inodes 4480) 0 :=
    Sample.opened hm (by decide) (by decide)
  refine ⟨hopened, ?_⟩
  apply hopened.dirlink_full _ 2 (Sample.find_letter hm (by decide) (by decide))
  rw [Sample.hole_eq hm (by decide) (by decide)]
  decide

end Xv6.Fs

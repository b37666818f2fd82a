import Xv6.Fs.Dir

/-!
Operations on one directory, whose inode is locked: a directory without holes whose names
are all different is a finite map, and `dirlookup`, `dirlink` and the erasure of an entry
are the operations of that map.
-/

namespace Xv6.Fs

open Lib Function

/-- The entries of the directory in entry `d` of the cache. -/
def Kern.dir (κ : Kern) (d : Nat) : List (Option (List UInt8 × Nat)) :=
  slots (κ.disk.contents (κ.icache d).ip)

/-- Entry `d` of the cache is a directory without holes. -/
structure Listed (κ : Kern) (d : Nat) : Prop where
  type : (κ.icache d).ip.type = T_DIR
  holeFree : κ.disk.HoleFree (κ.icache d).ip
  rows : DIRENTSIZE ∣ (κ.icache d).ip.size

variable {name : List UInt8} {b j : Nat}

namespace Listed

variable {κ : Kern} {d : Nat}

theorem setInode_self (κ : Kern) (d : Nat) : κ.setInode d (κ.icache d).ip κ.disk = κ := by
  unfold Kern.setInode
  rw [update_eq_self]

theorem size_eq (h : Listed κ d) : (κ.icache d).ip.size = DIRENTSIZE * (κ.dir d).length := by
  unfold Kern.dir
  rw [slots_length, contents_length, Nat.mul_div_cancel' h.rows]

theorem dirlookup_loop (h : Listed κ d) (devsw : Devsw) (name : List UInt8) :
    dirlookupLoop devsw name (κ.icache d).ip.size κ.disk (κ.icache d).ip 0 =
      .ok ((Slots.find (κ.dir d) (nameKey name)).map fun found =>
        (found.1, DIRENTSIZE * found.2), (κ.icache d).ip, κ.disk) := by
  have hloop := dirlookupLoop_eq devsw name h.type h.holeFree h.size_eq (Nat.zero_le _)
  rwa [Nat.mul_zero, List.drop_zero] at hloop

theorem dirlookup_none (h : Listed κ d) (devsw : Devsw)
    (hfind : Slots.find (κ.dir d) (nameKey name) = none) :
    dirlookup devsw κ d name = .ok (none, κ) := by
  unfold dirlookup
  dsimp only
  rw [if_neg (not_not_intro h.type), h.dirlookup_loop, hfind, ok_bind]
  dsimp only [Option.map_none]
  rw [setInode_self]

theorem dirlookup_some (h : Listed κ d) (devsw : Devsw)
    (hfind : Slots.find (κ.dir d) (nameKey name) = some (b, j)) :
    dirlookup devsw κ d name = iget κ b >>= fun r => .ok (some (r.1, DIRENTSIZE * j), r.2) := by
  unfold dirlookup
  dsimp only
  rw [if_neg (not_not_intro h.type), h.dirlookup_loop, hfind, ok_bind]
  dsimp only [Option.map_some]
  rw [setInode_self]

end Listed

/-- Entry `d` of the cache is a directory that the process has locked. -/
structure OpenDir (κ : Kern) (ino : Nat → Dinode) (d : Nat) : Prop where
  owned : κ.disk.Owned ino
  cached : κ.Cached ino
  lt : d < NINODE
  ref : 0 < (κ.icache d).ref
  valid : (κ.icache d).valid = true
  locked : (κ.icache d).locked = true
  free : ∀ i, (κ.icache i).ref = 0 → (κ.icache i).locked = false
  inum : (κ.icache d).inum < κ.disk.sb.ninodes
  type : (κ.icache d).ip.type = T_DIR
  fits : (κ.icache d).ip.Fits
  holeFree : κ.disk.HoleFree (κ.icache d).ip
  rows : DIRENTSIZE ∣ (κ.icache d).ip.size
  unique : Slots.Unique (κ.dir d)

/-- No entry of the cache has inode `b` locked: `iput` of it does not sleep. -/
def Kern.Unlocked (κ : Kern) (b : Nat) : Prop :=
  ∀ i < NINODE, 0 < (κ.icache i).ref → (κ.icache i).inum = b → (κ.icache i).locked = false

namespace OpenDir

variable {κ κ' : Kern} {ino : Nat → Dinode} {d : Nat} {devsw : Devsw}

theorem ip_eq (h : OpenDir κ ino d) : (κ.icache d).ip = ino (κ.icache d).inum :=
  h.cached.valid d h.lt h.ref h.valid

theorem listed (h : OpenDir κ ino d) : Listed κ d := ⟨h.type, h.holeFree, h.rows⟩

theorem size_eq (h : OpenDir κ ino d) :
    (κ.icache d).ip.size = DIRENTSIZE * (κ.dir d).length := h.listed.size_eq

theorem contents_length_eq (h : OpenDir κ ino d) :
    (κ.disk.contents (κ.icache d).ip).length = DIRENTSIZE * (κ.dir d).length := by
  rw [contents_length, h.size_eq]

theorem same (h : OpenDir κ ino d) (hsame : κ.Same κ') : OpenDir κ' ino d := by
  have hd : κ'.icache d = κ.icache d := by
    rcases hsame.entry d with heq | ⟨hzero, _⟩
    · exact heq
    · have hpos := h.ref
      omega
  have hpos {i : Nat} (href : 0 < (κ'.icache i).ref) : κ'.icache i = κ.icache i := by
    rcases hsame.entry i with heq | ⟨_, hzero, _⟩
    · exact heq
    · omega
  have hdir : κ'.dir d = κ.dir d := by
    unfold Kern.dir
    rw [hd, hsame.disk]
  refine ⟨by rw [hsame.disk]; exact h.owned, ⟨?_, ?_⟩, h.lt,
    by rw [hd]; exact h.ref, by rw [hd]; exact h.valid, by rw [hd]; exact h.locked, ?_,
    by rw [hd, hsame.disk]; exact h.inum, by rw [hd]; exact h.type, by rw [hd]; exact h.fits,
    by rw [hd, hsame.disk]; exact h.holeFree, by rw [hd]; exact h.rows,
    by rw [hdir]; exact h.unique⟩
  · intro i hi href hvalid
    have heq := hpos href
    rw [heq] at href hvalid ⊢
    exact h.cached.valid i hi href hvalid
  · intro i hi j hj hrefi hrefj hinum
    have heqi := hpos hrefi
    have heqj := hpos hrefj
    rw [heqi] at hrefi hinum
    rw [heqj] at hrefj hinum
    exact h.cached.once i hi j hj hrefi hrefj hinum
  · intro i hzero
    rcases hsame.entry i with heq | ⟨hfree, _, hlocked⟩
    · rw [heq] at hzero ⊢
      exact h.free i hzero
    · rw [hlocked]
      exact h.free i hfree

theorem same_dir (h : OpenDir κ ino d) (hsame : κ.Same κ') : κ'.dir d = κ.dir d := by
  unfold Kern.dir
  rcases hsame.entry d with heq | ⟨hzero, _⟩
  · rw [heq, hsame.disk]
  · have hpos := h.ref
    omega

/-- A name that is bound to an inode that is locked: the process waits for its own lock. -/
theorem dirlink_locked (h : OpenDir κ ino d) (devsw : Devsw) (inum : Nat) {i : Nat}
    (hi : i < NINODE) (href : 0 < (κ.icache i).ref) (hlocked : (κ.icache i).locked = true)
    (hfind : Slots.find (κ.dir d) (nameKey name) = some ((κ.icache i).inum, j)) :
    dirlink devsw κ d name inum = .error .asleep := by
  have hget := iget_spec κ (κ.icache i).inum
  cases heq : iget κ (κ.icache i).inum with
  | error e => exact absurd ⟨i, hi, .inr rfl⟩ (hget.errs e heq).2
  | ok r =>
    obtain ⟨i', κ1⟩ := r
    obtain ⟨hi', hgot, _⟩ := hget.sound _ heq
    dsimp only at hi' hgot
    obtain rfl : i' = i := by
      cases hgot with
      | cached href' hinum => exact h.cached.once i' hi' i hi href' href hinum
      | free _ hnone => exact absurd rfl (hnone i hi href)
    have hasleep : iput κ1 i' = .error .asleep := by
      unfold iput
      dsimp only
      rw [if_pos (hgot.locked.trans hlocked)]
    unfold dirlink
    rw [h.listed.dirlookup_some devsw hfind, heq, ok_bind, ok_bind]
    dsimp only
    rw [hasleep]
    rfl

/-- What a name is bound to is looked up and put back by `dirlink`, unless it is locked. -/
theorem dirlink_bound (h : OpenDir κ ino d) (devsw : Devsw) (inum : Nat)
    (hfind : Slots.find (κ.dir d) (nameKey name) = some (b, j)) :
    Yields (fun _ => ¬ (κ.Unlocked b ∧ κ.CanGet b))
      (fun r => (κ.Unlocked b ∧ κ.CanGet b) ∧ r.1 = -1 ∧ κ.Same r.2)
      (dirlink devsw κ d name inum) := by
  by_cases hunlocked : κ.Unlocked b
  · have hget := iget_spec κ b
    unfold dirlink
    rw [h.listed.dirlookup_some devsw hfind]
    cases heq : iget κ b with
    | error e =>
      apply yields_error
      exact fun hcan => (hget.errs e heq).2 hcan.2
    | ok r =>
      obtain ⟨i, κ1⟩ := r
      obtain ⟨hi, hgot, hcan⟩ := hget.sound _ heq
      dsimp only at hi hgot
      have hlocked : (κ.icache i).locked = false := by
        cases hgot with
        | cached href hinum => exact hunlocked i hi href hinum
        | free href => exact h.free i href
      obtain ⟨κ2, hput, hsame⟩ := hgot.iput hlocked
      rw [ok_bind, ok_bind]
      dsimp only
      rw [hput]
      exact yields_ok ⟨⟨hunlocked, hcan⟩, rfl, hsame⟩
  · have hlocked := hunlocked
    unfold Kern.Unlocked at hlocked
    push Not at hlocked
    obtain ⟨i, hi, href, rfl, hlocked⟩ := hlocked
    rw [h.dirlink_locked devsw inum hi href (Bool.eq_true_of_not_eq_false hlocked) hfind]
    apply yields_error
    exact fun hcan => hunlocked hcan.1

end OpenDir

/-- A write has made `l` of the directory in entry `d`, and changed nothing else. -/
structure Changed (κ : Kern) (ino : Nat → Dinode) (d : Nat)
    (l : List (Option (List UInt8 × Nat))) (κ' : Kern) (ino' : Nat → Dinode) : Prop where
  opened : OpenDir κ' ino' d
  dir : κ'.dir d = l
  inum : (κ'.icache d).inum = (κ.icache d).inum
  entries : ∀ i, i ≠ d → κ'.icache i = κ.icache i
  inodes : ∀ n, n ≠ (κ.icache d).inum → ino' n = ino n
  others : ∀ n, n ≠ (κ.icache d).inum → κ.disk.HoleFree (ino n) →
    κ'.disk.HoleFree (ino n) ∧ κ'.disk.contents (ino n) = κ.disk.contents (ino n)

namespace OpenDir

variable {κ κ' : Kern} {ino : Nat → Dinode} {d : Nat} {devsw : Devsw}

theorem write (h : OpenDir κ ino d) {src : List UInt8} {r : Int × Dinode × Disk}
    (hj : j ≤ (κ.dir d).length) (hsrc : src.length = DIRENTSIZE)
    (hdone : WriteiDone κ.disk ino (κ.icache d).inum (DIRENTSIZE * j) src r)
    {l : List (Option (List UInt8 × Nat))}
    (hl : l = if j < (κ.dir d).length then (κ.dir d).set j (slotOf (Dirent.read src))
      else κ.dir d ++ [slotOf (Dirent.read src)])
    (hunique : Slots.Unique l) :
    Changed κ ino d l (κ.setInode d r.2.1 r.2.2)
      (update ino (κ.icache d).inum r.2.1) := by
  have hself : (κ.setInode d r.2.1 r.2.2).icache d = { κ.icache d with ip := r.2.1 } :=
    update_self _ _ _
  have hother {i : Nat} (hi : i ≠ d) : (κ.setInode d r.2.1 r.2.2).icache i = κ.icache i :=
    update_of_ne hi _ _
  have hdir : (κ.setInode d r.2.1 r.2.2).dir d = l := by
    unfold Kern.dir
    rw [hself]
    change slots (r.2.2.contents r.2.1) = l
    rw [hdone.contents, ← h.ip_eq, slots_write h.contents_length_eq hsrc hj, hl]
    rfl
  have hlength : r.2.1.size = DIRENTSIZE * max (κ.dir d).length (j + 1) := by
    have hwrite := write_length h.contents_length_eq hsrc hj
    rw [h.ip_eq, ← hdone.contents, contents_length] at hwrite
    exact hwrite
  have hinum {i : Nat} (hi : i < NINODE) (hd : i ≠ d) (href : 0 < (κ.icache i).ref) :
      (κ.icache i).inum ≠ (κ.icache d).inum :=
    fun heq => hd (h.cached.once i hi d h.lt href h.ref heq)
  refine ⟨⟨hdone.owned, ⟨?_, ?_⟩, h.lt, ?_, ?_, ?_, ?_, ?_, ?_, ?_, ?_,
    ?_, ?_⟩, hdir, ?_, fun i hi => hother hi, fun n hn => update_of_ne hn _ _, ?_⟩
  · intro i hi href hvalid
    by_cases hd : i = d
    · rw [hd, hself]
      exact (update_self (κ.icache d).inum r.2.1 ino).symm
    · rw [hother hd] at href hvalid ⊢
      rw [update_of_ne (hinum hi hd href)]
      exact h.cached.valid i hi href hvalid
  · intro i hi i' hi' href href' heq
    by_cases hd : i = d
    · by_cases hd' : i' = d
      · rw [hd, hd']
      · rw [hd, hself, hother hd'] at heq
        rw [hother hd'] at href'
        exact absurd heq.symm (hinum hi' hd' href')
    · by_cases hd' : i' = d
      · rw [hother hd, hd', hself] at heq
        rw [hother hd] at href
        exact absurd heq (hinum hi hd href)
      · rw [hother hd] at href heq
        rw [hother hd'] at href' heq
        exact h.cached.once i hi i' hi' href href' heq
  · rw [hself]
    exact h.ref
  · rw [hself]
    exact h.valid
  · rw [hself]
    exact h.locked
  · intro i hzero
    by_cases hd : i = d
    · rw [hd, hself] at hzero
      exact absurd hzero (Nat.ne_of_gt h.ref)
    · rw [hother hd] at hzero ⊢
      exact h.free i hzero
  · rw [hself]
    change (κ.icache d).inum < r.2.2.sb.ninodes
    rw [hdone.sb]
    exact h.inum
  · rw [hself]
    change r.2.1.type = T_DIR
    rw [hdone.fields, ← h.ip_eq]
    exact h.type
  · rw [hself]
    exact hdone.fits
  · rw [hself]
    exact hdone.holeFree
  · rw [hself]
    change DIRENTSIZE ∣ r.2.1.size
    rw [hlength]
    exact Nat.dvd_mul_right _ _
  · rw [hdir]
    exact hunique
  · rw [hself]
  · intro n hn hfree
    exact hdone.others n hn hfree

end OpenDir

/-- There is a free entry, or the directory can grow, with the blocks for that. -/
def Kern.Room (κ : Kern) (d : Nat) : Prop :=
  DIRENTSIZE * Slots.hole (κ.dir d) + DIRENTSIZE ≤ MAXFILE * BSIZE ∧
    missing κ.disk (κ.icache d).ip (needed (DIRENTSIZE * Slots.hole (κ.dir d)) DIRENTSIZE) ≤
      κ.disk.nfree

namespace OpenDir

variable {κ κ' : Kern} {ino : Nat → Dinode} {d : Nat} {devsw : Devsw}

theorem not_dev (h : OpenDir κ ino d) : (ino (κ.icache d).inum).type ≠ T_DEV := by
  rw [← h.ip_eq, h.type]
  decide

theorem dirlink_write (h : OpenDir κ ino d) (devsw : Devsw) (inum : Nat)
    (hfind : Slots.find (κ.dir d) (nameKey name) = none) :
    dirlink devsw κ d name inum = Fs.onDisk (writei devsw κ.disk (κ.icache d).inum (κ.icache d).ip
        (DIRENTSIZE * Slots.hole (κ.dir d)) (direntBytes inum name)) >>= fun r =>
          if r.1 ≠ DIRENTSIZE then .error .dirlink else .ok (0, κ.setInode d r.2.1 r.2.2) := by
  have hloop := dirlinkLoop_eq devsw h.type h.holeFree h.size_eq (Nat.zero_le _)
  rw [Nat.mul_zero, List.drop_zero] at hloop
  change _ = Except.ok (DIRENTSIZE * Slots.hole (κ.dir d), _, _) at hloop
  unfold dirlink
  rw [h.listed.dirlookup_none devsw hfind, ok_bind]
  dsimp only
  rw [hloop, ok_bind]

theorem dirlink_full (h : OpenDir κ ino d) (devsw : Devsw) (inum : Nat)
    (hfind : Slots.find (κ.dir d) (nameKey name) = none)
    (hfull : ¬ DIRENTSIZE * Slots.hole (κ.dir d) + DIRENTSIZE ≤ MAXFILE * BSIZE) :
    dirlink devsw κ d name inum = .error .dirlink := by
  have htype : (κ.icache d).ip.type ≠ T_DEV := by
    rw [h.type]
    decide
  have hout : ¬ (DIRENTSIZE * Slots.hole (κ.dir d) ≤ (κ.icache d).ip.size ∧
      DIRENTSIZE * Slots.hole (κ.dir d) + (direntBytes inum name).length ≤ MAXFILE * BSIZE) := by
    rw [direntBytes_length]
    exact fun hin => hfull hin.2
  rw [h.dirlink_write devsw inum hfind, writei_refused devsw htype hout, Fs.onDisk, ok_bind]
  have hshort : (-1 : Int) ≠ (DIRENTSIZE : Nat) := by decide
  exact if_pos hshort

theorem dirlink_free (h : OpenDir κ ino d) (devsw : Devsw) {inum : Nat}
    (hne : inum ≠ 0) (hlt : inum < 65536)
    (hfind : Slots.find (κ.dir d) (nameKey name) = none) :
    Yields (fun _ => ¬ κ.Room d)
      (fun r => κ.Room d ∧ r.1 = 0 ∧ ∃ ino', Changed κ ino d
        (Slots.put (κ.dir d) (Slots.hole (κ.dir d)) (nameKey name, inum)) r.2 ino')
      (dirlink devsw κ d name inum) := by
  by_cases hfits : DIRENTSIZE * Slots.hole (κ.dir d) + DIRENTSIZE ≤ MAXFILE * BSIZE
  · have hlength := direntBytes_length inum name
    have hhole := Slots.hole_le (κ.dir d)
    have hoff : DIRENTSIZE * Slots.hole (κ.dir d) ≤ (ino (κ.icache d).inum).size := by
      rw [← h.ip_eq, h.size_eq]
      exact Nat.mul_le_mul_left _ hhole
    have hfits' : DIRENTSIZE * Slots.hole (κ.dir d) + (direntBytes inum name).length ≤
        MAXFILE * BSIZE := by rw [hlength]; exact hfits
    have hspec := writei_spec devsw h.owned h.inum h.not_dev (h.ip_eq ▸ h.fits)
      (h.ip_eq ▸ h.holeFree) hoff hfits'
    have hspace := writei_space devsw h.owned h.not_dev hoff hfits'
    rw [← h.ip_eq, hlength] at hspace
    rw [← h.ip_eq] at hspec
    rw [h.dirlink_write devsw inum hfind]
    cases hwrite : writei devsw κ.disk (κ.icache d).inum (κ.icache d).ip
        (DIRENTSIZE * Slots.hole (κ.dir d)) (direntBytes inum name) with
    | error e =>
      rw [Fs.onDisk]
      apply yields_error
      intro hroom
      obtain ⟨r, hr⟩ := hspace hroom.2
      rw [hwrite] at hr
      cases hr
    | ok r =>
      have hdone := hspec.sound r hwrite
      have hmissing := writei_missing devsw h.owned h.not_dev hoff hfits'
        (by rw [← h.ip_eq]; exact hwrite)
      rw [← h.ip_eq, hlength] at hmissing
      have hn : r.1 = (DIRENTSIZE : Nat) := by
        rw [← hlength]
        exact hdone.result
      rw [Fs.onDisk, ok_bind, if_neg (not_not_intro hn)]
      apply yields_ok
      refine ⟨⟨hfits, hmissing⟩, rfl, _, h.write hhole hlength hdone ?_
        (Slots.unique_put h.unique hfind inum)⟩
      rw [slotOf_direntBytes hne hlt]
      rfl
  · rw [h.dirlink_full devsw inum hfind hfits]
    apply yields_error
    exact fun hroom => hfits hroom.1

theorem unlinkEntry_ok (h : OpenDir κ ino d) (devsw : Devsw) (hj : j < (κ.dir d).length) :
    ∃ κ', unlinkEntry devsw κ d (DIRENTSIZE * j) = .ok κ' ∧
      ∃ ino', Changed κ ino d (Slots.erase (κ.dir d) j) κ' ino' := by
  have hlength : (List.replicate DIRENTSIZE (0 : UInt8)).length = DIRENTSIZE :=
    List.length_replicate
  have hfit : DIRENTSIZE * j + DIRENTSIZE ≤ (κ.icache d).ip.size := by
    rw [h.size_eq]
    exact Nat.mul_le_mul_left DIRENTSIZE hj
  have hsize := h.holeFree.size
  have hoff : DIRENTSIZE * j ≤ (ino (κ.icache d).inum).size := by
    rw [← h.ip_eq]
    omega
  have hfits : DIRENTSIZE * j + (List.replicate DIRENTSIZE (0 : UInt8)).length ≤
      MAXFILE * BSIZE := by
    rw [hlength]
    omega
  have hspec := writei_spec devsw h.owned h.inum h.not_dev (h.ip_eq ▸ h.fits)
    (h.ip_eq ▸ h.holeFree) hoff hfits
  have hmissing : missing κ.disk (ino (κ.icache d).inum)
      (needed (DIRENTSIZE * j) (List.replicate DIRENTSIZE (0 : UInt8)).length) ≤ κ.disk.nfree := by
    rw [← h.ip_eq, hlength, missing_present h.holeFree fun m _ hm =>
      Nat.lt_of_le_of_lt (Nat.div_mul_le_self m BSIZE) (Nat.lt_of_lt_of_le hm hfit)]
    exact Nat.zero_le _
  obtain ⟨r, hr⟩ := writei_space devsw h.owned h.not_dev hoff hfits hmissing
  have hdone := hspec.sound r hr
  rw [← h.ip_eq] at hr
  obtain ⟨n, ip, k⟩ := r
  have hn : n = (DIRENTSIZE : Nat) := hdone.result.trans (by rw [hlength])
  refine ⟨κ.setInode d ip k, ?_, _, h.write (Nat.le_of_lt hj) hlength hdone ?_
    (Slots.unique_erase h.unique j)⟩
  · unfold unlinkEntry
    rw [hr, Fs.onDisk, ok_bind]
    dsimp only
    rw [if_neg (not_not_intro hn)]
  · rw [if_pos hj, slotOf_zero]
    rfl

end OpenDir

end Xv6.Fs

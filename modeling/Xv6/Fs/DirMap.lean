import Xv6.Fs.Linking

/-!
Runs of operations on one directory: it stays a finite map, and every operation is the one
of the map, as long as `dirlink` is not called with a name of the directory itself and there
is room for what the operations take.
-/

namespace Xv6.Fs

open Lib Slots Kern

/-- An operation on the locked directory: `dirlink`; `dirlookup`, with the reference given
back; and the erasure of the entry that `dirlookup` finds. -/
inductive DirOp where
  | link (name : List UInt8) (inum : Nat)
  | lookup (name : List UInt8)
  | erase (name : List UInt8)

/-- What an operation returns: the result of `dirlink`, or the inode number and the offset
of the entry. -/
inductive DirResult where
  | linked (r : Int)
  | found (entry : Option (Nat × Nat))
deriving DecidableEq

/-- `dirlookup`. The caller unlocks the directory to give the reference back. -/
def lookupEntry (devsw : Devsw) (κ : Kern) (d : Nat) (name : List UInt8) :
    Except Fault (Option (Nat × Nat) × Kern) := do
  let (found, κ) ← dirlookup devsw κ d name
  match found with
  | none => .ok (none, κ)
  | some (i, off) => do
      let inum := (κ.icache i).inum
      let κ ← iunlock κ d
      let κ ← iput κ i
      let κ ← ilock κ d
      .ok (some (inum, off), κ)

def DirOp.run (devsw : Devsw) (κ : Kern) (d : Nat) : DirOp → Except Fault (DirResult × Kern)
  | .link name inum => do
      let (r, κ) ← dirlink devsw κ d name inum
      .ok (.linked r, κ)
  | .lookup name => do
      let (found, κ) ← lookupEntry devsw κ d name
      .ok (.found found, κ)
  | .erase name => do
      let (found, κ) ← lookupEntry devsw κ d name
      match found with
      | none => .ok (.found none, κ)
      | some (inum, off) => do
          let κ ← unlinkEntry devsw κ d off
          .ok (.found (some (inum, off)), κ)

/-- The inode numbers that an entry can hold. -/
def DirOp.Valid : DirOp → Prop
  | .link _ inum => inum ≠ 0 ∧ inum < 65536
  | _ => True

/-- The operation is that of the map from names to inode numbers. A name that is there is
not linked; a name that is not there gets the inode number, in an entry that was free if
there is one; what is found is the inode number and the offset of the entry. -/
def DirOp.AsMap (κ : Kern) (d : Nat) (r : DirResult) (κ' : Kern) : DirOp → Prop
  | .link name inum =>
    match Slots.binding (κ.dir d) (nameKey name) with
    | some _ => r = .linked (-1) ∧ κ.Same κ'
    | none => r = .linked 0 ∧ Slots.binding (κ'.dir d) =
          Function.update (Slots.binding (κ.dir d)) (nameKey name) (some inum) ∧
        (none ∈ κ.dir d → (κ'.icache d).ip.size = (κ.icache d).ip.size)
  | .lookup name => κ.Same κ' ∧ match Slots.binding (κ.dir d) (nameKey name) with
      | none => r = .found none
      | some b => ∃ j, r = .found (some (b, DIRENTSIZE * j)) ∧
          (κ.dir d)[j]? = some (some (nameKey name, b))
  | .erase name =>
    (κ'.icache d).ip.size = (κ.icache d).ip.size ∧ Slots.binding (κ'.dir d) =
      Function.update (Slots.binding (κ.dir d)) (nameKey name) none

def DirOp.Possible (κ : Kern) (d : Nat) : DirOp → Prop
  | .link name _ => κ.CanLink d (nameKey name)
  | .lookup name => ∀ b, Slots.binding (κ.dir d) (nameKey name) = some b → κ.CanGet b
  | .erase name => ∀ b, Slots.binding (κ.dir d) (nameKey name) = some b → κ.CanGet b

/-- Every operation of the run is that of the map, and the directory consists of entries. -/
def Behaves (devsw : Devsw) (d : Nat) : Kern → List DirOp → Prop
  | _, [] => True
  | κ, op :: ops => ∃ r κ', op.run devsw κ d = .ok (r, κ') ∧ op.AsMap κ d r κ' ∧
      DIRENTSIZE ∣ (κ'.icache d).ip.size ∧ Behaves devsw d κ' ops

/-- The conditions of the operations hold, each when its turn comes. -/
def Permitted (devsw : Devsw) (d : Nat) : Kern → List DirOp → Prop
  | _, [] => True
  | κ, op :: ops => op.Possible κ d ∧
      ∀ r κ', op.run devsw κ d = .ok (r, κ') → Permitted devsw d κ' ops

/-- Entry `d` of the cache is a directory, and the only inode that the process has locked. -/
structure Opened (κ : Kern) (ino : Nat → Dinode) (d : Nat) : Prop extends OpenDir κ ino d where
  unlocked : ∀ i, i ≠ d → (κ.icache i).locked = false

namespace Opened

variable {κ κ' : Kern} {ino ino' : Nat → Dinode} {d : Nat}

theorem keep (h : Opened κ ino d) (hsame : κ.Same κ') : Opened κ' ino d := by
  refine ⟨h.same hsame, fun i hi => ?_⟩
  rcases hsame.entry i with heq | ⟨_, _, hlocked⟩
  · rw [heq]
    exact h.unlocked i hi
  · rw [hlocked]
    exact h.unlocked i hi

theorem change (h : Opened κ ino d) {l : List (Option (List UInt8 × Nat))}
    (hchanged : Changed κ ino d l κ' ino') : Opened κ' ino' d :=
  ⟨hchanged.opened, fun i hi => (congrArg Entry.locked (hchanged.entries i hi)).trans
    (h.unlocked i hi)⟩

theorem giveBack (h : Opened κ ino d) {b i : Nat} (hgot : Got κ b i κ') :
    ∃ κ1 κ2 κ3, iunlock κ' d = .ok κ1 ∧ iput κ1 i = .ok κ2 ∧ ilock κ2 d = .ok κ3 ∧ κ.Same κ3 := by
  have hd : (κ'.icache d).locked = true ∧ 0 < (κ'.icache d).ref ∧ (κ'.icache d).valid = true := by
    by_cases hid : i = d
    · subst hid
      refine ⟨hgot.locked.trans h.locked, hgot.ref_pos, ?_⟩
      cases hgot with
      | cached => simpa [Kern.setEntry] using h.valid
      | free href =>
        have hpos := h.ref
        omega
    · rw [hgot.other (Ne.symm hid)]
      exact ⟨h.locked, h.ref, h.valid⟩
  have hunlock := iunlock_held hd.1 hd.2.1
  obtain ⟨κ1, hκ1⟩ : ∃ κ1, κ1 = κ'.setEntry d { κ'.icache d with locked := false } := ⟨_, rfl⟩
  -- the entry that `iput` sees differs in the lock only
  have hentry : κ1.icache i = { κ'.icache i with locked := false } := by
    by_cases hid : i = d
    · rw [hκ1, hid, setEntry_self]
    · rw [hκ1, setEntry_other _ _ hid, ← hgot.locked.trans (h.unlocked i hid)]
  have hput := iput_drop (κ := κ1) (i := i) (by rw [hentry]) (by rw [hentry]; exact hgot.kept)
  rw [hentry] at hput
  obtain ⟨κ2, hκ2⟩ : ∃ κ2, κ2 = κ1.setEntry i
      { κ'.icache i with locked := false, ref := (κ'.icache i).ref - 1 } := ⟨_, rfl⟩
  have hdir : κ2.icache d = { κ.icache d with locked := false } := by
    by_cases hid : d = i
    · subst hid
      rw [hκ2, setEntry_self]
      rcases hgot.drop with heq | ⟨hzero, _⟩
      · rw [← heq]
      · have hpos := h.ref
        omega
    · rw [hκ2, setEntry_other _ _ hid, hκ1, setEntry_self, hgot.other hid]
  have hlock := ilock_valid (κ := κ2) (i := d) (by rw [hdir]) (by rw [hdir]; exact h.ref)
    (by rw [hdir]; exact h.valid)
  refine ⟨κ1, κ2, _, by rw [hunlock, hκ1], by rw [hput, hκ2], hlock, ?_, fun j => ?_⟩
  · rw [setEntry_disk, hκ2, setEntry_disk, hκ1, setEntry_disk, hgot.disk]
  · by_cases hjd : j = d
    · left
      rw [hjd, setEntry_self, hdir, ← h.locked]
    · rw [setEntry_other _ _ hjd]
      by_cases hji : j = i
      · rw [hji, hκ2, setEntry_self]
        have hlocked := hgot.locked.trans (h.unlocked i (hji ▸ hjd))
        rcases hgot.drop with heq | ⟨hzero, hzero'⟩
        · left
          rw [← heq, ← hlocked]
        · exact .inr ⟨hzero, hzero', (h.unlocked i (hji ▸ hjd)).symm⟩
      · left
        rw [hκ2, setEntry_other _ _ hji, hκ1, setEntry_other _ _ hjd, hgot.other hji]

theorem lookupEntry_none (h : Opened κ ino d) (devsw : Devsw) {name : List UInt8}
    (hfind : Slots.find (κ.dir d) (nameKey name) = none) :
    lookupEntry devsw κ d name = .ok (none, κ) := by
  unfold lookupEntry
  rw [h.listed.dirlookup_none devsw hfind, ok_bind]

theorem lookupEntry_some (h : Opened κ ino d) (devsw : Devsw) {name : List UInt8} {b j : Nat}
    (hfind : Slots.find (κ.dir d) (nameKey name) = some (b, j)) :
    Yields (fun _ => ¬ κ.CanGet b)
      (fun r => κ.CanGet b ∧ r.1 = some (b, DIRENTSIZE * j) ∧ κ.Same r.2)
      (lookupEntry devsw κ d name) := by
  have hlookup := h.listed.dirlookup_some devsw hfind
  have hget := iget_spec κ b
  unfold lookupEntry
  cases hi : iget κ b with
  | error e =>
    rw [hlookup, hi]
    apply yields_error
    exact (hget.errs e hi).2
  | ok r =>
    obtain ⟨i, κ'⟩ := r
    obtain ⟨_, hgot, hcan⟩ := hget.sound _ hi
    dsimp only at hgot
    obtain ⟨κ1, κ2, κ3, hunlock, hput, hlock, hsame⟩ := h.giveBack hgot
    rw [hlookup, hi, ok_bind, ok_bind]
    dsimp only
    rw [hunlock, ok_bind, hput, ok_bind, hlock, ok_bind, hgot.inum_eq]
    exact yields_ok ⟨hcan, rfl, hsame⟩

end Opened

namespace DirOp

variable {κ : Kern} {ino : Nat → Dinode} {d : Nat}

def Spec (κ : Kern) (d : Nat) (op : DirOp) (x : Except Fault (DirResult × Kern)) : Prop :=
  Yields (fun _ => ¬ op.Possible κ d)
    (fun r => op.Possible κ d ∧ op.AsMap κ d r.1 r.2 ∧ ∃ ino', Opened r.2 ino' d) x

theorem link_spec (h : Opened κ ino d) (devsw : Devsw) (name : List UInt8) {inum : Nat}
    (hinum : inum ≠ 0 ∧ inum < 65536) :
    (link name inum).Spec κ d ((link name inum).run devsw κ d) := by
  have hrun : (link name inum).run devsw κ d =
      dirlink devsw κ d name inum >>= fun r => .ok (.linked r.1, r.2) := rfl
  unfold Spec
  rw [hrun]
  cases hfind : Slots.find (κ.dir d) (nameKey name) with
  | some found =>
    obtain ⟨b, j⟩ := found
    have hpossible : (link name inum).Possible κ d ↔ (κ.Unlocked b ∧ κ.CanGet b) := by
      change κ.CanLink d (nameKey name) ↔ _
      unfold Kern.CanLink
      rw [hfind]
    rw [hpossible]
    refine (h.dirlink_bound devsw inum hfind).bind ?_
    rintro ⟨r, κ'⟩ ⟨hcan, hminus, hsame⟩
    refine yields_ok ⟨hcan, ?_, ino, h.keep hsame⟩
    unfold AsMap Slots.binding
    dsimp only
    rw [hfind]
    exact ⟨congrArg _ hminus, hsame⟩
  | none =>
    have hpossible : (link name inum).Possible κ d ↔ κ.Room d := by
      change κ.CanLink d (nameKey name) ↔ _
      unfold Kern.CanLink
      rw [hfind]
    rw [hpossible]
    refine (h.dirlink_free devsw hinum.1 hinum.2 hfind).bind ?_
    rintro ⟨r, κ'⟩ ⟨hroom, hzero, ino', hchanged⟩
    refine yields_ok ⟨hroom, ?_, ino', h.change hchanged⟩
    unfold AsMap
    dsimp only
    rw [binding_eq_none.mpr hfind]
    refine ⟨congrArg _ hzero, ?_, fun hfree => ?_⟩
    · rw [hchanged.dir]
      exact binding_put h.unique hfind inum
    · rw [hchanged.opened.size_eq, hchanged.dir, h.size_eq]
      unfold Slots.put
      rw [if_pos (hole_lt_iff.mpr hfree), List.length_set]

theorem binding_of_find {l : List (Option (List UInt8 × Nat))} {key : List UInt8} {b j : Nat}
    (hfind : Slots.find l key = some (b, j)) : Slots.binding l key = some b := by
  unfold Slots.binding
  rw [hfind]
  rfl

theorem lookup_spec (h : Opened κ ino d) (devsw : Devsw) (name : List UInt8) :
    (lookup name).Spec κ d ((lookup name).run devsw κ d) := by
  have hrun : (lookup name).run devsw κ d =
      lookupEntry devsw κ d name >>= fun r => .ok (.found r.1, r.2) := rfl
  unfold Spec
  rw [hrun]
  cases hfind : Slots.find (κ.dir d) (nameKey name) with
  | none =>
    have hnone := binding_eq_none.mpr hfind
    rw [h.lookupEntry_none devsw hfind, ok_bind]
    refine yields_ok ⟨fun b hb => ?_, ⟨⟨rfl, fun _ => .inl rfl⟩, ?_⟩, ino, h⟩
    · rw [hnone] at hb
      cases hb
    · rw [hnone]
  | some found =>
    obtain ⟨b, j⟩ := found
    have hbinding := binding_of_find hfind
    have hpossible : (lookup name).Possible κ d ↔ κ.CanGet b := by
      change (∀ b', Slots.binding (κ.dir d) (nameKey name) = some b' → κ.CanGet b') ↔ _
      rw [hbinding]
      simp
    rw [hpossible]
    refine (h.lookupEntry_some devsw hfind).bind ?_
    rintro ⟨found, κ'⟩ ⟨hcan, hfound, hsame⟩
    refine yields_ok ⟨hcan, ⟨hsame, ?_⟩, ino, h.keep hsame⟩
    rw [hbinding]
    exact ⟨j, congrArg _ hfound, Slots.find_some hfind⟩

theorem erase_spec (h : Opened κ ino d) (devsw : Devsw) (name : List UInt8) :
    (erase name).Spec κ d ((erase name).run devsw κ d) := by
  unfold Spec DirOp.run
  dsimp only
  cases hfind : Slots.find (κ.dir d) (nameKey name) with
  | none =>
    have hnone := binding_eq_none.mpr hfind
    rw [h.lookupEntry_none devsw hfind, ok_bind]
    refine yields_ok ⟨fun b hb => ?_, ⟨rfl, ?_⟩, ino, h⟩
    · rw [hnone] at hb
      cases hb
    · rw [← hnone, Function.update_eq_self]
  | some found =>
    obtain ⟨b, j⟩ := found
    have hbinding := binding_of_find hfind
    have hget := Slots.find_some hfind
    have hpossible : (erase name).Possible κ d ↔ κ.CanGet b := by
      change (∀ b', Slots.binding (κ.dir d) (nameKey name) = some b' → κ.CanGet b') ↔ _
      rw [hbinding]
      simp
    rw [hpossible]
    refine (h.lookupEntry_some devsw hfind).bind ?_
    rintro ⟨found, κ'⟩ ⟨hcan, hfound, hsame⟩
    dsimp only at hfound hsame ⊢
    have hdir := h.same_dir hsame
    have hj : j < (κ'.dir d).length := by
      rw [hdir]
      exact (List.getElem?_eq_some_iff.mp hget).1
    obtain ⟨κ'', hunlink, ino', hchanged⟩ := (h.keep hsame).unlinkEntry_ok devsw hj
    rw [hfound]
    dsimp only
    rw [hunlink, ok_bind]
    refine yields_ok ⟨hcan, ⟨?_, ?_⟩, ino', (h.keep hsame).change hchanged⟩
    · rw [hchanged.opened.size_eq, hchanged.dir, hdir, h.size_eq]
      exact congrArg _ List.length_set
    · rw [hchanged.dir, hdir]
      exact binding_erase h.unique hget

theorem run_spec (h : Opened κ ino d) (devsw : Devsw) (op : DirOp) (hop : op.Valid) :
    op.Spec κ d (op.run devsw κ d) := by
  cases op with
  | link name inum => exact link_spec h devsw name hop
  | lookup name => exact lookup_spec h devsw name
  | erase name => exact erase_spec h devsw name

end DirOp

/-- In every run of operations on a directory each is the operation of a finite map exactly
where the conditions hold: a name that is linked is not bound to the directory itself, the
inode cache has an entry for what is looked up, and there is room for a new entry. -/
theorem directory_map_iff {κ : Kern} {ino : Nat → Dinode} {d : Nat} (h : Opened κ ino d)
    (devsw : Devsw) (ops : List DirOp) (hops : ∀ op ∈ ops, op.Valid) :
    Behaves devsw d κ ops ↔ Permitted devsw d κ ops := by
  induction ops generalizing κ ino with
  | nil => exact Iff.rfl
  | cons op ops ih =>
    have hspec := DirOp.run_spec h devsw op (hops op List.mem_cons_self)
    have hrest := fun op' hop' => hops op' (List.mem_cons_of_mem op hop')
    constructor
    · rintro ⟨r, κ', hrun, _, _, hbehaves⟩
      obtain ⟨hpossible, _, ino', hopened⟩ := hspec.sound _ hrun
      refine ⟨hpossible, fun r' κ'' hrun' => ?_⟩
      rw [hrun] at hrun'
      cases hrun'
      exact (ih hopened hrest).mp hbehaves
    · rintro ⟨hpossible, hpermitted⟩
      cases hrun : op.run devsw κ d with
      | error e => exact absurd hpossible (hspec.errs e hrun)
      | ok r =>
        obtain ⟨_, hmap, ino', hopened⟩ := hspec.sound r hrun
        exact ⟨r.1, r.2, hrun, hmap, hopened.rows, (ih hopened hrest).mpr (hpermitted r.1 r.2 hrun)⟩

namespace Sample

variable {m inum : Nat}

theorem only (hm : DIRENTSIZE * m ≤ MAXFILE * BSIZE) (hne : inum ≠ 0) (hlt : inum < 65536) :
    Opened (kern m inum false) (inodes m) 0 := by
  refine ⟨opened hm hne hlt, fun i hi => ?_⟩
  by_cases hone : i = 1
  · rw [hone]
    rfl
  · exact congrArg Entry.locked ((if_neg hi).trans (if_neg hone))

end Sample

/-- A name is linked and looked up in a directory with one entry. -/
theorem directory_map_second : Behaves ⟨fun _ => none, fun _ => none⟩ 0
    (Sample.kern 1 1 false) [.link [97] 2, .lookup [97]] := by
  have hm : DIRENTSIZE * 1 ≤ MAXFILE * BSIZE := by decide
  have hopened := Sample.only hm (show 1 ≠ 0 by decide) (by decide)
  have hfind : Slots.find ((Sample.kern 1 1 false).dir 0) (nameKey [97]) = none :=
    Sample.find_letter hm (by decide) (by decide)
  refine (directory_map_iff hopened _ _ fun op hop => ?_).mpr ⟨?_, fun r κ' hrun => ?_⟩
  · rcases List.mem_pair.mp hop with rfl | rfl
    · exact ⟨by decide, by decide⟩
    · trivial
  · change (Sample.kern 1 1 false).CanLink 0 (nameKey [97])
    unfold Kern.CanLink
    rw [hfind]
    exact Sample.room
  · -- the third entry of the cache is still free
    refine ⟨fun b _ => ⟨2, by decide, .inl ?_⟩, fun _ _ _ => trivial⟩
    obtain ⟨r', hlink, heq⟩ := bind_eq_ok.mp hrun
    obtain ⟨-, -, ino', hchanged⟩ := (hopened.dirlink_free ⟨fun _ => none, fun _ => none⟩
      (show 2 ≠ 0 by decide) (by decide) hfind).sound r' hlink
    cases heq
    rw [hchanged.entries 2 (by decide)]
    rfl

/-- The only entry of a directory is for the directory itself: linking its name again does
not return. -/
theorem directory_map_self : Opened (Sample.kern 1 1 false) (Sample.inodes 1) 0 ∧
    Slots.binding ((Sample.kern 1 1 false).dir 0) (nameKey [1, 1]) = some 1 ∧
    (DirOp.link [1, 1] 2).run ⟨fun _ => none, fun _ => none⟩ (Sample.kern 1 1 false) 0 =
      .error .asleep := by
  have hm : DIRENTSIZE * 1 ≤ MAXFILE * BSIZE := by decide
  have hopened := Sample.only hm (show 1 ≠ 0 by decide) (by decide)
  have hfind : Slots.find ((Sample.kern 1 1 false).dir 0) (nameKey [1, 1]) = some (1, 0) := by
    rw [Sample.slots_eq hm (by decide) (by decide)]
    decide
  refine ⟨hopened, ?_, ?_⟩
  · unfold Slots.binding
    rw [hfind]
    rfl
  · unfold DirOp.run
    dsimp only
    rw [hopened.dirlink_locked _ 2 (by decide) hopened.ref hopened.locked hfind]
    rfl

end Xv6.Fs

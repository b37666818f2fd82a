import Xv6.Fs.ReadWrite

/-!
The inode cache of `fs.c`, as one process sees it: an entry is locked when the process has
locked it, so that it waits for ever when it locks it again. There is one device.
-/

namespace Xv6.Fs

open Lib Function

def NINODE : Nat := 50

/-- The ways in which an operation on inodes can end without a result. -/
inductive Fault where
  | disk (p : Panic)
  /-- "iget: no inodes" -/
  | iget
  /-- "ilock" -/
  | ilock
  /-- "ilock: no type" -/
  | noType
  /-- "iunlock" -/
  | iunlock
  /-- "dirlookup not DIR" -/
  | dirlookup
  /-- "dirlookup read" -/
  | dirlookupRead
  /-- "dirlink read" -/
  | dirlinkRead
  /-- "dirlink" -/
  | dirlink
  /-- "unlink: writei" -/
  | unlink
  /-- in `acquiresleep`, for a lock that the process holds -/
  | asleep
deriving DecidableEq

def onDisk {α : Type} : Except Panic α → Except Fault α
  | .ok a => .ok a
  | .error p => .error (.disk p)

/-- `struct inode`; `ip` are the fields that are copied from the disk. -/
structure Entry where
  inum : Nat
  ref : Nat
  valid : Bool
  locked : Bool
  ip : Dinode

structure Kern where
  disk : Disk
  icache : Nat → Entry

namespace Kern

def setEntry (κ : Kern) (i : Nat) (e : Entry) : Kern :=
  { κ with icache := update κ.icache i e }

/-- The fields of an inode and the disk after a function that changes them. -/
def setInode (κ : Kern) (i : Nat) (ip : Dinode) (k : Disk) : Kern :=
  { disk := k, icache := update κ.icache i { κ.icache i with ip := ip } }

end Kern

def iget (κ : Kern) (inum : Nat) : Except Fault (Nat × Kern) :=
  match (List.range NINODE).find? fun i => 0 < (κ.icache i).ref ∧ (κ.icache i).inum = inum with
  | some i => .ok (i, κ.setEntry i { κ.icache i with ref := (κ.icache i).ref + 1 })
  | none =>
    match (List.range NINODE).find? fun i => (κ.icache i).ref = 0 with
    | none => .error .iget
    | some i =>
      .ok (i, κ.setEntry i { κ.icache i with inum := inum, ref := 1, valid := false })

def idup (κ : Kern) (i : Nat) : Kern :=
  κ.setEntry i { κ.icache i with ref := (κ.icache i).ref + 1 }

def ilock (κ : Kern) (i : Nat) : Except Fault Kern :=
  let e := κ.icache i
  if e.ref < 1 then .error .ilock
  else if e.locked then .error .asleep
  else if e.valid then .ok (κ.setEntry i { e with locked := true })
  else
    let dip := Dinode.read (κ.disk.block (IBLOCK e.inum κ.disk.sb)) (Dinode.slot e.inum)
    if dip.type = 0 then .error .noType
    else .ok (κ.setEntry i { e with locked := true, valid := true, ip := dip })

def iunlock (κ : Kern) (i : Nat) : Except Fault Kern :=
  let e := κ.icache i
  if ¬ e.locked ∨ e.ref < 1 then .error .iunlock
  else .ok (κ.setEntry i { e with locked := false })

def iput (κ : Kern) (i : Nat) : Except Fault Kern :=
  let e := κ.icache i
  if e.locked then .error .asleep
  else if e.valid ∧ e.ip.nlink = 0 ∧ e.ref = 1 then do
    let (ip, k) ← onDisk (itrunc κ.disk e.inum e.ip)
    let ip := { ip with type := 0 }
    let κ := { κ with disk := iupdate k e.inum ip }
    .ok (κ.setEntry i { e with ip := ip, valid := false, ref := e.ref - 1 })
  else .ok (κ.setEntry i { e with ref := e.ref - 1 })

def iunlockput (κ : Kern) (i : Nat) : Except Fault Kern := do
  let κ ← iunlock κ i
  iput κ i

namespace Kern

@[simp] theorem setEntry_self (κ : Kern) (i : Nat) (e : Entry) :
    (κ.setEntry i e).icache i = e := by
  unfold setEntry
  exact update_self i e κ.icache

theorem setEntry_other (κ : Kern) {i j : Nat} (e : Entry) (hj : j ≠ i) :
    (κ.setEntry i e).icache j = κ.icache j := by
  unfold setEntry
  exact update_of_ne hj e κ.icache

@[simp] theorem setEntry_disk (κ : Kern) (i : Nat) (e : Entry) :
    (κ.setEntry i e).disk = κ.disk := rfl

def CanGet (κ : Kern) (inum : Nat) : Prop :=
  ∃ i < NINODE, (κ.icache i).ref = 0 ∨ (κ.icache i).inum = inum

/-- The entries in use, and the disk, are the same. -/
structure Same (κ κ' : Kern) : Prop where
  disk : κ'.disk = κ.disk
  entry : ∀ i, κ'.icache i = κ.icache i ∨
    ((κ.icache i).ref = 0 ∧ (κ'.icache i).ref = 0 ∧ (κ'.icache i).locked = (κ.icache i).locked)

/-- The cache is a copy of the inodes: each has at most one entry. -/
structure Cached (κ : Kern) (ino : Nat → Dinode) : Prop where
  valid : ∀ i < NINODE, 0 < (κ.icache i).ref → (κ.icache i).valid = true →
    (κ.icache i).ip = ino (κ.icache i).inum
  once : ∀ i < NINODE, ∀ j < NINODE, 0 < (κ.icache i).ref → 0 < (κ.icache j).ref →
    (κ.icache i).inum = (κ.icache j).inum → i = j

end Kern

section

variable {κ κ' : Kern} {inum i : Nat}

/-- What `iget` gives: an entry that has the inode, or a free one. -/
inductive Got (κ : Kern) (inum i : Nat) : Kern → Prop where
  | cached (href : 0 < (κ.icache i).ref) (hinum : (κ.icache i).inum = inum) :
      Got κ inum i (κ.setEntry i { κ.icache i with ref := (κ.icache i).ref + 1 })
  | free (href : (κ.icache i).ref = 0)
      (hnone : ∀ j < NINODE, 0 < (κ.icache j).ref → (κ.icache j).inum ≠ inum) :
      Got κ inum i (κ.setEntry i { κ.icache i with inum := inum, ref := 1, valid := false })

theorem iget_spec (κ : Kern) (inum : Nat) : Yields (fun e => e = .iget ∧ ¬ κ.CanGet inum)
      (fun r => r.1 < NINODE ∧ Got κ inum r.1 r.2 ∧ κ.CanGet inum) (iget κ inum) := by
  unfold iget
  split
  · next i hfind =>
    have hi := List.mem_range.mp (List.mem_of_find?_eq_some hfind)
    have hcached : 0 < (κ.icache i).ref ∧ (κ.icache i).inum = inum := by
      simpa using List.find?_some hfind
    apply yields_ok
    exact ⟨hi, Got.cached hcached.1 hcached.2, i, hi, .inr hcached.2⟩
  · next hnone =>
    have hnot (j : Nat) (hj : j < NINODE) (href : 0 < (κ.icache j).ref) :
        (κ.icache j).inum ≠ inum := by
      intro hinum
      have hmiss := List.find?_eq_none.mp hnone j (List.mem_range.mpr hj)
      exact hmiss (decide_eq_true ⟨href, hinum⟩)
    split
    · next hfull =>
      apply yields_error
      refine ⟨rfl, ?_⟩
      rintro ⟨j, hj, hfree⟩
      have hused : (κ.icache j).ref ≠ 0 := by
        intro hzero
        exact List.find?_eq_none.mp hfull j (List.mem_range.mpr hj) (decide_eq_true hzero)
      rcases hfree with hzero | hinum
      · exact hused hzero
      · exact hnot j hj (Nat.pos_of_ne_zero hused) hinum
    · next i hfind =>
      have hi := List.mem_range.mp (List.mem_of_find?_eq_some hfind)
      have hfree : (κ.icache i).ref = 0 := by simpa using List.find?_some hfind
      apply yields_ok
      exact ⟨hi, Got.free hfree hnot, i, hi, .inl hfree⟩

theorem Got.disk (h : Got κ inum i κ') : κ'.disk = κ.disk := by
  cases h <;> rfl

theorem Got.other (h : Got κ inum i κ') {j : Nat} (hj : j ≠ i) : κ'.icache j = κ.icache j := by
  cases h <;> exact update_of_ne hj _ _

theorem Got.inum_eq (h : Got κ inum i κ') : (κ'.icache i).inum = inum := by
  cases h with
  | cached href hinum =>
    rw [← hinum]
    simp [Kern.setEntry]
  | free => simp [Kern.setEntry]

theorem Got.ref_pos (h : Got κ inum i κ') : 0 < (κ'.icache i).ref := by
  cases h <;> simp [Kern.setEntry]

theorem Got.locked (h : Got κ inum i κ') : (κ'.icache i).locked = (κ.icache i).locked := by
  cases h <;> simp [Kern.setEntry]

theorem Got.kept (h : Got κ inum i κ') : ¬ ((κ'.icache i).valid = true ∧
    (κ'.icache i).ip.nlink = 0 ∧ (κ'.icache i).ref = 1) := by
  cases h with
  | cached href =>
    simp only [Kern.setEntry, update_self]
    omega
  | free => simp [Kern.setEntry]

theorem iput_drop (hlocked : (κ.icache i).locked = false)
    (hkept : ¬ ((κ.icache i).valid = true ∧ (κ.icache i).ip.nlink = 0 ∧ (κ.icache i).ref = 1)) :
    iput κ i = .ok (κ.setEntry i { κ.icache i with ref := (κ.icache i).ref - 1 }) := by
  unfold iput
  dsimp only
  rw [if_neg (by rw [hlocked]; decide), if_neg hkept]

theorem iunlock_held (hlocked : (κ.icache i).locked = true) (href : 0 < (κ.icache i).ref) :
    iunlock κ i = .ok (κ.setEntry i { κ.icache i with locked := false }) := by
  unfold iunlock
  dsimp only
  rw [if_neg]
  rintro (hnot | hzero)
  · exact hnot hlocked
  · omega

theorem ilock_valid (hlocked : (κ.icache i).locked = false) (href : 0 < (κ.icache i).ref)
    (hvalid : (κ.icache i).valid = true) :
    ilock κ i = .ok (κ.setEntry i { κ.icache i with locked := true }) := by
  unfold ilock
  dsimp only
  rw [if_neg (by omega), if_neg (by rw [hlocked]; decide), if_pos hvalid]

theorem Got.drop (h : Got κ inum i κ') :
    { κ'.icache i with ref := (κ'.icache i).ref - 1 } = κ.icache i ∨
      ((κ.icache i).ref = 0 ∧ (κ'.icache i).ref - 1 = 0) := by
  cases h with
  | cached href => exact .inl (by simp [Kern.setEntry])
  | free href => exact .inr ⟨href, by simp [Kern.setEntry]⟩

theorem Got.iput (h : Got κ inum i κ') (hlocked : (κ.icache i).locked = false) :
    ∃ κ'', iput κ' i = .ok κ'' ∧ κ.Same κ'' := by
  refine ⟨_, iput_drop (h.locked.trans hlocked) h.kept, h.disk, fun j => ?_⟩
  by_cases hj : j = i
  · subst hj
    rw [Kern.setEntry_self]
    rcases h.drop with heq | ⟨hzero, hzero'⟩
    · exact .inl heq
    · exact .inr ⟨hzero, hzero', h.locked⟩
  · left
    rw [Kern.setEntry_other _ _ hj, h.other hj]

end

end Xv6.Fs

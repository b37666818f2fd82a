import Xv6.Fs.Path

/-!
`namex` on a directory tree. While it goes from one directory to the next the inode cache
has one reference more than before the call, and two while it is in a directory.
-/

namespace Xv6.Fs

open Lib List Kern

/-- An inode that stays: it is allocated, and has links or is in use. -/
structure Live (κ : Kern) (ino : Nat → Dinode) (x : Nat) : Prop where
  lt : x < κ.disk.sb.ninodes
  type : (ino x).type ≠ 0
  held : (ino x).nlink ≠ 0 ∨ ∃ j < NINODE, 0 < (κ.icache j).ref ∧ (κ.icache j).inum = x

/-- The entries of inode `x` as a directory. -/
def entriesIn (κ : Kern) (ino : Nat → Dinode) (x : Nat) : List (Option (List UInt8 × Nat)) :=
  slots (κ.disk.contents (ino x))

/-- A directory tree, as it is when the process has no inode locked. -/
structure Tree (κ : Kern) (ino : Nat → Dinode) : Prop where
  onDisk : κ.disk.OnDisk ino
  cached : κ.Cached ino
  unlocked : ∀ j, (κ.icache j).locked = false
  inums : ∀ j < NINODE, 0 < (κ.icache j).ref → Live κ ino (κ.icache j).inum
  dirs : ∀ x, (ino x).type = T_DIR → κ.disk.HoleFree (ino x) ∧ DIRENTSIZE ∣ (ino x).size
  entries : ∀ x, (ino x).type = T_DIR → ∀ c b,
    Slots.binding (entriesIn κ ino x) c = some b → Live κ ino b
  root : Live κ ino ROOTINO

/-- `κ` is `κ0` with more references, one for every number in `extra`; `lock` is the entry
that is locked. -/
structure Walk (κ0 : Kern) (ino : Nat → Dinode) (extra : List Nat) (lock : Option Nat)
    (κ : Kern) : Prop where
  disk : κ.disk = κ0.disk
  cached : κ.Cached ino
  locked : ∀ j, (κ.icache j).locked = decide (lock = some j)
  refs : ∀ j, (κ.icache j).ref = (κ0.icache j).ref + extra.count j
  kept : ∀ j, 0 < (κ0.icache j).ref → (κ.icache j).inum = (κ0.icache j).inum
  lt : ∀ j ∈ extra, j < NINODE

namespace Walk

variable {κ0 κ κ' : Kern} {ino : Nat → Dinode} {extra : List Nat} {lock : Option Nat} {i x : Nat}

theorem start (hcached : κ0.Cached ino) (hunlocked : ∀ j, (κ0.icache j).locked = false) :
    Walk κ0 ino [] none κ0 :=
  ⟨rfl, hcached, hunlocked, fun _ => rfl, fun _ _ => rfl, fun _ hj => nomatch hj⟩

theorem ref_pos (h : Walk κ0 ino extra lock κ) (hi : i ∈ extra) : 0 < (κ.icache i).ref := by
  have hcount := count_pos_iff.mpr hi
  rw [h.refs]
  omega

theorem got (h : Walk κ0 ino extra lock κ) (hi : i < NINODE) (hgot : Got κ x i κ') :
    Walk κ0 ino (i :: extra) lock κ' ∧
      ∀ j, 0 < (κ.icache j).ref → (κ'.icache j).inum = (κ.icache j).inum := by
  have hinum (j : Nat) (href : 0 < (κ.icache j).ref) :
      (κ'.icache j).inum = (κ.icache j).inum := by
    by_cases hj : j = i
    · subst hj
      cases hgot with
      | cached => rw [setEntry_self]
      | free hzero => omega
    · rw [hgot.other hj]
  refine ⟨⟨hgot.disk.trans h.disk, ⟨?_, ?_⟩, ?_, ?_, ?_, ?_⟩, hinum⟩
  · intro j hj href hvalid
    by_cases hji : j = i
    · subst hji
      cases hgot with
      | cached hpos hx =>
        rw [setEntry_self] at hvalid ⊢
        exact h.cached.valid j hj hpos hvalid
      | free =>
        rw [setEntry_self] at hvalid
        cases hvalid
    · rw [hgot.other hji] at href hvalid ⊢
      exact h.cached.valid j hj href hvalid
  · -- no other entry has the inode
    have hother (l : Nat) (hl : l < NINODE) (hli : l ≠ i) (href : 0 < (κ.icache l).ref) :
        (κ.icache l).inum ≠ (κ'.icache i).inum := by
      intro heq
      cases hgot with
      | cached hpos =>
        rw [setEntry_self] at heq
        exact hli (h.cached.once l hl i hi href hpos heq)
      | free _ hnone =>
        rw [setEntry_self] at heq
        exact hnone l hl href heq
    intro j hj l hl hrefj hrefl heq
    by_cases hji : j = i
    · by_cases hli : l = i
      · rw [hji, hli]
      · rw [hgot.other hli] at hrefl heq
        rw [hji] at heq
        exact absurd heq.symm (hother l hl hli hrefl)
    · rw [hgot.other hji] at hrefj heq
      by_cases hli : l = i
      · rw [hli] at heq
        exact absurd heq (hother j hj hji hrefj)
      · rw [hgot.other hli] at hrefl heq
        exact h.cached.once j hj l hl hrefj hrefl heq
  · intro j
    rw [← h.locked j]
    by_cases hj : j = i
    · rw [hj, hgot.locked]
    · rw [hgot.other hj]
  · intro j
    have hold := h.refs j
    by_cases hj : j = i
    · subst hj
      rw [count_cons_self]
      cases hgot with
      | cached =>
        rw [setEntry_self]
        dsimp only
        omega
      | free hzero =>
        rw [setEntry_self]
        dsimp only
        omega
    · rw [hgot.other hj, count_cons_of_ne (Ne.symm hj)]
      exact hold
  · intro j href
    have hold := h.refs j
    rw [hinum j (by omega)]
    exact h.kept j href
  · intro j hj
    rcases mem_cons.mp hj with rfl | hj
    · exact hi
    · exact h.lt j hj

theorem touch (h : Walk κ0 ino extra lock κ) (lock' : Option Nat) {e : Entry}
    (hinum : e.inum = (κ.icache i).inum)
    (href : e.ref = (κ.icache i).ref) (hvalid : e.valid = true → e.ip = ino e.inum)
    (hself : e.locked = decide (lock' = some i))
    (hother : ∀ j, j ≠ i → decide (lock = some j) = decide (lock' = some j)) :
    Walk κ0 ino extra lock' (κ.setEntry i e) ∧
      ∀ j, ((κ.setEntry i e).icache j).inum = (κ.icache j).inum := by
  have hinums (j : Nat) : ((κ.setEntry i e).icache j).inum = (κ.icache j).inum := by
    by_cases hj : j = i
    · rw [hj, setEntry_self, hinum]
    · rw [setEntry_other _ _ hj]
  have hrefs (j : Nat) : ((κ.setEntry i e).icache j).ref = (κ.icache j).ref := by
    by_cases hj : j = i
    · rw [hj, setEntry_self, href]
    · rw [setEntry_other _ _ hj]
  refine ⟨⟨h.disk, ⟨?_, ?_⟩, ?_, ?_, ?_, h.lt⟩, hinums⟩
  · intro j hj hpos hval
    by_cases hji : j = i
    · rw [hji, setEntry_self] at hval ⊢
      exact hvalid hval
    · rw [hrefs] at hpos
      rw [setEntry_other _ _ hji] at hval ⊢
      exact h.cached.valid j hj hpos hval
  · intro j hj l hl hrefj hrefl heq
    rw [hrefs] at hrefj hrefl
    rw [hinums, hinums] at heq
    exact h.cached.once j hj l hl hrefj hrefl heq
  · intro j
    by_cases hj : j = i
    · rw [hj, setEntry_self, hself]
    · rw [setEntry_other _ _ hj, h.locked, hother j hj]
  · intro j
    rw [hrefs, h.refs]
  · intro j hpos
    rw [hinums, h.kept j hpos]

theorem drop (h : Walk κ0 ino (i :: extra) lock κ) : Walk κ0 ino extra lock
        (κ.setEntry i { κ.icache i with ref := (κ.icache i).ref - 1 }) ∧
      ∀ j, ((κ.setEntry i { κ.icache i with ref := (κ.icache i).ref - 1 }).icache j).inum =
        (κ.icache j).inum := by
  have hinums (j : Nat) :
      ((κ.setEntry i { κ.icache i with ref := (κ.icache i).ref - 1 }).icache j).inum =
        (κ.icache j).inum := by
    by_cases hj : j = i
    · rw [hj, setEntry_self]
    · rw [setEntry_other _ _ hj]
  have hpos {j : Nat} (href : 0 <
      ((κ.setEntry i { κ.icache i with ref := (κ.icache i).ref - 1 }).icache j).ref) :
      0 < (κ.icache j).ref := by
    by_cases hj : j = i
    · rw [hj, setEntry_self] at href
      dsimp only at href
      rw [hj]
      omega
    · rwa [setEntry_other _ _ hj] at href
  refine ⟨⟨h.disk, ⟨?_, ?_⟩, ?_, ?_, ?_, fun j hj => h.lt j (mem_cons_of_mem i hj)⟩, hinums⟩
  · intro j hj href hval
    have hold := h.cached.valid j hj (hpos href)
    by_cases hji : j = i
    · rw [hji, setEntry_self] at hval ⊢
      rw [hji] at hold
      exact hold hval
    · rw [setEntry_other _ _ hji] at hval ⊢
      exact hold hval
  · intro j hj l hl hrefj hrefl heq
    rw [hinums, hinums] at heq
    exact h.cached.once j hj l hl (hpos hrefj) (hpos hrefl) heq
  · intro j
    rw [← h.locked j]
    by_cases hj : j = i
    · rw [hj, setEntry_self]
    · rw [setEntry_other _ _ hj]
  · intro j
    have hold := h.refs j
    by_cases hj : j = i
    · rw [hj] at hold ⊢
      rw [count_cons_self] at hold
      rw [setEntry_self]
      dsimp only
      omega
    · rw [count_cons_of_ne (Ne.symm hj)] at hold
      rw [setEntry_other _ _ hj]
      exact hold
  · intro j href
    rw [hinums, h.kept j href]

theorem ilock (hdisk : κ0.disk.OnDisk ino) (h : Walk κ0 ino extra none κ) (hi : i ∈ extra)
    (hlt : (κ.icache i).inum < κ0.disk.sb.ninodes) (htype : (ino (κ.icache i).inum).type ≠ 0) :
    ∃ κ', ilock κ i = .ok κ' ∧ Walk κ0 ino extra (some i) κ' ∧
      (κ'.icache i).ip = ino (κ.icache i).inum ∧
      ∀ j, (κ'.icache j).inum = (κ.icache j).inum := by
  have href := h.ref_pos hi
  have hunlocked : (κ.icache i).locked = false := h.locked i
  have hothers : ∀ j, j ≠ i → decide (none = some j) = decide (some i = some j) := by
    intro j hj
    simp [Ne.symm hj]
  by_cases hvalid : (κ.icache i).valid = true
  · have hip := h.cached.valid i (h.lt i hi) href hvalid
    obtain ⟨hwalk, hinums⟩ := h.touch (i := i) (some i)
      (e := { κ.icache i with locked := true }) rfl rfl (fun _ => hip) (by simp) hothers
    exact ⟨_, ilock_valid hunlocked href hvalid, hwalk, by rw [setEntry_self]; exact hip,
      hinums⟩
  · have hread : Dinode.read (κ.disk.block (IBLOCK (κ.icache i).inum κ.disk.sb))
        (Dinode.slot (κ.icache i).inum) = ino (κ.icache i).inum := by
      rw [h.disk]
      exact hdisk _ hlt
    obtain ⟨hwalk, hinums⟩ := h.touch (i := i) (some i)
      (e := { κ.icache i with locked := true, valid := true, ip := ino (κ.icache i).inum })
      rfl rfl (fun _ => rfl) (by simp) hothers
    refine ⟨_, ?_, hwalk, by rw [setEntry_self], hinums⟩
    unfold Fs.ilock
    dsimp only
    rw [if_neg (by omega), if_neg (by rw [hunlocked]; decide), if_neg hvalid, hread, if_neg htype]

theorem iunlock (h : Walk κ0 ino extra (some i) κ) (hi : i ∈ extra) :
    ∃ κ', iunlock κ i = .ok κ' ∧ Walk κ0 ino extra none κ' ∧
      ∀ j, (κ'.icache j).inum = (κ.icache j).inum := by
  have href := h.ref_pos hi
  have hlocked : (κ.icache i).locked = true := by
    rw [h.locked]
    simp
  have hvalid : (κ.icache i).valid = true → (κ.icache i).ip = ino (κ.icache i).inum :=
    h.cached.valid i (h.lt i hi) href
  obtain ⟨hwalk, hinums⟩ := h.touch (i := i) none
    (e := { κ.icache i with locked := false }) rfl rfl hvalid (by simp) (by
      intro j hj
      simp [Ne.symm hj])
  exact ⟨_, iunlock_held hlocked href, hwalk, hinums⟩

theorem iput (h : Walk κ0 ino (i :: extra) none κ) (hlive : Live κ0 ino (κ.icache i).inum) :
    ∃ κ', iput κ i = .ok κ' ∧ Walk κ0 ino extra none κ' ∧
      ∀ j, (κ'.icache j).inum = (κ.icache j).inum := by
  have hmem : i ∈ i :: extra := mem_cons_self
  have href := h.ref_pos hmem
  have hlt := h.lt i hmem
  have hkept : ¬ ((κ.icache i).valid = true ∧ (κ.icache i).ip.nlink = 0 ∧
      (κ.icache i).ref = 1) := by
    rintro ⟨hvalid, hnlink, hone⟩
    rw [h.cached.valid i hlt href hvalid] at hnlink
    rcases hlive.held with hlinks | ⟨j, hj, hpos, hinum⟩
    · exact hlinks hnlink
    · -- the other reference is in the same entry
      have hrefs := h.refs j
      have hkept := h.kept j hpos
      have hij := h.cached.once i hlt j hj href (by omega) (by rw [hkept, hinum])
      subst hij
      rw [count_cons_self] at hrefs
      omega
  obtain ⟨hwalk, hinums⟩ := h.drop
  exact ⟨_, iput_drop (h.locked i) hkept, hwalk, hinums⟩

theorem iunlockput (h : Walk κ0 ino (i :: extra) (some i) κ)
    (hlive : Live κ0 ino (κ.icache i).inum) :
    ∃ κ', iunlockput κ i = .ok κ' ∧ Walk κ0 ino extra none κ' ∧
      ∀ j, (κ'.icache j).inum = (κ.icache j).inum := by
  obtain ⟨κ1, hunlock, hwalk, hinums⟩ := h.iunlock mem_cons_self
  obtain ⟨κ2, hput, hwalk', hinums'⟩ := hwalk.iput (by rw [hinums]; exact hlive)
  refine ⟨κ2, ?_, hwalk', fun j => (hinums' j).trans (hinums j)⟩
  unfold Fs.iunlockput
  rw [hunlock, ok_bind, hput]

theorem perm (h : Walk κ0 ino extra lock κ) {extra' : List Nat} (hperm : extra.Perm extra') :
    Walk κ0 ino extra' lock κ :=
  ⟨h.disk, h.cached, h.locked, fun j => by rw [← hperm.count_eq]; exact h.refs j, h.kept,
    fun j hj => h.lt j (hperm.mem_iff.mpr hj)⟩

end Walk

section

variable {κ0 κ : Kern} {ino : Nat → Dinode}

/-- Two entries of the inode cache are free. -/
def Kern.TwoFree (κ : Kern) : Prop :=
  ∃ a < NINODE, ∃ b < NINODE, a ≠ b ∧ (κ.icache a).ref = 0 ∧ (κ.icache b).ref = 0

/-- One of them is still free when one more entry is in use. -/
theorem Walk.canGet {i : Nat} {lock : Option Nat} (h : Walk κ0 ino [i] lock κ)
    (hfree : κ0.TwoFree) (x : Nat) : κ.CanGet x := by
  obtain ⟨a, ha, b, hb, hne, hzero, hzero'⟩ := hfree
  by_cases hai : a = i
  · refine ⟨b, hb, .inl ?_⟩
    have hbi : i ≠ b := fun heq => hne (hai.trans heq)
    rw [h.refs, hzero', count_cons_of_ne hbi]
    rfl
  · refine ⟨a, ha, .inl ?_⟩
    rw [h.refs, hzero, count_cons_of_ne (Ne.symm hai)]
    rfl

def lookupIn (κ : Kern) (ino : Nat → Dinode) (x : Nat) (c : List UInt8) : Option Nat :=
  if (ino x).type = T_DIR then Slots.binding (entriesIn κ ino x) (nameKey c) else none

/-- Where the loop of `namex` gets from inode `x`. -/
def target (κ : Kern) (ino : Nat → Dinode) (parent : Bool) :
    Nat → List (List UInt8) → Option (Nat × Option (List UInt8))
  | x, [] => if parent then none else some (x, none)
  | x, c :: cs =>
    if (ino x).type ≠ T_DIR then none
    else if parent ∧ cs = [] then some (x, some c)
    else (lookupIn κ ino x c).bind fun y => target κ ino parent y cs

/-- The result of `namex`: an inode with a reference to it, and its name in the parent. -/
def Reached (κ0 : Kern) (ino : Nat → Dinode) (goal : Option (Nat × Option (List UInt8)))
    (r : Option (Nat × List UInt8) × Kern) : Prop :=
  match goal with
  | none => r.1 = none ∧ Walk κ0 ino [] none r.2
  | some (y, c) => ∃ j name, r.1 = some (j, name) ∧ (∀ c', c = some c' → name = c') ∧
      Walk κ0 ino [j] none r.2 ∧ (r.2.icache j).inum = y

theorem namexLoop_spec (ht : Tree κ0 ino) (devsw : Devsw) (parent : Bool) {i : Nat}
    (h : Walk κ0 ino [i] none κ) (hlive : Live κ0 ino (κ.icache i).inum)
    (name path : List UInt8) :
    Yields (fun e => e = .iget ∧ ¬ κ0.TwoFree)
      (Reached κ0 ino (target κ0 ino parent (κ.icache i).inum (components path)))
      (namexLoop devsw parent κ i name path) := by
  induction hlen : path.length using Nat.strong_induction_on generalizing κ i name path with
  | _ n ih =>
  rw [namexLoop]
  split
  · next hskip =>
    rw [skipelem_none hskip, target]
    cases parent with
    | true =>
      obtain ⟨κ', hput, hwalk, _⟩ := h.iput hlive
      rw [if_pos rfl, if_pos rfl, hput]
      exact yields_ok ⟨rfl, hwalk⟩
    | false =>
      rw [if_neg (by decide), if_neg (by decide)]
      refine yields_ok ⟨i, name, rfl, fun c hc => ?_, h, rfl⟩
      cases hc
  · next name' rest hskip =>
    obtain ⟨hcomponents, hlast⟩ := skipelem_some hskip
    have hi : i ∈ [i] := mem_singleton_self i
    obtain ⟨κ1, hlock, hwalk, hip, hinums⟩ := h.ilock ht.onDisk hi hlive.lt hlive.type
    have hlive' : Live κ0 ino (κ1.icache i).inum := by rw [hinums]; exact hlive
    rw [hcomponents, target, hlock, ok_bind, hip]
    by_cases htype : (ino (κ.icache i).inum).type = T_DIR
    · rw [if_neg (not_not_intro htype), if_neg (not_not_intro htype)]
      by_cases hend : parent = true ∧ components rest = []
      · obtain ⟨κ2, hunlock, hwalk', hinums'⟩ := hwalk.iunlock hi
        rw [if_pos hend, if_pos ⟨hend.1, hlast.mpr hend.2⟩, hunlock]
        refine yields_ok ⟨i, name', rfl, ?_, hwalk', ?_⟩
        · rintro c' hc
          exact Option.some.inj hc
        · rw [hinums', hinums]
      · rw [if_neg hend, if_neg fun hend' => hend ⟨hend'.1, hlast.mp hend'.2⟩]
        have hdirs := ht.dirs _ htype
        have hlisted : Listed κ1 i := by
          refine ⟨?_, ?_, ?_⟩
          · rw [hip]
            exact htype
          · rw [hip, hwalk.disk]
            exact hdirs.1
          · rw [hip]
            exact hdirs.2
        have hdir : κ1.dir i = entriesIn κ0 ino (κ.icache i).inum := by
          unfold Kern.dir entriesIn
          rw [hip, hwalk.disk]
        have hlookup : lookupIn κ0 ino (κ.icache i).inum name' =
            Slots.binding (κ1.dir i) (nameKey name') := by
          unfold lookupIn
          rw [if_pos htype, hdir]
        cases hfind : Slots.find (κ1.dir i) (nameKey name') with
        | none =>
          obtain ⟨κ2, hput, hwalk', _⟩ := hwalk.iunlockput hlive'
          rw [hlookup, Slots.binding_eq_none.mpr hfind, hlisted.dirlookup_none devsw hfind, ok_bind]
          dsimp only
          rw [hput]
          exact yields_ok ⟨rfl, hwalk'⟩
        | some found =>
          obtain ⟨b, j⟩ := found
          have hbinding : Slots.binding (κ1.dir i) (nameKey name') = some b := by
            unfold Slots.binding
            rw [hfind]
            rfl
          have hnext : Live κ0 ino b := by
            rw [hdir] at hbinding
            exact ht.entries _ htype _ b hbinding
          have hget := iget_spec κ1 b
          rw [hlookup, hbinding, hlisted.dirlookup_some devsw hfind]
          cases hi' : iget κ1 b with
          | error e =>
            obtain ⟨he, hcannot⟩ := hget.errs e hi'
            apply yields_error
            exact ⟨he, fun hfree => hcannot (hwalk.canGet hfree b)⟩
          | ok r =>
            obtain ⟨next, κ2⟩ := r
            obtain ⟨hlt, hgot, _⟩ := hget.sound _ hi'
            dsimp only at hlt hgot
            obtain ⟨hwalk2, hinums2⟩ := hwalk.got hlt hgot
            have hx : (κ2.icache i).inum = (κ.icache i).inum := by
              rw [hinums2 i (hwalk.ref_pos hi), hinums]
            obtain ⟨κ3, hput, hwalk3, hinums3⟩ :=
              (hwalk2.perm (List.Perm.swap i next [])).iunlockput (by rw [hx]; exact hlive)
            have hb : (κ3.icache next).inum = b := by rw [hinums3, hgot.inum_eq]
            rw [ok_bind, ok_bind]
            dsimp only
            rw [hput, ok_bind]
            have hrest := ih rest.length (hlen ▸ skipelem_lt hskip) hwalk3
              (by rw [hb]; exact hnext) name' rest rfl
            rw [hb] at hrest
            exact hrest
    · obtain ⟨κ2, hput, hwalk', _⟩ := hwalk.iunlockput hlive'
      rw [if_pos htype, if_pos htype, hput]
      exact yields_ok ⟨rfl, hwalk'⟩

/-- The left fold of the lookups over the components of a path. -/
def resolve (κ : Kern) (ino : Nat → Dinode) (x : Nat) (cs : List (List UInt8)) : Option Nat :=
  cs.foldlM (lookupIn κ ino) x

/-- The directory of the last component, and the component. -/
def resolveParent (κ : Kern) (ino : Nat → Dinode) (x : Nat) (cs : List (List UInt8)) :
    Option (Nat × List UInt8) := do
  let c ← cs.getLast?
  let y ← resolve κ ino x cs.dropLast
  if (ino y).type = T_DIR then some (y, c) else none

theorem target_false (κ : Kern) (ino : Nat → Dinode) (x : Nat) (cs : List (List UInt8)) :
    target κ ino false x cs = (resolve κ ino x cs).map fun y => (y, none) := by
  induction cs generalizing x with
  | nil => rfl
  | cons c cs ih =>
    unfold resolve at ih ⊢
    rw [target, foldlM_cons]
    by_cases htype : (ino x).type = T_DIR
    · rw [if_neg (not_not_intro htype), if_neg (by simp)]
      cases lookupIn κ ino x c with
      | none => rfl
      | some y => exact ih y
    · have hnone : lookupIn κ ino x c = none := if_neg htype
      rw [if_pos htype, hnone]
      rfl

theorem target_true (κ : Kern) (ino : Nat → Dinode) (x : Nat) (cs : List (List UInt8)) :
    target κ ino true x cs = (resolveParent κ ino x cs).map fun r => (r.1, some r.2) := by
  induction cs generalizing x with
  | nil => rfl
  | cons c cs ih =>
    rw [target]
    by_cases htype : (ino x).type = T_DIR
    · rw [if_neg (not_not_intro htype)]
      cases cs with
      | nil =>
        rw [if_pos ⟨rfl, rfl⟩]
        change _ = Option.map _ (if (ino x).type = T_DIR then some (x, c) else none)
        rw [if_pos htype]
        rfl
      | cons c' cs =>
        rw [if_neg (by simp)]
        unfold resolveParent resolve at ih ⊢
        rw [List.getLast?_cons_cons, dropLast_cons_cons, foldlM_cons]
        cases lookupIn κ ino x c with
        | none =>
          cases (c' :: cs).getLast? <;> rfl
        | some y => exact ih y
    · have hnone : lookupIn κ ino x c = none := if_neg htype
      rw [if_pos htype]
      unfold resolveParent resolve
      cases cs with
      | nil =>
        change _ = Option.map _ (if (ino x).type = T_DIR then some (x, c) else none)
        rw [if_neg htype]
        rfl
      | cons c' cs =>
        rw [List.getLast?_cons_cons, dropLast_cons_cons, foldlM_cons, hnone]
        cases (c' :: cs).getLast? <;> rfl

def startOf (κ : Kern) (cwd : Nat) (path : List UInt8) : Nat :=
  if path.head? = some slash then ROOTINO else (κ.icache cwd).inum

theorem namex_spec (ht : Tree κ0 ino) (devsw : Devsw) {cwd : Nat} (hcwd : cwd < NINODE)
    (href : 0 < (κ0.icache cwd).ref) (path : List UInt8) (parent : Bool) :
    Yields (fun e => e = .iget ∧ ¬ κ0.TwoFree)
      (Reached κ0 ino (target κ0 ino parent (startOf κ0 cwd path) (components path)))
      (namex devsw κ0 cwd path parent) := by
  have hstart := Walk.start ht.cached ht.unlocked
  unfold namex startOf
  split
  · have hget := iget_spec κ0 ROOTINO
    cases hi : iget κ0 ROOTINO with
    | error e =>
      obtain ⟨he, hcannot⟩ := hget.errs e hi
      apply yields_error
      refine ⟨he, fun ⟨a, ha, _, _, _, hzero, _⟩ => hcannot ⟨a, ha, .inl hzero⟩⟩
    | ok r =>
      obtain ⟨i, κ⟩ := r
      obtain ⟨hlt, hgot, _⟩ := hget.sound _ hi
      dsimp only at hlt hgot
      have hloop := namexLoop_spec ht devsw parent (hstart.got hlt hgot).1
        (by rw [hgot.inum_eq]; exact ht.root) [] path
      rw [hgot.inum_eq] at hloop
      rw [ok_bind]
      exact hloop
  · have hgot : Got κ0 (κ0.icache cwd).inum cwd (idup κ0 cwd) := Got.cached href rfl
    have hloop := namexLoop_spec ht devsw parent (hstart.got hcwd hgot).1
      (by rw [hgot.inum_eq]; exact ht.inums cwd hcwd href) [] path
    rw [hgot.inum_eq] at hloop
    exact hloop

/-- On every directory tree `namei` is the left fold of the lookups of the components, and
`nameiparent` the fold over all but the last one with that component; the inode that is
found has one reference more, and no other changes. The one failure is the panic of `iget`,
which needs an inode cache with less than two free entries. -/
theorem namei_folds (ht : Tree κ0 ino) (devsw : Devsw) {cwd : Nat} (hcwd : cwd < NINODE)
    (href : 0 < (κ0.icache cwd).ref) (path : List UInt8) :
    Yields (fun e => e = .iget ∧ ¬ κ0.TwoFree)
      (fun r => match resolve κ0 ino (startOf κ0 cwd path) (components path) with
        | none => r.1 = none ∧ Walk κ0 ino [] none r.2
        | some y => ∃ j, r.1 = some j ∧ Walk κ0 ino [j] none r.2 ∧ (r.2.icache j).inum = y)
      (namei devsw κ0 cwd path) ∧
    Yields (fun e => e = .iget ∧ ¬ κ0.TwoFree)
      (fun r => match resolveParent κ0 ino (startOf κ0 cwd path) (components path) with
        | none => r.1 = none ∧ Walk κ0 ino [] none r.2
        | some (y, c) => ∃ j, r.1 = some (j, c) ∧ Walk κ0 ino [j] none r.2 ∧
            (r.2.icache j).inum = y)
      (nameiparent devsw κ0 cwd path) := by
  constructor
  · have hspec := namex_spec ht devsw hcwd href path false
    rw [target_false] at hspec
    unfold namei
    refine hspec.bind ?_
    rintro ⟨found, κ⟩ hreached
    cases hresolve : resolve κ0 ino (startOf κ0 cwd path) (components path) with
    | none =>
      rw [hresolve] at hreached
      obtain ⟨hfound, hwalk⟩ := hreached
      exact yields_ok ⟨congrArg (Option.map Prod.fst) hfound, hwalk⟩
    | some y =>
      rw [hresolve] at hreached
      obtain ⟨j, name, hfound, _, hwalk, hinum⟩ := hreached
      exact yields_ok ⟨j, congrArg (Option.map Prod.fst) hfound, hwalk, hinum⟩
  · have hspec := namex_spec ht devsw hcwd href path true
    rw [target_true] at hspec
    refine hspec.weaken ?_
    rintro ⟨found, κ⟩ hreached
    cases hresolve : resolveParent κ0 ino (startOf κ0 cwd path) (components path) with
    | none =>
      rw [hresolve] at hreached
      exact hreached
    | some r =>
      rw [hresolve] at hreached
      obtain ⟨j, name, hfound, hname, hwalk, hinum⟩ := hreached
      rw [hname r.2 rfl] at hfound
      exact ⟨j, hfound, hwalk, hinum⟩

end

namespace Sample

def emptyDir : Dinode := ⟨T_DIR, 0, 0, 1, 0, fun _ => 0⟩

/-- The root has one entry, in block 900. -/
def rootDir : Dinode := ⟨T_DIR, 0, 0, 1, DIRENTSIZE, fun e => if e = 0 then 900 else 0⟩

def inodesOf (x : Nat) : Dinode := if x = ROOTINO then rootDir else emptyDir

/-- A disk on which every inode is a directory; the name `a` in the root leads to inode 60. -/
def treeDisk : Disk := iupdate ⟨fun b p => if b = 900 then (direntBytes 60 [97]).getD p 0
  else emptyDir.byte (p % DINODESIZE), Mkfs.sb, []⟩ ROOTINO rootDir

/-- The process holds the root and the inodes behind it in the first entries of the inode
cache. -/
def tree (used : Nat) : Kern where
  disk := treeDisk
  icache j := if j < used then ⟨j + 1, 1, true, false, inodesOf (j + 1)⟩
    else ⟨0, 0, false, false, emptyDir⟩

variable {used j : Nat}

theorem emptyDir_fits : emptyDir.Fits := by
  refine ⟨by decide, by decide, by decide, by decide, by decide,
    fun _ => Nat.two_pow_pos 32, fun _ _ => rfl⟩

theorem rootDir_fits : rootDir.Fits := by
  refine ⟨by decide, by decide, by decide, by decide, by decide, fun e => ?_,
    fun e he => if_neg (by omega)⟩
  change (if e = 0 then 900 else 0) < _
  split <;> decide

theorem treeDisk_onDisk : treeDisk.OnDisk inodesOf := by
  have hinodes : Function.update (fun _ => emptyDir) ROOTINO rootDir = inodesOf :=
    funext fun x => Function.update_apply (fun _ => emptyDir) ROOTINO rootDir x
  rw [← hinodes]
  refine iupdate_onDisk (fun n hn => ?_) rootDir_fits
  have hinode : IBLOCK n Mkfs.sb ≠ 900 := by
    change n < 200 at hn
    change n / 8 + 32 ≠ 900
    omega
  have hsame : overlay (fun p => emptyDir.byte (p % DINODESIZE)) (Dinode.slot n) DINODESIZE
      emptyDir.byte = fun p => emptyDir.byte (p % DINODESIZE) := by
    apply overlay_self
    intro i hi
    congr 1
    unfold Dinode.slot DINODESIZE at *
    omega
  have hread := Dinode.read_overlay (fun p => emptyDir.byte (p % DINODESIZE)) (Dinode.slot n)
    emptyDir_fits
  rw [hsame] at hread
  simpa only [if_neg hinode] using hread

theorem inodesOf_type (x : Nat) : (inodesOf x).type = T_DIR ∧ (inodesOf x).nlink = 1 := by
  unfold inodesOf
  split <;> exact ⟨rfl, rfl⟩

theorem entriesIn_root : entriesIn (tree used) inodesOf ROOTINO = [some ([97], 60)] := by
  change slots (treeDisk.contents rootDir) = _
  decide +kernel

theorem resolve_letter : resolve (tree used) inodesOf ROOTINO [[97]] = some 60 := by
  have hlookup : lookupIn (tree used) inodesOf ROOTINO [97] = some 60 := by
    rw [lookupIn, if_pos (inodesOf_type _).1, entriesIn_root]
    decide
  exact (congrArg (· >>= some) hlookup).trans rfl

theorem tree_used (hj : j < used) :
    (tree used).icache j = ⟨j + 1, 1, true, false, inodesOf (j + 1)⟩ := if_pos hj

theorem tree_free (hj : ¬ j < used) : (tree used).icache j = ⟨0, 0, false, false, emptyDir⟩ :=
  if_neg hj

theorem tree_ok (used : Nat) : Tree (tree used) inodesOf := by
  have hentry {j : Nat} (href : 0 < ((tree used).icache j).ref) :
      (tree used).icache j = ⟨j + 1, 1, true, false, inodesOf (j + 1)⟩ := by
    by_cases hj : j < used
    · exact tree_used hj
    · rw [tree_free hj] at href
      exact absurd href (by decide)
  have hlive {x : Nat} (hx : x < 200) : Live (tree used) inodesOf x := by
    refine ⟨hx, ?_, .inl ?_⟩
    · rw [(inodesOf_type x).1]
      decide
    · rw [(inodesOf_type x).2]
      decide
  have hbound : NINODE + 1 < 200 := by decide
  refine ⟨treeDisk_onDisk, ⟨?_, ?_⟩, ?_, ?_, ?_, ?_, hlive (by decide)⟩
  · intro j _ href _
    rw [hentry href]
  · intro j _ l _ hrefj hrefl heq
    rw [hentry hrefj, hentry hrefl] at heq
    exact Nat.add_right_cancel heq
  · intro j
    by_cases hj : j < used
    · rw [tree_used hj]
    · rw [tree_free hj]
  · intro j hj href
    rw [hentry href]
    exact hlive (show j + 1 < 200 by omega)
  · intro x _
    unfold inodesOf
    split
    · refine ⟨⟨by decide, fun j hj => ?_⟩, Nat.dvd_refl _⟩
      obtain rfl : j = 0 := by
        change j * 512 < 16 at hj
        omega
      exact show 900 ≠ 0 by decide
    · refine ⟨⟨Nat.zero_le _, fun j hj => ?_⟩, Nat.dvd_zero _⟩
      exact absurd hj (Nat.not_lt_zero _)
  · intro x _ c b hbinding
    by_cases hx : x = ROOTINO
    · rw [hx, entriesIn_root] at hbinding
      obtain ⟨⟨v, i⟩, hfind, rfl⟩ := Option.map_eq_some_iff.mp hbinding
      obtain ⟨_, heq⟩ := List.getElem?_eq_some_iff.mp (Slots.find_some hfind)
      rw [List.getElem_singleton] at heq
      cases heq
      exact hlive (show 60 < 200 by decide)
    · have hnone : entriesIn (tree used) inodesOf x = [] := by
        unfold entriesIn inodesOf slots
        rw [if_neg hx, contents_length, show emptyDir.size = 0 from rfl,
          Nat.zero_div]
        rfl
      rw [hnone] at hbinding
      cases hbinding

end Sample

/-- `namei("/a")` with the root in the cache. -/
theorem namei_folds_entry : ∃ j κ,
    namei ⟨fun _ => none, fun _ => none⟩ (Sample.tree 1) 0 [slash, 97] = .ok (some j, κ) ∧
      (κ.icache j).inum = 60 := by
  have hspec := (namei_folds (Sample.tree_ok 1) ⟨fun _ => none, fun _ => none⟩
    (show 0 < NINODE by decide) (show 0 < ((Sample.tree 1).icache 0).ref by decide)
    [slash, 97]).1
  have hresolve : resolve (Sample.tree 1) Sample.inodesOf
      (startOf (Sample.tree 1) 0 [slash, 97]) (components [slash, 97]) = some 60 :=
    Sample.resolve_letter
  rw [hresolve] at hspec
  generalize namei _ _ _ _ = r at hspec ⊢
  cases r with
  | error e =>
    exact absurd ⟨1, by decide, 2, by decide, by decide, rfl, rfl⟩ (hspec.errs e rfl).2
  | ok r =>
    obtain ⟨found, κ⟩ := r
    obtain ⟨j, rfl, -, hinum⟩ := hspec.sound _ rfl
    exact ⟨j, κ, rfl, hinum⟩

/-- `namei("/a")` with all entries of the cache in use, one of them for the root and none for
the inode that the name leads to. -/
theorem namei_panics : Tree (Sample.tree NINODE) Sample.inodesOf ∧
    ((Sample.tree NINODE).icache 0).inum = ROOTINO ∧ resolve (Sample.tree NINODE) Sample.inodesOf
      ROOTINO (components [slash, 97]) = some 60 ∧
    namei ⟨fun _ => none, fun _ => none⟩ (Sample.tree NINODE) 0 [slash, 97] = .error .iget := by
  have hresolve : resolve (Sample.tree NINODE) Sample.inodesOf ROOTINO (components [slash, 97]) =
      some 60 := Sample.resolve_letter
  refine ⟨Sample.tree_ok NINODE, rfl, hresolve, ?_⟩
  have hspec := namex_spec (Sample.tree_ok NINODE) ⟨fun _ => none, fun _ => none⟩
    (show 0 < NINODE by decide) (show 0 < ((Sample.tree NINODE).icache 0).ref by decide)
    [slash, 97] false
  rw [target_false, show startOf (Sample.tree NINODE) 0 [slash, 97] = ROOTINO from rfl,
    hresolve] at hspec
  unfold namei
  generalize namex _ _ _ _ _ = r at hspec ⊢
  cases r with
  | error e =>
    rw [(hspec.errs e rfl).1]
    rfl
  | ok r =>
    -- every entry keeps the inode that it has
    obtain ⟨j, _, _, _, hwalk, hinum⟩ := hspec.sound r rfl
    have hj : j < NINODE := hwalk.lt j (mem_singleton_self j)
    have hkept := hwalk.kept j (by rw [Sample.tree_used hj]; exact Nat.one_pos)
    rw [Sample.tree_used hj, hinum] at hkept
    unfold NINODE at hj
    dsimp only at hkept
    omega

end Xv6.Fs

import Xv6.Fs.ReadWrite

/-!
`itrunc` gives the blocks of a file back, and what the files are under any calls of
`readi`, `writei` and `itrunc`: a byte string each. Every block that the bitmap has
in use stays the block of one file, so a call on one file leaves the others alone.
-/

namespace Xv6.Fs

open Lib Function

theorem bit_clearBit (x : Bytes) (i j : Nat) :
    bit (clearBit x i) j = (bit x j && !decide (j = i)) := by
  have hmask : ∀ a < 8, ∀ b < 8, (255 - 2 ^ a).testBit b = !decide (b = a) := by decide
  have hlt : (x (i / 8)).toNat &&& (255 - 2 ^ (i % 8)) < 2 ^ 8 :=
    Nat.and_lt_two_pow _ (Nat.lt_of_le_of_lt (Nat.sub_le _ _) (by decide))
  unfold bit clearBit
  by_cases hbyte : j / 8 = i / 8
  · have hiff : (j % 8 = i % 8) ↔ (j = i) := by omega
    rw [hbyte, update_self, UInt8.toNat_ofNat', Nat.mod_eq_of_lt hlt, Nat.testBit_and,
      hmask _ (Nat.mod_lt i (by decide)) _ (Nat.mod_lt j (by decide))]
    simp only [hiff]
  · have hne : j ≠ i := by
      rintro rfl
      exact hbyte rfl
    rw [update_of_ne hbyte]
    simp [hne]

/-- The first `n` blocks of the file have been freed; nothing but the bitmap has changed. -/
structure Freed (k : Disk) (ip : Dinode) (n : Nat) (k' : Disk) : Prop where
  sb : k'.sb = k.sb
  inUse : ∀ c, c < k.sb.size →
    (k'.inUse c = true ↔ k.inUse c = true ∧ ∀ j < n, ip.num k.block j = c → c = 0)
  block : ∀ c, (∀ b, b < k.sb.size → c ≠ BBLOCK b k.sb) → k'.block c = k.block c

section

variable {k k1 : Disk} {ino : Nat → Dinode} {i n : Nat}

namespace Freed

theorem data (h : Freed k (ino i) n k1) {c : Nat} (hc : ¬ k.sb.Meta c) :
    k1.block c = k.block c := by
  apply h.block
  rintro b hb rfl
  exact hc (k.sb.meta_bblock hb)

theorem super (h : Freed k (ino i) n k1) (ho : k.Owned ino) :
    Superblock.read (k1.block 1) = k1.sb := by
  rw [h.block 1 fun b _ => Nat.ne_of_lt (ho.sane.one_lt_bblock b), ho.super, h.sb]

theorem skip (h : Freed k (ino i) n k1) (hzero : (ino i).num k.block n = 0) :
    Freed k (ino i) (n + 1) k1 := by
  refine ⟨h.sb, fun c hc => ?_, h.block⟩
  have hlast : (ino i).num k.block n = c → c = 0 := fun heq => heq.symm.trans hzero
  rw [h.inUse c hc, Nat.forall_lt_succ_right, and_iff_left hlast]

/-- The next block is one that `bfree` finds in use. -/
theorem next (h : Freed k (ino i) n k1) (ho : k.Owned ino) (hne : (ino i).num k.block n ≠ 0) :
    ∃ k', bfree k1 ((ino i).num k.block n) = .ok k' ∧ Freed k (ino i) (n + 1) k' := by
  obtain ⟨hlt, -, huse⟩ := ho.num_own hne
  have hnot (j : Nat) (hj : j < n) (heq : (ino i).num k.block j = (ino i).num k.block n) :
      (ino i).num k.block n = 0 := absurd (ho.inj hne heq.symm).2 (Nat.ne_of_gt hj)
  have hbit := (h.inUse _ hlt).mpr ⟨huse, hnot⟩
  generalize hb : (ino i).num k.block n = b at *
  have hok : bfree k1 b = .ok (k1.write (BBLOCK b k1.sb)
      (clearBit (k1.block (BBLOCK b k1.sb)) (b % BPB))) := by
    have hread : readsb k1 = k1 := by
      unfold readsb
      rw [h.super ho]
    unfold bfree
    simp only [hread]
    exact if_pos hbit
  refine ⟨_, hok, h.sb, fun c hc => ?_, fun c hc => ?_⟩
  · have hlast : ((ino i).num k.block n = c → c = 0) ↔ c ≠ b := by omega
    rw [Nat.forall_lt_succ_right, ← and_assoc, ← h.inUse c hc, hlast]
    unfold Disk.inUse
    change bit (update k1.block _ _ (BBLOCK c k1.sb)) _ = true ↔ _
    by_cases hblock : BBLOCK c k1.sb = BBLOCK b k1.sb
    · have hiff : c % BPB = b % BPB ↔ c = b := by
        unfold BBLOCK BPB BSIZE at *
        omega
      rw [hblock, update_self, bit_clearBit]
      simp [hiff]
    · have hcb : c ≠ b := by
        rintro rfl
        exact hblock rfl
      rw [update_of_ne hblock, and_iff_left hcb]
  · rw [← h.block c hc]
    apply update_of_ne
    rw [h.sb]
    exact hc b hlt

/-- The blocks in use then are those of the other files. -/
theorem owned (h : Freed k (ino i) n k1) (ho : k.Owned ino)
    (hrest : ∀ j, n ≤ j → (ino i).num k.block j = 0) (ip : Dinode) (hip : ip.addrs = fun _ => 0) :
    k1.Owned (update ino i ip) := by
  have hall (c : Nat) (hc : c ≠ 0) : (∀ j < n, (ino i).num k.block j = c → c = 0) ↔
      ∀ j, (ino i).num k.block j ≠ c := by
    constructor
    · intro hfirst j heq
      rcases Nat.lt_or_ge j n with hj | hj
      · exact hc (hfirst j hj heq)
      · exact hc (heq.symm.trans (hrest j hj))
    · intro hnot j _ heq
      exact absurd heq (hnot j)
  refine ⟨h.sb ▸ ho.sane, h.super ho, ?_, ?_⟩
  · intro b hb hm
    rw [h.sb] at hb hm
    refine (h.inUse b hb).mpr ⟨ho.reserved b hb hm, fun j _ heq => ?_⟩
    by_contra hne
    subst heq
    exact (ho.num_own hne).2.1 hm
  · apply ho.owners.drop (D := fun ij => ij.1 = i)
    · rintro ⟨_, j⟩ rfl
      simp [Dinode.num, hip]
    · rintro ⟨i', j⟩ hi
      rw [update_of_ne hi]
      exact num_congr fun hind => h.data (ho.num_own (i := i') (j := MAXFILE) hind).2.1
    · intro c
      rw [h.sb, and_assoc, and_assoc]
      refine and_congr_right fun hc => and_congr_right fun hdata => ?_
      have hzero : c ≠ 0 := by
        rintro rfl
        exact hdata (ho.sane.meta_of_le_one (Nat.zero_le 1))
      rw [h.inUse c hc, hall c hzero]
      exact and_congr_right fun _ =>
        ⟨fun hnot ij hij => hij ▸ hnot ij.2, fun hnot j => hnot (i, j) rfl⟩

end Freed

/-- The inode after `n` rounds of the first loop of `itrunc`. -/
def Dinode.cleared (d : Dinode) (n : Nat) : Dinode :=
  { d with addrs := fun j => if j < n then 0 else d.addrs j }

theorem Dinode.cleared_self (d : Dinode) (n : Nat) : (d.cleared n).addrs n = d.addrs n :=
  if_neg (Nat.lt_irrefl n)

theorem Dinode.cleared_succ (d : Dinode) (n : Nat) :
    update (d.cleared n).addrs n 0 = (d.cleared (n + 1)).addrs := by
  funext j
  rw [update_apply]
  unfold cleared
  dsimp only
  split_ifs <;> first | rfl | omega

theorem Dinode.cleared_all {d : Dinode} (hrest : ∀ j, n ≤ j → d.addrs j = 0) :
    (d.cleared n).addrs = fun _ => 0 := by
  funext j
  exact ite_eq_left_iff.mpr fun hj => hrest j (Nat.not_lt.mp hj)

theorem itruncDirect_loop (h : k.Owned ino) (i : Nat) :
    ∃ r, (List.range NDIRECT).foldlM itruncDirect (ino i, k) = .ok r ∧
      r.1 = (ino i).cleared NDIRECT ∧ Freed k (ino i) NDIRECT r.2 := by
  apply foldlM_range fun n (r : Dinode × Disk) => r.1 = (ino i).cleared n ∧ Freed k (ino i) n r.2
  · exact ⟨by simp [Dinode.cleared], rfl, by simp, fun _ _ => rfl⟩
  · rintro n hn ⟨_, k1⟩ ⟨rfl, hk⟩
    have haddr : ((ino i).cleared n).addrs n = (ino i).num k.block n :=
      ((ino i).cleared_self n).trans (num_direct hn).symm
    have hsucc := (ino i).cleared_succ n
    unfold itruncDirect
    dsimp only
    rw [haddr]
    split
    · next hzero =>
      rw [← hzero, ← haddr, update_eq_self] at hsucc
      exact ⟨_, rfl, congrArg (fun a => { ino i with addrs := a }) hsucc, hk.skip hzero⟩
    · next hne =>
      obtain ⟨k', hfree, hk'⟩ := hk.next h hne
      exact ⟨_, by rw [hfree, ok_bind, hsucc], rfl, hk'⟩

/-- The second loop: the indirect block keeps its words while their blocks are freed. -/
theorem itruncWord_loop (h : k.Owned ino) (hind : (ino i).addrs NDIRECT ≠ 0)
    (hk : Freed k (ino i) NDIRECT k1) :
    ∃ k', (List.range NINDIRECT).foldlM (itruncWord ((ino i).addrs NDIRECT)) k1 = .ok k' ∧
      Freed k (ino i) MAXFILE k' := by
  have hdata : ¬ k.sb.Meta ((ino i).addrs NDIRECT) := (h.num_own (i := i) (j := MAXFILE) hind).2.1
  apply foldlM_range fun n k' => Freed k (ino i) (NDIRECT + n) k'
  · exact hk
  · intro n hn k2 hk2
    have hword : indirectWord (k2.block ((ino i).addrs NDIRECT)) n =
        (ino i).num k.block (NDIRECT + n) := by
      rw [hk2.data hdata, num_word (Nat.le_add_right _ _) (Nat.add_lt_add_left hn _) hind,
        Nat.add_sub_cancel_left]
    unfold itruncWord
    rw [hword]
    split
    · next hzero => exact ⟨k2, rfl, hk2.skip hzero⟩
    · next hne => exact hk2.next h hne

/-- An inode without contents. -/
def Dinode.empty (d : Dinode) : Dinode := { d with size := 0, addrs := fun _ => 0 }

theorem itrunc_freed (h : k.Owned ino) (hfits : (ino i).Fits) :
    ∃ n k1, itrunc k i (ino i) = .ok ((ino i).empty, iupdate k1 i (ino i).empty) ∧
      Freed k (ino i) n k1 ∧ ∀ j, n ≤ j → (ino i).num k.block j = 0 := by
  obtain ⟨⟨_, k1⟩, hloop, rfl, hk⟩ := itruncDirect_loop h i
  unfold itrunc
  rw [hloop, ok_bind]
  dsimp only
  rw [Dinode.cleared_self]
  by_cases hind : (ino i).addrs NDIRECT = 0
  · have hrest (j : Nat) (hj : NDIRECT ≤ j) : (ino i).addrs j = 0 := by
      rcases Nat.eq_or_lt_of_le hj with rfl | hj
      · exact hind
      · exact hfits.rest j hj
    refine ⟨NDIRECT, k1, ?_, hk, fun j hj => ?_⟩
    · rw [if_pos hind, ok_bind]
      dsimp only
      rw [Dinode.cleared_all hrest]
      rfl
    · simp [Dinode.num, Nat.not_lt.mpr hj, hind]
  · obtain ⟨k2, hwords, hk2⟩ := itruncWord_loop h hind hk
    obtain ⟨k3, hlast, hk3⟩ := hk2.next h hind
    rw [num_indirect] at hlast
    refine ⟨MAXFILE + 1, k3, ?_, hk3, fun j hj => ?_⟩
    · rw [if_neg hind, hwords, ok_bind, hlast, ok_bind, ok_bind]
      dsimp only
      rw [Dinode.cleared_succ, Dinode.cleared_all hfits.rest]
      rfl
    · rw [Dinode.num, if_neg (by unfold MAXFILE at hj; omega), if_neg (by omega),
        if_neg (by omega)]

/-- `itrunc` does not panic, and leaves an empty file and the other files. -/
theorem itrunc_spec (h : k.Owned ino) (hi : i < k.sb.ninodes) (hfits : (ino i).Fits) :
    ∃ k', itrunc k i (ino i) = .ok ((ino i).empty, k') ∧
      k'.Owned (update ino i (ino i).empty) ∧ k'.sb = k.sb ∧
      ∀ i', k.HoleFree (ino i') →
        k'.HoleFree (ino i') ∧ k'.contents (ino i') = k.contents (ino i') := by
  obtain ⟨n, k1, hok, hk, hrest⟩ := itrunc_freed h hfits
  have hi1 : i < k1.sb.ninodes := hk.sb ▸ hi
  have howned := hk.owned h hrest (ino i).empty rfl
  refine ⟨_, hok, iupdate_owned howned hi1, hk.sb, fun i' hfree => ?_⟩
  have hdata (j : Nat) (hj : (ino i').num k.block j ≠ 0) :
      (iupdate k1 i (ino i).empty).block ((ino i').num k.block j) =
        k.block ((ino i').num k.block j) := by
    have hc := (h.num_own hj).2.1
    rw [iupdate_data howned.sane hi1 (hk.sb ▸ hc), hk.data hc]
  have hnum (j : Nat) := num_congr (j := j) (hdata MAXFILE)
  refine ⟨⟨hfree.size, fun j hj => ?_⟩, List.map_congr_left fun m hm => ?_⟩
  · rw [hnum]
    exact hfree.blocks j hj
  · unfold Disk.fileByte
    rw [hnum, hdata _ (hfree.block (List.mem_range.mp hm)).2]

end

/-- The disk and the inodes in memory. -/
structure Volume where
  disk : Disk
  ino : Nat → Dinode

inductive FileCall where
  | read (i off n : Nat)
  | write (i off : Nat) (src : List UInt8)
  | truncate (i : Nat)

/-- What a call returns, and the bytes that `readi` stores at `dst`. -/
abbrev Reply := Int × List UInt8

def Volume.call (devsw : Devsw) (v : Volume) : FileCall → Except Panic (Reply × Volume)
  | .read i off n => do
    let (r, bytes, ip, k) ← readi devsw v.disk (v.ino i) off n
    .ok ((r, bytes), ⟨k, update v.ino i ip⟩)
  | .write i off src => do
    let (r, ip, k) ← writei devsw v.disk i (v.ino i) off src
    .ok ((r, []), ⟨k, update v.ino i ip⟩)
  | .truncate i => do
    let (ip, k) ← itrunc v.disk i (v.ino i)
    .ok ((0, []), ⟨k, update v.ino i ip⟩)

def Volume.run (devsw : Devsw) : Volume → List FileCall → Except Panic (List Reply × Volume)
  | v, [] => .ok ([], v)
  | v, c :: cs => do
    let (r, v) ← v.call devsw c
    let (rs, v) ← v.run devsw cs
    .ok (r :: rs, v)

namespace FileCall

/-- The call on files that are byte strings. -/
def onBytes (f : Nat → List UInt8) : FileCall → Reply × (Nat → List UInt8)
  | read i off n =>
    if off ≤ (f i).length ∧ off + n < 4294967296 then
      ((((min n ((f i).length - off) : Nat) : Int), ((f i).drop off).take n), f)
    else ((-1, []), f)
  | write i off src =>
    if off ≤ (f i).length ∧ off + src.length ≤ MAXFILE * BSIZE then
      ((src.length, []), update f i ((f i).take off ++ src ++ (f i).drop (off + src.length)))
    else ((-1, []), f)
  | truncate i => ((0, []), update f i [])

def runBytes (f : Nat → List UInt8) : List FileCall → List Reply × (Nat → List UInt8)
  | [] => ([], f)
  | c :: cs =>
    let (r, f) := c.onBytes f
    let (rs, f) := runBytes f cs
    (r :: rs, f)

/-- The call is for one of the files `S`, and its numbers are of type `uint`. -/
def On (S : Nat → Prop) : FileCall → Prop
  | read i off n => S i ∧ off < 4294967296 ∧ n < 4294967296
  | write i _ _ => S i
  | truncate i => S i

/-- A write that needs more blocks than are free. -/
def Short (v : Volume) : FileCall → Prop
  | write i off src => v.disk.nfree < missing v.disk (v.ino i) (needed off src.length)
  | _ => False

end FileCall

/-- One of the calls is a write that needs more blocks than are free then. -/
def Volume.Short (devsw : Devsw) : Volume → List FileCall → Prop
  | _, [] => False
  | v, c :: cs => c.Short v ∨ ∃ r v', v.call devsw c = .ok (r, v') ∧ v'.Short devsw cs

/-- The blocks are those of the files, each once, and the contents of the files `S` are `f`. -/
structure Volume.Holds (v : Volume) (S : Nat → Prop) (f : Nat → List UInt8) : Prop where
  owned : v.disk.Owned v.ino
  file : ∀ i, S i → i < v.disk.sb.ninodes ∧ (v.ino i).type ≠ T_DEV ∧ (v.ino i).Fits ∧
    v.disk.HoleFree (v.ino i) ∧ v.disk.contents (v.ino i) = f i

section

variable {v : Volume} {S : Nat → Prop} {f : Nat → List UInt8}

/-- One inode has changed, and the other files are as they were. -/
theorem Volume.Holds.change {k' : Disk} {i : Nat} {ip : Dinode} {x : List UInt8}
    (h : v.Holds S f) (howned : k'.Owned (update v.ino i ip)) (hsb : k'.sb = v.disk.sb)
    (htype : ip.type = (v.ino i).type)
    (hself : ip.Fits ∧ k'.HoleFree ip ∧ k'.contents ip = x)
    (hothers : ∀ i', i' ≠ i → v.disk.HoleFree (v.ino i') →
      k'.HoleFree (v.ino i') ∧ k'.contents (v.ino i') = v.disk.contents (v.ino i')) :
    Volume.Holds ⟨k', update v.ino i ip⟩ S (update f i x) := by
  refine ⟨howned, fun j hj => ?_⟩
  obtain ⟨hlt, hdev, hfits, hfree, hcontents⟩ := h.file j hj
  refine ⟨hsb ▸ hlt, ?_⟩
  by_cases hji : j = i
  · subst hji
    simp only [update_self]
    exact ⟨htype ▸ hdev, hself⟩
  · obtain ⟨hfree', hsame⟩ := hothers j hji hfree
    simp only [update_of_ne hji]
    exact ⟨hdev, hfits, hfree', hsame.trans hcontents⟩

theorem call_spec (devsw : Devsw) (h : v.Holds S f) {c : FileCall} (hc : c.On S) :
    Yields (fun e => e = .balloc ∧ c.Short v)
      (fun r => r.1 = (c.onBytes f).1 ∧ r.2.Holds S (c.onBytes f).2) (v.call devsw c) := by
  cases c with
  | read i off n =>
    obtain ⟨hi, hoff, hn⟩ := hc
    obtain ⟨-, hdev, -, hfree, hcontents⟩ := h.file i hi
    simp only [Volume.call, FileCall.onBytes, readi_spec devsw hdev hfree hoff hn, ← hcontents,
      contents_length]
    split <;> simpa [ok_bind] using yields_ok ⟨rfl, h⟩
  | write i off src =>
    obtain ⟨hlt, hdev, hfits, hfree, hcontents⟩ := h.file i hc
    simp only [Volume.call, FileCall.onBytes, ← hcontents, contents_length]
    split
    · next hin =>
      refine (writei_or_short devsw h.owned hlt hdev hfits hfree hin.1 hin.2).bind ?_
      rintro ⟨r, ip, k'⟩ hw
      have htype : ip.type = (v.ino i).type := (congrArg Dinode.type hw.fields :)
      exact yields_ok ⟨Prod.ext hw.result rfl, h.change hw.owned hw.sb htype
        ⟨hw.fits, hw.holeFree, hw.contents⟩ hw.others⟩
    · next hout =>
      rw [writei_refused devsw hdev hout]
      simpa [ok_bind] using yields_ok ⟨rfl, h⟩
  | truncate i =>
    obtain ⟨hlt, -, hfits, -, -⟩ := h.file i hc
    obtain ⟨k', hok, howned, hsb, hothers⟩ := itrunc_spec h.owned hlt hfits
    have hfits' : (v.ino i).empty.Fits := ⟨hfits.type, hfits.major, hfits.minor, hfits.nlink,
      Nat.zero_lt_succ _, fun _ => Nat.zero_lt_succ _, fun _ _ => rfl⟩
    have hempty : k'.HoleFree (v.ino i).empty :=
      ⟨Nat.zero_le _, fun j hj => absurd hj (Nat.not_lt_zero _)⟩
    simp only [Volume.call, hok, ok_bind]
    exact yields_ok ⟨rfl, h.change howned hsb rfl ⟨hfits', hempty, rfl⟩ fun i' _ => hothers i'⟩

/-- Any calls of `readi`, `writei` and `itrunc` return what they return on byte strings, and
the files are these byte strings afterwards. The kernel stops only at a write that needs more
blocks than are free. -/
theorem run_refines_bytes (devsw : Devsw) (h : v.Holds S f) (cs : List FileCall)
    (hcs : ∀ c ∈ cs, c.On S) :
    Yields (fun e => e = .balloc ∧ v.Short devsw cs)
      (fun r => r.1 = (FileCall.runBytes f cs).1 ∧ r.2.Holds S (FileCall.runBytes f cs).2)
      (v.run devsw cs) := by
  induction cs generalizing v f with
  | nil => exact yields_ok ⟨rfl, h⟩
  | cons c cs ih =>
    have hstep := call_spec devsw h (hcs c List.mem_cons_self)
    unfold Volume.run
    cases hcall : v.call devsw c with
    | error e =>
      obtain ⟨he, hshort⟩ := hstep.errs e hcall
      exact yields_error ⟨he, .inl hshort⟩
    | ok r =>
      obtain ⟨r, v'⟩ := r
      obtain ⟨hreply, hholds⟩ := hstep.sound _ hcall
      have hrest := ih hholds fun d hd => hcs d (List.mem_cons_of_mem c hd)
      have hlater (e : Panic) (he : e = .balloc ∧ v'.Short devsw cs) :
          e = .balloc ∧ v.Short devsw (c :: cs) := ⟨he.1, .inr ⟨r, v', hcall, he.2⟩⟩
      rw [ok_bind]
      refine (hrest.imp hlater fun _ ha => ha).bind ?_
      rintro ⟨rs, v''⟩ ⟨hreplies, hholds'⟩
      exact yields_ok ⟨congrArg₂ List.cons hreply hreplies, hholds'⟩

open Mkfs in
/-- Two bytes are written behind the only one of a file of `mkfs`; `itrunc` frees all. -/
theorem run_refines_mounted : ∃ img, mkfs [⟨[97], [1]⟩] = .ok img ∧
    ∃ v, Volume.run ⟨fun _ => none, fun _ => none⟩ ⟨mounted img, fileInodes [⟨[97], [1]⟩] img⟩
        [.write 2 1 [2, 3], .read 2 0 9, .truncate 2, .read 2 0 9] =
      .ok ([(2, []), (3, [1, 2, 3]), (0, []), (0, [])], v) := by
  obtain ⟨img, s, himg, hs, hcontents, hsize, htype, hfree⟩ := mounted_oneFile
  have hself : fileInodes [⟨[97], [1]⟩] img 2 = inodeAt img 2 := if_pos (by decide)
  have hholds : Volume.Holds ⟨mounted img, fileInodes [⟨[97], [1]⟩] img⟩ (· = 2) fun _ => [1] := by
    refine ⟨hs.owned, ?_⟩
    rintro i rfl
    dsimp only
    rw [hself, hs.mounted_sb, htype]
    exact ⟨by decide, by decide, Dinode.fits_read _ _, hfree, hcontents⟩
  have hrun := run_refines_bytes ⟨fun _ => none, fun _ => none⟩ hholds
    [.write 2 1 [2, 3], .read 2 0 9, .truncate 2, .read 2 0 9] (by
      simp [FileCall.On])
  have hnone : missing (mounted img) (inodeAt img 2) (needed 1 2) = 0 :=
    missing_present hfree (by rw [hsize]; decide)
  have hspace : ¬ Volume.Short ⟨fun _ => none, fun _ => none⟩
      ⟨mounted img, fileInodes [⟨[97], [1]⟩] img⟩
      [.write 2 1 [2, 3], .read 2 0 9, .truncate 2, .read 2 0 9] := by
    simp [Volume.Short, FileCall.Short, hself, hnone]
  refine ⟨img, himg, ?_⟩
  generalize Volume.run _ _ _ = r at hrun
  cases r with
  | error e => exact absurd (hrun.errs e rfl).2 hspace
  | ok r =>
    obtain ⟨out, v⟩ := r
    obtain rfl : out = [(2, []), (3, [1, 2, 3]), (0, []), (0, [])] :=
      (hrun.sound _ rfl).1.trans (by decide)
    exact ⟨v, rfl⟩

end

end Xv6.Fs

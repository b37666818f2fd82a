import Xv6.Fs.Owned

/-!
The contents of a file. `readi` returns them and `writei` replaces a part of them;
both go from block to block, and `writei` takes blocks behind the end of the file
from the free ones.
-/

namespace Xv6.Fs

open Lib Function List

def Disk.fileByte (k : Disk) (ip : Dinode) (m : Nat) : UInt8 :=
  k.block (ip.num k.block (m / BSIZE)) (m % BSIZE)

def Disk.contents (k : Disk) (ip : Dinode) : List UInt8 := (List.range ip.size).map (k.fileByte ip)

structure Disk.HoleFree (k : Disk) (ip : Dinode) : Prop where
  size : ip.size ≤ MAXFILE * BSIZE
  blocks : ∀ j, j * BSIZE < ip.size → ip.num k.block j ≠ 0

section

variable {k : Disk} {ip : Dinode} {bn off n : Nat}

theorem bmap_present (hbn : bn < MAXFILE) (hne : ip.num k.block bn ≠ 0) :
    bmap k ip bn = .ok (ip.num k.block bn, ip, k) := by
  unfold bmap
  split
  · next hdirect =>
    rw [num_direct hdirect] at hne ⊢
    rw [if_neg hne]
  · next hge =>
    have hge := Nat.not_lt.mp hge
    have hind : ip.addrs NDIRECT ≠ 0 := fun hind => hne (num_word_none hge hbn hind)
    rw [num_word hge hbn hind] at hne ⊢
    rw [if_pos (by unfold MAXFILE at hbn; omega), if_neg hind, ok_bind]
    dsimp only
    rw [if_neg hne]

theorem inBlock_div {t : Nat} (ht : t < inBlock off n) :
    (off + t) / BSIZE = off / BSIZE ∧ (off + t) % BSIZE = off % BSIZE + t := by
  unfold inBlock BSIZE at *
  omega

theorem readiLoop_eq (hsize : off + n ≤ MAXFILE * BSIZE)
    (hblocks : ∀ m, off ≤ m → m < off + n → ip.num k.block (m / BSIZE) ≠ 0) :
    readiLoop k ip off n = .ok ((List.range n).map fun t => k.fileByte ip (off + t), ip, k) := by
  -- by induction on the number of bytes that are left
  induction n using Nat.strong_induction_on generalizing off with
  | _ n ih =>
  rw [readiLoop]
  split
  · next hn =>
    subst hn
    rfl
  · next hn =>
    have hpos := inBlock_pos off hn
    have hle := inBlock_le off n
    have hlt : off / BSIZE < MAXFILE := by
      unfold BSIZE at *
      omega
    have hne := hblocks off (Nat.le_refl _) (by omega)
    have hrest : readiLoop k ip (off + inBlock off n) (n - inBlock off n) = _ :=
      ih (n - inBlock off n) (by omega) (by omega)
        fun m hge hm => hblocks m (by omega) (by omega)
    have hfirst : (List.range (inBlock off n)).map
        (fun t => k.block (ip.num k.block (off / BSIZE)) (off % BSIZE + t)) =
        (List.range (inBlock off n)).map fun t => k.fileByte ip (off + t) := by
      apply map_congr_left
      intro t ht
      obtain ⟨hdiv, hmod⟩ := inBlock_div (mem_range.mp ht)
      unfold Disk.fileByte
      rw [hdiv, hmod]
    have hsplit : List.range n = List.range (inBlock off n) ++
        (List.range (n - inBlock off n)).map (inBlock off n + ·) := by
      rw [← range_add, Nat.add_sub_cancel' hle]
    rw [bmap_present hlt hne, ok_bind]
    dsimp only
    rw [hrest, ok_bind, hfirst, hsplit, map_append, map_map]
    simp only [Function.comp_def, Nat.add_assoc]

theorem readi_spec (devsw : Devsw) (htype : ip.type ≠ T_DEV) (hfree : k.HoleFree ip)
    (hoff : off < 4294967296) (hn : n < 4294967296) :
    readi devsw k ip off n = if off ≤ ip.size ∧ off + n < 4294967296 then
        .ok (((min n (ip.size - off) : Nat) : Int), ((k.contents ip).drop off).take n, ip, k)
      else .ok (-1, [], ip, k) := by
  have hsize := hfree.size
  unfold readi
  rw [if_neg htype]
  by_cases hbad : ip.size < off ∨ (off + n) % 4294967296 < off
  · rw [if_pos hbad, if_neg (by omega)]
  · have hcount : (if ip.size < off + n then ip.size - off else n) = min n (ip.size - off) := by
      split <;> omega
    have hbytes : ((k.contents ip).drop off).take n =
        (List.range (min n (ip.size - off))).map fun t => k.fileByte ip (off + t) := by
      apply ext_getElem
      · simp [Disk.contents]
      · intro t _ _
        simp [Disk.contents]
    have hgood : off ≤ ip.size ∧ off + n < 4294967296 := by omega
    have hloop : readiLoop k ip off (min n (ip.size - off)) = _ := readiLoop_eq (by omega)
      fun m _ hm => hfree.blocks (m / BSIZE) (by unfold BSIZE; omega)
    simp only [hbad, hgood, and_self, ↓reduceIte, hcount]
    rw [hloop, ok_bind, hbytes]

end

namespace Disk.Owned

variable {k : Disk} {ino : Nat → Dinode} {i bn : Nat}

theorem num_write (h : k.Owned ino) (hbn : bn < MAXFILE) (x : Bytes) (i' j : Nat) :
    (ino i').num (k.write ((ino i).num k.block bn) x).block j = (ino i').num k.block j := by
  apply num_congr
  intro hind
  apply update_of_ne
  intro heq
  exact Nat.ne_of_gt hbn (h.inj (i := i') (j := MAXFILE) hind heq).2

theorem write_data (h : k.Owned ino) (hbn : bn < MAXFILE) (hne : (ino i).num k.block bn ≠ 0)
    (x : Bytes) : (k.write ((ino i).num k.block bn) x).Owned ino := by
  have hown := h.num_own hne
  have hmeta (c : Nat) (hc : k.sb.Meta c) :
      (k.write ((ino i).num k.block bn) x).block c = k.block c := by
    apply update_of_ne
    rintro rfl
    exact hown.2.1 hc
  have hused (c : Nat) (hc : c < k.sb.size) :
      (k.write ((ino i).num k.block bn) x).inUse c = k.inUse c := by
    unfold inUse
    rw [show (k.write ((ino i).num k.block bn) x).sb = k.sb from rfl, hmeta _ (k.sb.meta_bblock hc)]
  refine ⟨h.sane, ?_, ?_, ?_⟩
  · rw [hmeta 1 (h.sane.meta_of_le_one (Nat.le_refl 1))]
    exact h.super
  · intro c hc hm
    rw [hused c hc]
    exact h.reserved c hc hm
  · apply h.owners.congr
    · intro c
      apply and_congr_right
      intro hc
      rw [hused c hc]
      rfl
    · intro ij
      exact h.num_write hbn x ij.1 ij.2

end Disk.Owned

/-- `src` is in file `i` from `off` on; `ip` are the fields of the inode then. -/
structure Written (k : Disk) (ino : Nat → Dinode) (i off : Nat) (src : List UInt8) (ip : Dinode)
    (k' : Disk) : Prop where
  owned : k'.Owned (update ino i ip)
  fields : ip = { ino i with addrs := ip.addrs }
  rest : ∀ j, NDIRECT < j → ip.addrs j = (ino i).addrs j
  blocks : ∀ m, off ≤ m → m < off + src.length → ip.num k'.block (m / BSIZE) ≠ 0
  self : ∀ m, off ≤ m → m < off + src.length → k'.fileByte ip m = src.getD (m - off) 0
  kept : ∀ i' j, (ino i').num k.block j ≠ 0 →
    (update ino i ip i').num k'.block j = (ino i').num k.block j
  others : ∀ i' j, i' ≠ i → (ino i').num k'.block j = (ino i').num k.block j
  bytes : ∀ i' m, m / BSIZE < MAXFILE → (ino i').num k.block (m / BSIZE) ≠ 0 →
    (i' = i → m < off ∨ off + src.length ≤ m) →
    k'.fileByte (update ino i ip i') m = k.fileByte (ino i') m
  iblock : ∀ n, n < k.sb.ninodes → k'.block (IBLOCK n k.sb) = k.block (IBLOCK n k.sb)
  sb : k'.sb = k.sb
  present : (∀ m, off ≤ m → m < off + src.length → (ino i).num k.block (m / BSIZE) ≠ 0) → ip = ino i

section

variable {k : Disk} {ino : Nat → Dinode} {i off : Nat}

theorem written_nil (h : k.Owned ino) : Written k ino i off [] (ino i) k := by
  have hsame : update ino i (ino i) = ino := update_eq_self i ino
  refine ⟨hsame.symm ▸ h, rfl, fun _ _ => rfl, ?_, ?_, ?_, fun _ _ _ => rfl, ?_, fun _ _ => rfl,
    rfl, fun _ => rfl⟩
  · intro m hge hlt
    rw [length_nil] at hlt
    omega
  · intro m hge hlt
    rw [length_nil] at hlt
    omega
  · intro i' j _
    rw [hsame]
  · intro i' m _ _ _
    rw [hsame]

theorem written_block {addr : Nat} {ip : Dinode} {k1 : Disk} (src : List UInt8)
    (h : Bmapped k ino i (off / BSIZE) addr ip k1) (hoff : off / BSIZE < MAXFILE)
    (hpos : 0 < src.length) (hsrc : off % BSIZE + src.length ≤ BSIZE) :
    Written k ino i off src ip (k1.write addr (store (k1.block addr) (off % BSIZE) src)) := by
  have hself : (update ino i ip i).num k1.block (off / BSIZE) = addr := by
    rw [update_self]
    exact h.num
  have hne : (update ino i ip i).num k1.block (off / BSIZE) ≠ 0 := by
    rw [hself]
    exact h.ne
  have hnum := h.owned.num_write hoff (i := i) (store (k1.block addr) (off % BSIZE) src)
  have howned := h.owned.write_data hoff hne (store (k1.block addr) (off % BSIZE) src)
  have hinj (i' j : Nat) (hzero : (update ino i ip i').num k1.block j ≠ 0)
      (heq : (update ino i ip i').num k1.block j = addr) : i' = i ∧ j = off / BSIZE :=
    h.owned.inj hzero (heq.trans hself.symm)
  rw [hself] at hnum howned
  have hnumi (j : Nat) : ip.num (k1.write addr (store (k1.block addr) (off % BSIZE) src)).block j =
      ip.num k1.block j := by
    have hi := hnum i j
    rwa [update_self] at hi
  have hother (c : Nat) (hc : c ≠ addr) :
      (k1.write addr (store (k1.block addr) (off % BSIZE) src)).block c = k1.block c :=
    update_of_ne hc _ _
  have hblock : (k1.write addr (store (k1.block addr) (off % BSIZE) src)).block addr =
      store (k1.block addr) (off % BSIZE) src := update_self _ _ _
  have hin (m : Nat) (hge : off ≤ m) (hlt : m < off + src.length) :
      m / BSIZE = off / BSIZE ∧ m % BSIZE = off % BSIZE + (m - off) := by
    unfold BSIZE at *
    omega
  refine ⟨howned, h.fields, h.rest, ?_, ?_, ?_, ?_, ?_, ?_, h.sb, ?_⟩
  · intro m hge hlt
    rw [hnumi, (hin m hge hlt).1, h.num]
    exact h.ne
  · intro m hge hlt
    obtain ⟨hdiv, hmod⟩ := hin m hge hlt
    unfold Disk.fileByte
    rw [hnumi, hdiv, h.num, hblock, hmod]
    exact store_inside (by omega)
  · intro i' j hzero
    rw [hnum, h.kept i' j hzero]
  · intro i' j hi
    have hsame := hnum i' j
    have hold := h.others i' j fun heq => absurd heq hi
    rw [update_of_ne hi] at hsame hold
    rw [hsame, hold]
  · intro i' m hm hzero hout
    have hkept := h.kept i' (m / BSIZE) hzero
    unfold Disk.fileByte
    rw [hnum, hkept]
    by_cases haddr : (ino i').num k.block (m / BSIZE) = addr
    · obtain ⟨rfl, hdiv⟩ := hinj i' (m / BSIZE) (hkept.symm ▸ hzero) (hkept.trans haddr)
      have hbytes := h.bytes i' (m / BSIZE) hm hzero
      rw [haddr] at hbytes ⊢
      have hm' := hout rfl
      rw [hblock, store_outside, hbytes]
      unfold BSIZE at *
      omega
    · rw [hother _ haddr, h.bytes i' (m / BSIZE) hm hzero]
  · intro n hn
    have hmeta : ¬ k1.sb.Meta addr := by
      have hown := (h.owned.num_own hne).2.1
      rwa [hself] at hown
    rw [hother, h.iblock n hn]
    rintro rfl
    rw [h.sb] at hmeta
    have hsane := h.owned.sane
    rw [h.sb] at hsane
    exact hmeta (hsane.meta_iblock hn)
  · intro hall
    exact (h.present (hall off (Nat.le_refl _) (by omega))).1

theorem Written.trans {src src' : List UInt8} {ip ip' : Dinode} {k1 k' : Disk}
    (hsize : off + (src ++ src').length ≤ MAXFILE * BSIZE) (h : Written k ino i off src ip k1)
    (h' : Written k1 (update ino i ip) i (off + src.length) src' ip' k') :
    Written k ino i off (src ++ src') ip' k' := by
  have howned := h'.owned
  have hfields := h'.fields
  have hrest := h'.rest
  have hkept := h'.kept
  have hothers := h'.others
  have hbytes := h'.bytes
  have hpresent := h'.present
  simp only [update_idem, update_self] at howned hfields hrest hkept hbytes
  simp only [update_self] at hpresent
  rw [length_append] at hsize
  have hbound {m : Nat} (hm : m < off + (src.length + src'.length)) : m / BSIZE < MAXFILE := by
    unfold BSIZE at *
    omega
  have hkeep (j : Nat) (hne : ip.num k1.block j ≠ 0) : ip'.num k'.block j = ip.num k1.block j := by
    have hi := hkept i j (by rwa [update_self])
    simpa only [update_self] using hi
  have hthere (i' j : Nat) (hne : (ino i').num k.block j ≠ 0) :
      (update ino i ip i').num k1.block j ≠ 0 := by
    rw [h.kept i' j hne]
    exact hne
  refine ⟨howned, ?_, ?_, ?_, ?_, ?_, ?_, ?_, ?_, h'.sb.trans h.sb, ?_⟩
  · rw [hfields, h.fields]
  · intro j hj
    rw [hrest j hj, h.rest j hj]
  · intro m hge hlt
    rw [length_append] at hlt
    by_cases hfirst : m < off + src.length
    · have hne := h.blocks m hge hfirst
      rw [hkeep _ hne]
      exact hne
    · exact h'.blocks m (by omega) (by omega)
  · intro m hge hlt
    rw [length_append] at hlt
    by_cases hfirst : m < off + src.length
    · have hsame := hbytes i m (hbound hlt) (by
        rw [update_self]
        exact h.blocks m hge hfirst) fun _ => .inl hfirst
      simp only [update_self] at hsame
      rw [hsame, h.self m hge hfirst, getD_append _ _ _ _ (by omega)]
    · rw [h'.self m (by omega) (by omega), getD_append_right _ _ _ _ (by omega), Nat.sub_sub]
  · intro i' j hne
    rw [hkept i' j (hthere i' j hne), h.kept i' j hne]
  · intro i' j hi
    have hsecond := hothers i' j hi
    rw [update_of_ne hi] at hsecond
    rw [hsecond, h.others i' j hi]
  · intro i' m hm hne hout
    rw [length_append] at hout
    have hsecond := hbytes i' m hm (hthere i' _ hne) fun hi => by
      have hpart := hout hi
      omega
    rw [hsecond]
    apply h.bytes i' m hm hne
    intro hi
    have hpart := hout hi
    omega
  · intro n hn
    have hsecond := h'.iblock n (h.sb ▸ hn)
    rw [h.sb] at hsecond
    rw [hsecond, h.iblock n hn]
  · intro hall
    rw [length_append] at hall
    have hfirst := h.present fun m hge hlt => hall m hge (by omega)
    rw [← hfirst]
    apply hpresent
    intro m hge hlt
    have hne := hthere i _ (hall m (by omega) (by omega))
    rwa [update_self] at hne

theorem writeiLoop_spec (h : k.Owned ino) (src : List UInt8)
    (hsize : off + src.length ≤ MAXFILE * BSIZE) :
    Yields (· = .balloc) (fun r => Written k ino i off src r.1 r.2)
      (writeiLoop k (ino i) off src) := by
  -- by induction on the number of bytes that are left
  induction hlen : src.length using Nat.strong_induction_on generalizing k ino off src with
  | _ n ih =>
  rw [writeiLoop]
  split
  · next hnil =>
    subst hnil
    exact yields_ok (written_nil h)
  · next hne =>
    obtain ⟨hlength, hpos, hle, hlt, htake, _⟩ := inBlock_split hne hsize
    refine (bmap_spec h hlt).bind ?_
    rintro ⟨addr, ip, k1⟩ hmap
    have hblock := written_block (src.take (inBlock off src.length)) hmap hlt (by omega) (by
      rw [htake]
      unfold inBlock BSIZE
      omega)
    have hfit : off + inBlock off src.length + (src.drop (inBlock off src.length)).length ≤
        MAXFILE * BSIZE := by
      rw [length_drop]
      omega
    have hrest := ih (src.drop (inBlock off src.length)).length (by
      rw [length_drop]
      omega) hblock.owned (src.drop (inBlock off src.length)) hfit rfl
    rw [update_self] at hrest
    refine hrest.weaken fun r hr => ?_
    have hsplit : src.take (inBlock off src.length) ++ src.drop (inBlock off src.length) = src :=
      take_append_drop _ _
    rw [← hsplit] at hsize ⊢
    exact Written.trans hsize hblock (by rw [htake]; exact hr)

end

def Disk.OnDisk (k : Disk) (ino : Nat → Dinode) : Prop :=
  ∀ n, n < k.sb.ninodes → Dinode.read (k.block (IBLOCK n k.sb)) (Dinode.slot n) = ino n

section

variable {k : Disk} {ino : Nat → Dinode} {i : Nat} {ip : Dinode}

theorem iupdate_block {c : Nat} (hc : c ≠ IBLOCK i k.sb) :
    (iupdate k i ip).block c = k.block c := update_of_ne hc _ _

theorem iupdate_sb : (iupdate k i ip).sb = k.sb := rfl

theorem iupdate_data (hs : k.sb.Sane) (hi : i < k.sb.ninodes) {c : Nat} (hc : ¬ k.sb.Meta c) :
    (iupdate k i ip).block c = k.block c := by
  apply iupdate_block
  rintro rfl
  exact hc (hs.meta_iblock hi)

theorem iupdate_num (h : k.Owned ino) (hi : i < k.sb.ninodes) (i' j : Nat) :
    (ino i').num (iupdate k i ip).block j = (ino i').num k.block j := by
  apply num_congr
  intro hne
  exact iupdate_data h.sane hi (h.num_own (i := i') (j := MAXFILE) hne).2.1

theorem iupdate_fileByte (h : k.Owned ino) (hi : i < k.sb.ninodes) {i' m : Nat}
    (hne : (ino i').num k.block (m / BSIZE) ≠ 0) :
    (iupdate k i ip).fileByte (ino i') m = k.fileByte (ino i') m := by
  unfold Disk.fileByte
  rw [iupdate_num h hi, iupdate_data h.sane hi (h.num_own hne).2.1]

theorem iupdate_owned (h : k.Owned ino) (hi : i < k.sb.ninodes) : (iupdate k i ip).Owned ino := by
  have hused (c : Nat) : (iupdate k i ip).inUse c = k.inUse c := by
    unfold Disk.inUse
    rw [iupdate_sb, iupdate_block (h.sane.apart hi c).symm]
  refine ⟨h.sane, ?_, ?_, ?_⟩
  · rw [iupdate_block (Nat.ne_of_lt (h.sane.iblock_lt hi).1)]
    exact h.super
  · intro c hc hm
    rw [hused c]
    exact h.reserved c hc hm
  · apply h.owners.congr
    · intro c
      rw [hused c]
      rfl
    · intro ij
      exact iupdate_num h hi ij.1 ij.2

theorem iupdate_onDisk (h : k.OnDisk ino) (hfits : ip.Fits) :
    (iupdate k i ip).OnDisk (update ino i ip) := by
  intro n hn
  rw [iupdate_sb] at hn ⊢
  have hold := h n hn
  by_cases hni : n = i
  · subst hni
    rw [update_self]
    change Dinode.read (update k.block _ _ _) _ = _
    rw [update_self]
    exact Dinode.read_overlay _ _ hfits
  · rw [update_of_ne hni]
    by_cases hblock : IBLOCK n k.sb = IBLOCK i k.sb
    · change Dinode.read (update k.block _ _ _) _ = _
      rw [hblock, update_self, Dinode.read_outside, ← hblock]
      · exact hold
      · apply slot_disjoint _ hni
        unfold IBLOCK at hblock
        omega
    · rw [iupdate_block hblock]
      exact hold

end

structure WriteiDone (k : Disk) (ino : Nat → Dinode) (i off : Nat) (src : List UInt8)
    (r : Int × Dinode × Disk) : Prop where
  result : r.1 = src.length
  owned : r.2.2.Owned (update ino i r.2.1)
  fields : r.2.1 = { ino i with
    size := max (ino i).size (off + src.length), addrs := r.2.1.addrs }
  fits : r.2.1.Fits
  holeFree : r.2.2.HoleFree r.2.1
  contents : r.2.2.contents r.2.1 = (k.contents (ino i)).take off ++ src ++
    (k.contents (ino i)).drop (off + src.length)
  others : ∀ i', i' ≠ i → k.HoleFree (ino i') →
    r.2.2.HoleFree (ino i') ∧ r.2.2.contents (ino i') = k.contents (ino i')
  onDisk : k.OnDisk ino → r.2.2.OnDisk (update ino i r.2.1)
  sb : r.2.2.sb = k.sb

section

variable {k : Disk} {ino : Nat → Dinode} {i off : Nat} {src : List UInt8} {ip : Dinode} {k' : Disk}

theorem contents_length (k : Disk) (ip : Dinode) : (k.contents ip).length = ip.size := by
  simp [Disk.contents]

theorem contents_getElem {m : Nat} (hm : m < (k.contents ip).length) :
    (k.contents ip)[m] = k.fileByte ip m := by
  simp [Disk.contents]

theorem Disk.HoleFree.block (h : k.HoleFree ip) {m : Nat} (hm : m < ip.size) :
    m / BSIZE < MAXFILE ∧ ip.num k.block (m / BSIZE) ≠ 0 := by
  have hsize := h.size
  refine ⟨?_, h.blocks _ ?_⟩
  · unfold BSIZE at *
    omega
  · unfold BSIZE
    omega

theorem Written.fits (h : Written k ino i off src ip k') (hfits : (ino i).Fits) : ip.Fits := by
  have hsmall := h.owned.sane.size
  have haddrs (j : Nat) : ip.addrs j < 4294967296 := by
    have hbound (e : Nat) (hne : ip.num k'.block e ≠ 0) : ip.num k'.block e < 4294967296 := by
      have hown := h.owned.num_own (i := i) (j := e) (by rwa [update_self])
      rw [update_self] at hown
      omega
    by_cases hzero : ip.addrs j = 0
    · omega
    · rcases Nat.lt_trichotomy j NDIRECT with hj | rfl | hj
      · rw [← num_direct hj] at hzero ⊢
        exact hbound j hzero
      · exact hbound MAXFILE hzero
      · rw [h.rest j hj]
        exact hfits.addrs j
  rw [h.fields]
  exact ⟨hfits.type, hfits.major, hfits.minor, hfits.nlink, hfits.size, haddrs,
    fun j hj => (h.rest j hj).trans (hfits.rest j hj)⟩

theorem Written.blocks_all (h : Written k ino i off src ip k') (hfree : k.HoleFree (ino i))
    (hoff : off ≤ (ino i).size) {m : Nat} (hm : m < max (ino i).size (off + src.length)) :
    ip.num k'.block (m / BSIZE) ≠ 0 := by
  by_cases hin : off ≤ m ∧ m < off + src.length
  · exact h.blocks m hin.1 hin.2
  · have hne := (hfree.block (show m < (ino i).size by omega)).2
    have hkept := h.kept i _ hne
    rw [update_self] at hkept
    rw [hkept]
    exact hne

theorem Written.contents_eq (h : Written k ino i off src ip k') (hfree : k.HoleFree (ino i))
    (hoff : off ≤ (ino i).size) :
    (List.range (max (ino i).size (off + src.length))).map (k'.fileByte ip) =
      (k.contents (ino i)).take off ++ src ++ (k.contents (ino i)).drop (off + src.length) := by
  have hkept {m : Nat} (hlt : m < (ino i).size) (hout : m < off ∨ off + src.length ≤ m) :
      k'.fileByte ip m = k.fileByte (ino i) m := by
    obtain ⟨hbn, hne⟩ := hfree.block hlt
    have hsame := h.bytes i m hbn hne fun _ => hout
    rwa [update_self] at hsame
  have hlength := contents_length k (ino i)
  have htake : ((k.contents (ino i)).take off).length = off := by
    rw [length_take, hlength, Nat.min_eq_left hoff]
  apply ext_getElem
  · simp only [length_map, length_range, length_append, htake, length_drop, hlength]
    omega
  · intro m hm hm'
    rw [length_map, length_range] at hm
    rw [getElem_map, getElem_range]
    by_cases hfirst : m < off
    · rw [getElem_append_left (by rw [length_append, htake]; omega),
        getElem_append_left (by omega), getElem_take, contents_getElem]
      exact hkept (by omega) (Or.inl hfirst)
    · by_cases hsecond : m < off + src.length
      · rw [getElem_append_left (by rw [length_append, htake]; omega),
          getElem_append_right (by omega), h.self m (by omega) hsecond]
        simp only [htake]
        rw [getD_eq_getElem _ _ (by omega)]
      · rw [getElem_append_right (by rw [length_append, htake]; omega),
          getElem_drop, contents_getElem, hkept (by omega) (Or.inr (by omega))]
        congr 1
        rw [length_append, htake]
        omega

theorem Written.other (h : Written k ino i off src ip k') {i' : Nat} (hi : i' ≠ i)
    (hfree : k.HoleFree (ino i')) :
    k'.HoleFree (ino i') ∧ k'.contents (ino i') = k.contents (ino i') := by
  refine ⟨⟨hfree.size, fun j hj => ?_⟩, ?_⟩
  · rw [h.others i' j hi]
    exact hfree.blocks j hj
  · apply map_congr_left
    intro m hm
    obtain ⟨hbn, hne⟩ := hfree.block (mem_range.mp hm)
    have hsame := h.bytes i' m hbn hne fun heq => absurd heq hi
    rwa [update_of_ne hi] at hsame

theorem iupdate_contents (h : k.Owned ino) (hi : i < k.sb.ninodes) (d : Dinode) {n : Nat}
    (hfree : k.HoleFree (ino n)) :
    (iupdate k i d).HoleFree (ino n) ∧ (iupdate k i d).contents (ino n) = k.contents (ino n) := by
  refine ⟨⟨hfree.size, fun j hj => ?_⟩, ?_⟩
  · rw [iupdate_num h hi]
    exact hfree.blocks j hj
  · apply map_congr_left
    intro m hm
    exact iupdate_fileByte h hi (hfree.block (mem_range.mp hm)).2

theorem writei_spec (devsw : Devsw) (h : k.Owned ino) (hi : i < k.sb.ninodes)
    (htype : (ino i).type ≠ T_DEV) (hfits : (ino i).Fits) (hfree : k.HoleFree (ino i))
    (hoff : off ≤ (ino i).size) (hsize : off + src.length ≤ MAXFILE * BSIZE) :
    Yields (· = .balloc) (WriteiDone k ino i off src) (writei devsw k i (ino i) off src) := by
  have hmax : MAXFILE * BSIZE < 4294967296 := by decide
  unfold writei
  rw [if_neg htype, if_neg (by omega), if_neg (by omega)]
  refine (writeiLoop_spec h src hsize).bind ?_
  rintro ⟨ip, k'⟩ hw
  dsimp only at hw ⊢
  have hipsize : ip.size = (ino i).size := by rw [hw.fields]
  have hblocks {j : Nat} (hj : j * BSIZE < max (ino i).size (off + src.length)) :
      ip.num k'.block j ≠ 0 := by
    have hne := hw.blocks_all hfree hoff hj
    rwa [Nat.mul_div_cancel j (by decide)] at hne
  split
  · next hgrow =>
    have hnew : off + src.length = max (ino i).size (off + src.length) := by omega
    have hfits' : Dinode.Fits { ip with size := off + src.length } :=
      (hw.fits hfits).setSize (by omega)
    -- the size is no matter of the blocks
    have howned : k'.Owned (update ino i { ip with size := off + src.length }) := by
      refine ⟨hw.owned.sane, hw.owned.super, hw.owned.reserved, ?_⟩
      apply hw.owned.owners.congr (fun _ => Iff.rfl)
      rintro ⟨n, j⟩
      by_cases hn : n = i
      · subst hn
        simp only [update_self]
        rfl
      · simp only [update_of_ne hn]
    have hi' : i < k'.sb.ninodes := by rw [hw.sb]; exact hi
    have hhole : k'.HoleFree (update ino i { ip with size := off + src.length } i) := by
      rw [update_self]
      exact ⟨hsize, fun j hj => hblocks (by rw [← hnew]; exact hj)⟩
    have hcontents : k'.contents { ip with size := off + src.length } =
        (k.contents (ino i)).take off ++ src ++ (k.contents (ino i)).drop (off + src.length) := by
      rw [← hw.contents_eq hfree hoff, ← hnew]
      rfl
    have hself := iupdate_contents howned hi' { ip with size := off + src.length } hhole
    rw [update_self, hcontents] at hself
    apply yields_ok
    refine ⟨rfl, iupdate_owned howned hi', ?_, hfits', hself.1, hself.2, ?_, ?_, hw.sb⟩
    · rw [← hnew, hw.fields]
    · intro n hn hfree'
      obtain ⟨hhole', hsame⟩ := hw.other hn hfree'
      have hother := iupdate_contents howned hi' { ip with size := off + src.length }
        (n := n) (by rwa [update_of_ne hn])
      rw [update_of_ne hn, hsame] at hother
      exact hother
    · intro hdisk
      have hdisk' : k'.OnDisk ino := by
        intro n hn
        rw [hw.sb] at hn ⊢
        rw [hw.iblock n hn]
        exact hdisk n hn
      exact iupdate_onDisk hdisk' hfits'
  · next hstay =>
    have hold : (ino i).size = max (ino i).size (off + src.length) := by omega
    -- without a new byte there is no new block
    have hsame : ip = ino i := by
      apply hw.present
      intro m hge hlt
      exact (hfree.block (by omega)).2
    subst hsame
    have hcontents := hw.contents_eq hfree hoff
    have hhole : k'.HoleFree (ino i) := ⟨hfree.size, fun j hj => hblocks (by rw [← hold]; exact hj)⟩
    rw [← hold] at hcontents
    apply yields_ok
    refine ⟨rfl, hw.owned, ?_, hfits, hhole, hcontents, fun n hn => hw.other hn, ?_, hw.sb⟩
    · rw [← hold]
    · intro hdisk n hn
      rw [hw.sb] at hn ⊢
      rw [hw.iblock n hn, update_eq_self]
      exact hdisk n hn

end

end Xv6.Fs

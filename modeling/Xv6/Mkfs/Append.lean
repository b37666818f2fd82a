import Xv6.Lib.Except
import Xv6.Mkfs.Layout

/-!
`iappend` adds bytes at the end of a file. What it needs is room in the file and
free blocks; what it leaves is the layout of the longer file.
-/

namespace Xv6.Mkfs

open Lib Fs Function List

/-- The blocks that a file of `len` bytes has numbers for. -/
def Uses (len j : Nat) : Prop :=
  (j < MAXFILE ∧ j * BSIZE < len) ∨ (j = MAXFILE ∧ NDIRECT * BSIZE < len)

def blocksOf (len : Nat) : Nat :=
  (len + (BSIZE - 1)) / BSIZE + if NDIRECT * BSIZE < len then 1 else 0

def fresh (off : Nat) : Nat :=
  if off % BSIZE = 0 then if off / BSIZE = NDIRECT then 2 else 1 else 0

theorem blocksOf_add {off n : Nat} (hpos : 0 < n) (hn : off % BSIZE + n ≤ BSIZE) :
    blocksOf (off + n) = blocksOf off + fresh off := by
  unfold blocksOf fresh BSIZE NDIRECT at *
  split_ifs <;> omega

theorem blocksOf_mono {m n : Nat} (h : m ≤ n) : blocksOf m ≤ blocksOf n := by
  unfold blocksOf BSIZE NDIRECT
  split_ifs <;> omega

theorem uses_add {off n : Nat} (hpos : 0 < n) (hn : off % BSIZE + n ≤ BSIZE)
    (hlt : off / BSIZE < MAXFILE) (j : Nat) :
    Uses (off + n) j ↔ Uses off j ∨ j = off / BSIZE ∨ (j = MAXFILE ∧ NDIRECT ≤ off / BSIZE) := by
  unfold Uses MAXFILE NINDIRECT BSIZE NDIRECT at *
  omega

theorem seek_of_lt {sec : Nat} (h : sec < 8388608) : seek sec = sec := by
  unfold seek BSIZE
  omega

theorem rsect_spec {img : Image} {sec : Nat} (hlen : img.len = FSSIZE) (hsec : sec < 8388608) :
    Succeeds (sec < FSSIZE) (fun buf => buf = img.sect sec ∧ sec < FSSIZE) (rsect img sec) := by
  unfold rsect
  rw [seek_of_lt hsec, hlen]
  split
  · next hlt => exact succeeds_ok ⟨rfl, hlt⟩
  · next hlt => exact succeeds_error hlt

theorem wsect_of_lt {img : Image} {sec : Nat} (hlen : img.len = FSSIZE) (hsec : sec < FSSIZE)
    (buf : Bytes) : wsect img sec buf = ⟨update img.sect sec buf, FSSIZE⟩ := by
  have hsmall : sec < 8388608 := Nat.lt_trans hsec (by decide)
  unfold wsect
  rw [seek_of_lt hsmall, hlen, Nat.max_eq_left hsec]

structure Keeps (s s' : State) : Prop where
  len : s'.img.len = s.img.len
  freeinode : s'.freeinode = s.freeinode
  sect : ∀ b, b < nmeta → s'.img.sect b = s.img.sect b

theorem Keeps.refl (s : State) : Keeps s s := ⟨rfl, rfl, fun _ _ => rfl⟩

theorem Keeps.trans {s t u : State} (h : Keeps s t) (h' : Keeps t u) : Keeps s u :=
  ⟨h'.len.trans h.len, h'.freeinode.trans h.freeinode,
    fun b hb => (h'.sect b hb).trans (h.sect b hb)⟩

section

variable {s : State} {ino : Nat → Dinode} {data : Nat → List UInt8} {i off : Nat}

/-- The blocks of the files with the one for the next byte of `i`. -/
def HasNext (data : Nat → List UInt8) (i off : Nat) (i' j : Nat) : Prop :=
  Uses (data i').length j ∨ (i' = i ∧ (j = off / BSIZE ∨ (j = MAXFILE ∧ NDIRECT ≤ off / BSIZE)))

structure BlockPost (s : State) (ino : Nat → Dinode) (data : Nat → List UInt8) (i off : Nat)
    (r : Nat × Dinode × State) : Prop where
  num : r.1 = r.2.1.num r.2.2.img.sect (off / BSIZE)
  ne : r.1 ≠ 0
  layout : Layout r.2.2.img.sect r.2.2.freeblock (update ino i r.2.1) data
    (HasNext data i off)
  free : r.2.2.freeblock = s.freeblock + fresh off
  last : fresh off = 0 ∨ r.2.2.freeblock = r.1 + 1
  keeps : Keeps s r.2.2
  addrs : r.2.1 = { ino i with addrs := r.2.1.addrs }
  rest : ∀ k, NDIRECT < k → r.2.1.addrs k = (ino i).addrs k

theorem Layout.congr {block : Nat → Bytes} {hi : Nat} {Has Has' : Nat → Nat → Prop}
    (h : Layout block hi ino data Has) (heq : ∀ i j, Has i j ↔ Has' i j) :
    Layout block hi ino data Has' :=
  ⟨h.handed, fun i j => (h.has i j).trans (heq i j),
    fun i m hm => ⟨(h.covers i m hm).1, (heq _ _).mp (h.covers i m hm).2⟩, h.bytes, h.clear,
    h.lower⟩

theorem fresh_of_uses (h : Uses off (off / BSIZE)) (hlt : off / BSIZE < MAXFILE) :
    fresh off = 0 := by
  have hmod : ¬ off % BSIZE = 0 := by
    unfold Uses MAXFILE NINDIRECT BSIZE NDIRECT at *
    omega
  exact if_neg hmod

/-- The number that is there already. -/
theorem blockPost_of_num
    (h : Layout s.img.sect s.freeblock ino data fun i j => Uses (data i).length j)
    (hoff : (data i).length = off) (hlt : off / BSIZE < MAXFILE)
    (hne : (ino i).num s.img.sect (off / BSIZE) ≠ 0) :
    BlockPost s ino data i off ((ino i).num s.img.sect (off / BSIZE), ino i, s) := by
  have huses := (h.has i _).mp hne
  rw [hoff] at huses
  refine ⟨rfl, hne, ?_, ?_, .inl (fresh_of_uses huses hlt), .refl s, rfl, fun _ _ => rfl⟩
  · rw [update_eq_self]
    refine h.congr fun i' j => ⟨.inl, ?_⟩
    rintro (hu | ⟨rfl, rfl | ⟨rfl, hge⟩⟩)
    · exact hu
    · rwa [hoff]
    · rw [hoff]
      unfold Uses MAXFILE NINDIRECT BSIZE NDIRECT at *
      omega
  · rw [fresh_of_uses huses hlt]
    rfl

/-- A block is missing only where the file ends at a block boundary. -/
theorem aligned_of_num_zero
    (h : Layout s.img.sect s.freeblock ino data fun i j => Uses (data i).length j)
    (hoff : (data i).length = off) (hlt : off / BSIZE < MAXFILE)
    (hzero : (ino i).num s.img.sect (off / BSIZE) = 0) : off % BSIZE = 0 := by
  have hnot : ¬ Uses off (off / BSIZE) := by
    rw [← hoff, ← h.has i, hoff]
    exact not_not.mpr hzero
  unfold Uses MAXFILE NINDIRECT BSIZE NDIRECT at *
  omega

/-- A direct block, new or not. -/
theorem iappendBlock_direct
    (h : Layout s.img.sect s.freeblock ino data fun i j => Uses (data i).length j)
    (hoff : (data i).length = off) (hlt : off / BSIZE < MAXFILE)
    (hdirect : off / BSIZE < NDIRECT) :
    Succeeds (s.freeblock + fresh off ≤ FSSIZE) (BlockPost s ino data i off)
      (iappendBlock s (ino i) (off / BSIZE)) := by
  have hlower := h.lower
  have hpos := nmeta_pos
  unfold iappendBlock
  rw [if_pos hdirect]
  split
  · next hzero =>
    have hmod := aligned_of_num_zero h hoff hlt ((num_direct hdirect).trans hzero)
    have hne : s.freeblock ≠ 0 := by omega
    refine succeeds_ok ⟨?_, hne, (h.allocDirect hdirect hzero).congr fun i' j => ?_, ?_,
      Or.inr rfl, ⟨rfl, rfl, fun _ _ => rfl⟩, rfl,
      fun k hk => update_of_ne (by omega) _ _⟩
    · rw [num_direct hdirect]
      change _ = update (ino i).addrs _ _ _
      rw [update_self]
    · unfold HasNext
      rw [Prod.mk.injEq, or_comm]
      refine or_congr_right (and_congr_right fun _ => ⟨.inl, fun hor => hor.resolve_right ?_⟩)
      omega
    · unfold fresh
      rw [if_pos hmod, if_neg (Nat.ne_of_lt hdirect)]
  · next hne =>
    have hnum : (ino i).num s.img.sect (off / BSIZE) = (ino i).addrs (off / BSIZE) :=
      num_direct hdirect
    rw [← hnum] at hne ⊢
    exact succeeds_ok (blockPost_of_num h hoff hlt hne)

/-- The first block that is not direct takes the indirect block with it. -/
theorem iappendBlock_first (hlen : s.img.len = FSSIZE) (hfree : s.freeblock ≤ FSSIZE)
    (h : Layout s.img.sect s.freeblock ino data fun i j => Uses (data i).length j)
    (hoff : (data i).length = off) (hlt : off / BSIZE < MAXFILE)
    (hge : NDIRECT ≤ off / BSIZE) (hzero : (ino i).addrs NDIRECT = 0) :
    Succeeds (s.freeblock + fresh off ≤ FSSIZE) (BlockPost s ino data i off)
      (iappendBlock s (ino i) (off / BSIZE)) := by
  have hsmall : FSSIZE < 8388608 := by decide
  have hlower := h.lower
  have hpos := nmeta_pos
  unfold iappendBlock
  rw [if_neg (Nat.not_lt.mpr hge)]
  have hmod := aligned_of_num_zero h hoff hlt (num_word_none hge hlt hzero)
  have hexact : off / BSIZE = NDIRECT := by
    have hnot : ¬ Uses off MAXFILE := by
      rw [← hoff, ← h.has i]
      exact not_not.mpr hzero
    unfold Uses MAXFILE NINDIRECT BSIZE NDIRECT at *
    omega
  have hfresh : fresh off = 2 := by
    unfold fresh
    rw [if_pos hmod, if_pos hexact]
  have hind := h.allocIndirect hzero
  simp only [hzero, ↓reduceIte, update_self]
  refine (rsect_spec hlen (by omega)).bind (by omega) ?_
  rintro _ ⟨rfl, hin⟩
  rw [h.clear s.freeblock (Nat.le_refl _)]
  have hword : indirectWord zeroes (off / BSIZE - NDIRECT) = 0 := rfl
  rw [if_pos hword, wsect_of_lt hlen hin]
  have hword' := hind.allocWord (i := i) hge hlt
    (by rw [update_self]; simp only [update_self]; omega) (by
      rw [update_self, num_setIndirect hzero (h.clear _ (Nat.le_refl _)) (Nat.ne_of_lt hlt)]
      exact num_word_none hge hlt hzero) (by omega)
  simp only [update_self, h.clear s.freeblock (Nat.le_refl _)] at hword'
  refine succeeds_ok ⟨?_, by omega, hword'.congr fun i' j => ?_, ?_, .inr rfl,
    ⟨hlen.symm, rfl, fun b hb => ?_⟩, rfl, fun k hk => update_of_ne (by omega) _ _⟩
  · rw [num_word hge hlt (by simp only [update_self]; omega)]
    simp only [update_self]
    rw [indirectWord_overlay _ (by omega), if_pos rfl]
  · unfold HasNext
    rw [Prod.mk.injEq, Prod.mk.injEq]
    constructor
    · rintro (⟨rfl, rfl⟩ | ⟨rfl, rfl⟩ | hu)
      · exact .inr ⟨rfl, .inl rfl⟩
      · exact .inr ⟨rfl, .inr ⟨rfl, hge⟩⟩
      · exact .inl hu
    · rintro (hu | ⟨rfl, rfl | ⟨rfl, _⟩⟩)
      · exact .inr (Or.inr hu)
      · exact .inl ⟨rfl, rfl⟩
      · exact .inr (Or.inl ⟨rfl, rfl⟩)
  · rw [hfresh]
  · exact update_of_ne (by omega) _ _

/-- A block behind an indirect block that is there: its word is set, or is new. -/
theorem iappendBlock_word (hlen : s.img.len = FSSIZE) (hfree : s.freeblock ≤ FSSIZE)
    (h : Layout s.img.sect s.freeblock ino data fun i j => Uses (data i).length j)
    (hoff : (data i).length = off) (hlt : off / BSIZE < MAXFILE)
    (hge : NDIRECT ≤ off / BSIZE) (hzero : (ino i).addrs NDIRECT ≠ 0) :
    Succeeds (s.freeblock + fresh off ≤ FSSIZE) (BlockPost s ino data i off)
      (iappendBlock s (ino i) (off / BSIZE)) := by
  have hsmall : FSSIZE < 8388608 := by decide
  have hlower := h.lower
  have hpos := nmeta_pos
  unfold iappendBlock
  rw [if_neg (Nat.not_lt.mpr hge)]
  simp only [hzero, ↓reduceIte]
  have hbound := h.num_lt (i := i) (j := MAXFILE) hzero
  rw [num_indirect] at hbound
  refine (rsect_spec hlen (by omega)).bind (by omega) ?_
  rintro _ ⟨rfl, hin⟩
  split
  · next hword =>
    rw [← num_word hge hlt hzero] at hword
    have hmod := aligned_of_num_zero h hoff hlt hword
    rw [wsect_of_lt hlen hin]
    refine succeeds_ok ⟨?_, by omega, ?_, ?_, .inr rfl, ⟨hlen.symm, rfl, fun b hb => ?_⟩, rfl,
      fun _ _ => rfl⟩
    · dsimp only
      rw [num_word hge hlt hzero, update_self, indirectWord_overlay _ (by omega), if_pos rfl]
    · rw [update_eq_self]
      refine (h.allocWord hge hlt hzero hword (by omega)).congr fun i' j => ?_
      have huses : Uses (data i).length MAXFILE := (h.has i MAXFILE).mp hzero
      unfold HasNext
      rw [Prod.mk.injEq]
      constructor
      · rintro (⟨rfl, rfl⟩ | hu)
        · exact .inr ⟨rfl, .inl rfl⟩
        · exact .inl hu
      · rintro (hu | ⟨rfl, rfl | ⟨rfl, _⟩⟩)
        · exact .inr hu
        · exact .inl ⟨rfl, rfl⟩
        · exact .inr huses
    · have hne : off / BSIZE ≠ NDIRECT := by
        have huses : Uses off MAXFILE := hoff ▸ (h.has i MAXFILE).mp hzero
        unfold Uses MAXFILE NINDIRECT BSIZE NDIRECT at *
        omega
      unfold fresh
      rw [if_pos hmod, if_neg hne]
    · exact update_of_ne (by omega) _ _
  · next hne =>
    rw [← num_word hge hlt hzero] at hne ⊢
    exact succeeds_ok (blockPost_of_num h hoff hlt hne)

theorem iappendBlock_spec (hlen : s.img.len = FSSIZE) (hfree : s.freeblock ≤ FSSIZE)
    (h : Layout s.img.sect s.freeblock ino data fun i j => Uses (data i).length j)
    (hoff : (data i).length = off) (hlt : off / BSIZE < MAXFILE) :
    Succeeds (s.freeblock + fresh off ≤ FSSIZE) (BlockPost s ino data i off)
      (iappendBlock s (ino i) (off / BSIZE)) := by
  by_cases hdirect : off / BSIZE < NDIRECT
  · exact iappendBlock_direct h hoff hlt hdirect
  · have hge := Nat.not_lt.mp hdirect
    by_cases hzero : (ino i).addrs NDIRECT = 0
    · exact iappendBlock_first hlen hfree h hoff hlt hge hzero
    · exact iappendBlock_word hlen hfree h hoff hlt hge hzero

theorem chunk_le (off : Nat) (p : List UInt8) :
    off % BSIZE + chunk off p ≤ BSIZE ∧ chunk off p ≤ p.length := by
  unfold chunk BSIZE
  omega

/-- What one round of the loop, or the whole loop, has done when `added` is written. -/
structure AppendPost (s : State) (ino : Nat → Dinode) (data : Nat → List UInt8) (i : Nat)
    (added : List UInt8) (din : Dinode) (s' : State) : Prop where
  layout : Layout s'.img.sect s'.freeblock (update ino i din)
    (update data i (data i ++ added))
    fun i' j => Uses (update data i (data i ++ added) i').length j
  small : (data i ++ added).length ≤ MAXFILE * BSIZE
  blocks : s'.freeblock ≤ FSSIZE
  free : s'.freeblock + blocksOf (data i).length = s.freeblock + blocksOf (data i ++ added).length
  keeps : Keeps s s'
  addrs : din = { ino i with addrs := din.addrs }
  rest : ∀ k, NDIRECT < k → din.addrs k = (ino i).addrs k

theorem iappendStep_spec (hlen : s.img.len = FSSIZE) (hfree : s.freeblock ≤ FSSIZE)
    (h : Layout s.img.sect s.freeblock ino data fun i j => Uses (data i).length j)
    (hoff : (data i).length = off) {p : List UInt8} (hp : p ≠ []) :
    Succeeds (off / BSIZE < MAXFILE ∧ s.freeblock + fresh off ≤ FSSIZE)
      (fun r => AppendPost s ino data i (p.take (chunk off p)) r.1 r.2)
      (iappendStep s (ino i) off p) := by
  obtain ⟨hfit, hchunk⟩ := chunk_le off p
  have hpos := chunk_pos off hp
  unfold iappendStep
  by_cases hmax : MAXFILE ≤ off / BSIZE
  · simp only [hmax, ↓reduceIte]
    exact succeeds_error (by omega)
  · have hlt := Nat.not_le.mp hmax
    simp only [hmax, ↓reduceIte]
    refine ((iappendBlock_spec hlen hfree h hoff hlt).bind And.right ?_)
    rintro ⟨x, din, s'⟩ ⟨hnum, hne, hlayout, hfree', hlast, hkeeps, haddrs, hrest⟩
    dsimp only at hnum hne hlayout hfree' hlast hkeeps haddrs ⊢
    have hlen' := hkeeps.len.trans hlen
    have hfresh : fresh off ≤ 2 := by
      unfold fresh
      split_ifs <;> omega
    have hsmall : FSSIZE + 2 < 8388608 := by decide
    -- the block of the bytes is one of those handed out
    have hself : (update ino i din i).num s'.img.sect (off / BSIZE) = x := by
      rw [update_self, hnum]
    have hbound := hlayout.num_lt (hself.symm ▸ hne)
    rw [hself] at hbound
    refine (rsect_spec hlen' (by omega)).bind (by omega) ?_
    rintro _ ⟨rfl, hin⟩
    rw [wsect_of_lt hlen' hin]
    have hmod : off - off / BSIZE * BSIZE = off % BSIZE := by
      unfold BSIZE
      omega
    have hwrite := hlayout.write (i := i) hlt (hself.symm ▸ hne) (o := off % BSIZE)
      (n := chunk off p) (p := p) (by rw [hoff]; unfold BSIZE; omega) hfit hchunk
    rw [hself] at hwrite
    have htake : (p.take (chunk off p)).length = chunk off p := by
      rw [length_take, Nat.min_eq_left hchunk]
    have hnewlen : (data i ++ p.take (chunk off p)).length = off + chunk off p := by
      rw [length_append, hoff, htake]
    refine succeeds_ok ⟨?_, ?_, ?_, ?_, ?_, haddrs, hrest⟩
    · dsimp only
      rw [hmod]
      refine hwrite.congr fun i' j => ?_
      unfold HasNext
      by_cases hi' : i' = i
      · subst hi'
        rw [update_self, hnewlen, uses_add hpos hfit hlt, hoff]
        simp
      · rw [update_of_ne hi']
        simp [hi']
    · rw [hnewlen]
      unfold BSIZE at *
      omega
    · dsimp only
      omega
    · rw [hnewlen, hoff, blocksOf_add hpos hfit, hfree']
      omega
    · refine hkeeps.trans ⟨hlen'.symm, rfl, fun b hb => ?_⟩
      exact update_of_ne (by omega) _ _

theorem AppendPost.trans {p q : List UInt8} {din din' : Dinode} {s' s'' : State}
    (h : AppendPost s ino data i p din s')
    (h' : AppendPost s' (update ino i din) (update data i (data i ++ p)) i q din'
      s'') :
    AppendPost s ino data i (p ++ q) din' s'' := by
  have hfree := h.free
  have hlayout := h'.layout
  have hsmall := h'.small
  have hfree' := h'.free
  have haddrs := h'.addrs
  have hrest := h'.rest
  simp only [update_self, update_idem, append_assoc] at hlayout hsmall hfree'
  simp only [update_self] at haddrs hrest
  refine ⟨hlayout, hsmall, h'.blocks, by omega, h.keeps.trans h'.keeps, ?_, fun k hk => ?_⟩
  · rw [haddrs, h.addrs]
  · rw [hrest k hk, h.rest k hk]

theorem iappendLoop_spec (p : List UInt8) (hlen : s.img.len = FSSIZE) (hfree : s.freeblock ≤ FSSIZE)
    (h : Layout s.img.sect s.freeblock ino data fun i j => Uses (data i).length j)
    (hoff : (data i).length = off) (hsmall : (data i).length ≤ MAXFILE * BSIZE) :
    Succeeds (off + p.length ≤ MAXFILE * BSIZE ∧
        s.freeblock + blocksOf (off + p.length) ≤ FSSIZE + blocksOf off)
      (fun r => AppendPost s ino data i p r.1 r.2.2 ∧ r.2.1 = off + p.length)
      (iappendLoop s (ino i) off p) := by
  -- by induction on the number of bytes that are left
  induction hn : p.length using Nat.strong_induction_on generalizing s ino data off p with
  | _ n ih =>
  rw [← hn, iappendLoop]
  split
  · next hp =>
    subst hp
    refine succeeds_ok ⟨⟨?_, ?_, hfree, ?_, .refl s, rfl, fun _ _ => rfl⟩, rfl⟩
    · simpa only [append_nil, update_eq_self] using h
    · rwa [append_nil]
    · rw [append_nil]
  · next hp =>
    obtain ⟨hfit, hchunk⟩ := chunk_le off p
    have hpos := chunk_pos off hp
    have hblocks := blocksOf_add hpos hfit
    have hmono := blocksOf_mono (Nat.add_le_add_left hchunk off)
    refine (iappendStep_spec hlen hfree h hoff hp).bind (fun hd => ⟨?_, ?_⟩) ?_
    · have hplen := length_pos_iff.mpr hp
      unfold BSIZE at *
      omega
    · omega
    · rintro ⟨din, s'⟩ hpost
      have htake : (p.take (chunk off p)).length = chunk off p := by
        rw [length_take, Nat.min_eq_left hchunk]
      have hplen := length_pos_iff.mpr hp
      have hoff' : (update data i (data i ++ p.take (chunk off p)) i).length =
          off + chunk off p := by
        rw [update_self, length_append, hoff, htake]
      have hrest := ih (p.drop (chunk off p)).length (by rw [length_drop]; omega)
        (p.drop (chunk off p)) (hpost.keeps.len.trans hlen) hpost.blocks hpost.layout hoff'
        (by rw [update_self]; exact hpost.small) rfl
      rw [update_self, length_drop] at hrest
      have hfree' := hpost.free
      rw [length_append, hoff, htake] at hfree'
      have hsum : off + chunk off p + (p.length - chunk off p) = off + p.length := by omega
      rw [hsum] at hrest
      refine hrest.weaken (by omega) ?_
      rintro ⟨din', off', s''⟩ ⟨hpost', hend⟩
      have hall := hpost.trans hpost'
      rw [take_append_drop] at hall
      exact ⟨hall, hend⟩

end

end Xv6.Mkfs

import Xv6.Vm.Copyout

/-!
The image that `exec` has before it pushes the arguments. On every file the
loader ends without a panic, with -1 or with an image, because the pages below
`sz` are exactly the ones that are mapped: `allocuvm` maps absent pages only,
and `loaduvm` finds the pages of a segment that passed the checks.

User memory is followed as a function of the address. `allocuvm` does not
change it, a page not mapped counting as zero, and a segment is stored into it
like a list of bytes, so that the image is what the segments of the file leave
in zeroed memory, one after the other.
-/

namespace Xv6.Vm

open Lib Kernel List Multiset PageDir

/-- What `exec` has built when it comes to the arguments. -/
structure Image where
  entry : Nat
  pgdir : PageDir
  guard : Nat
  sz : Nat

/-- `exec` up to the arguments; `none` after a failure, with everything freed. -/
def loadImage (L : Layout) (k : Kmem) (ip : List UInt8) : Except Halt (Option Image × Kmem) := do
  let (loaded, k) ← execLoad L k ip
  match loaded with
  | none => return (none, k)
  | some elf =>
    let (stack, k) ← allocStack L k elf.pgdir (PGROUNDUP elf.sz)
    return (stack.map fun pages => ⟨elf.entry, pages.1, PGROUNDUP elf.sz, pages.2⟩, k)

instance (ph : ProgHdr) : Decidable ph.Loadable := by
  unfold ProgHdr.Loadable
  infer_instance

/-- The `n` program headers from `off` on, as far as the file has them. -/
def progHdrs (ip : List UInt8) : Nat → Nat → List ProgHdr
  | 0, _ => []
  | n + 1, off =>
    (readExact ip off proghdrSize).elim [] fun b =>
      decodeProgHdr b :: progHdrs ip n (u32 (off + proghdrSize))

def segments (ip : List UInt8) : List ProgHdr :=
  (readExact ip 0 elfhdrSize).elim [] fun b =>
    (progHdrs ip (decodeElfHdr b).phnum (decodeElfHdr b).phoff).filter fun ph => ph.Loadable

/-- The bytes a segment has in the file, with the address they go to. -/
def ProgHdr.part (ip : List UInt8) (ph : ProgHdr) : Nat × List UInt8 :=
  (ph.vaddr, (ip.drop ph.off).take ph.filesz)

def ProgHdr.memEnd (ph : ProgHdr) : Nat := ph.vaddr + ph.memsz

def grownTo (sz : Nat) (segs : List ProgHdr) : Nat :=
  segs.foldl (fun sz ph => max sz ph.memEnd) sz

/-! ### Memory -/

variable {L : Layout} {k k' : Kmem} {d d' : PageDir} {ip : List UInt8} {sz top addr offset : Nat}

theorem allocuvm_byte {oldsz newsz r : Nat}
    (h : allocuvm L k d oldsz newsz = .ok (r, d', k')) (hr : r ≠ 0)
    (hnodup : (d.pages + k.free).Nodup) {x : Nat} (hx : x < KERNBASE) :
    d'.byte k' x = d.byte k x := by
  obtain ⟨hzero, _⟩ | ⟨_, rfl, rfl, _⟩ | ⟨_, _, _, hgrown⟩ | ⟨hzero, _⟩ := allocuvm_spec h
  · exact absurd hzero hr
  · rfl
  · have hx32 := lt_32_of_user hx
    by_cases hnew : PGROUNDUP oldsz ≤ x ∧ PGROUNDDOWN x < newsz
    · obtain ⟨f, hf, hzero⟩ := hgrown.fresh x hx32 hnew.1 hnew.2
      rw [byte_some hf, byte_none (hgrown.absent x hx32 hnew.1 hnew.2), hzero]
    · have hkept := hgrown.kept x hx32 hnew
      cases he : d.entry x with
      | none => rw [byte_none he, byte_none (hkept.trans he)]
      | some e =>
        have hframe : e.addr ∈ d.pages := by
          rw [PageDir.pages_eq]
          exact mem_add.mpr
            (Or.inr (mem_userFrames.mpr ⟨x, hx, e, he, rfl⟩))
        have hused : e.addr ∉ k.free := Multiset.disjoint_left.mp (nodup_add.mp hnodup).2.2 hframe
        rw [byte_some he, byte_some (hkept.trans he), hgrown.mem _ hused]
  · exact absurd hzero hr

theorem Confined.byte {own : Multiset Nat} (h : Confined own k k')
    (hused : ∀ f ∈ d.userFrames, f ∉ own) {x : Nat} (hx : x < KERNBASE) :
    d.byte k' x = d.byte k x := by
  cases he : d.entry x with
  | none => rw [byte_none he, byte_none he]
  | some e =>
    have hframe : e.addr ∈ d.userFrames := mem_userFrames.mpr ⟨x, hx, e, he, rfl⟩
    rw [byte_some he, byte_some he, h e.addr (hused e.addr hframe)]

theorem readi_some {off n : Nat} {b : List UInt8} (h : readi ip off n = some b)
    (hoff : off < 2 ^ 32) (hn : n < 2 ^ 32) : b = (ip.drop off).take n ∧ off + n < 2 ^ 32 := by
  unfold readi at h
  split at h
  · cases h
  · next hbounds =>
    cases h
    refine ⟨rfl, ?_⟩
    simp only [u32] at hbounds
    omega

theorem take_page (bytes : List UInt8) (len : Nat) : bytes.take len =
    bytes.take (min len PGSIZE) ++ (bytes.drop PGSIZE).take (len - PGSIZE) := by
  by_cases hlen : len ≤ PGSIZE
  · rw [min_eq_left hlen, Nat.sub_eq_zero_of_le hlen, take_zero, append_nil]
  · rw [min_eq_right (by omega), ← take_add, Nat.add_sub_cancel' (by omega)]

theorem loadLoop_bytes {m i : Nat} (h : loadLoop ip d addr offset sz m k i = .ok (true, k'))
    (hd : Dense d top) (hnodup : d.userFrames.Nodup) (htop : top < KERNBASE)
    (haddr : addr % PGSIZE = 0) (hi : i % PGSIZE = 0) (hend : addr + sz ≤ top)
    (hm : i + m * PGSIZE < sz + PGSIZE) (hcover : sz ≤ i + m * PGSIZE)
    (hoff : i < sz → offset + i < 2 ^ 32) :
    ((ip.drop (offset + i)).take (sz - i)).length = sz - i ∧ ∀ x < KERNBASE,
      d.byte k' x = store (d.byte k) (addr + i) ((ip.drop (offset + i)).take (sz - i)) x := by
  induction m generalizing k i with
  | zero =>
    cases h
    have hdone : sz - i = 0 := by omega
    rw [hdone, take_zero, store_nil]
    exact ⟨rfl, fun _ _ => rfl⟩
  | succ m ih =>
    have hin : i < sz := by
      simp only [PGSIZE] at *
      omega
    have hlt : addr + i < top := by omega
    obtain ⟨f, hf, hnone, hsome⟩ := hd.loadLoop_succ htop haddr hi hlt k
    have hu32 : u32 (offset + i) = offset + i := Nat.mod_eq_of_lt (hoff hin)
    generalize hn : min (sz - i) PGSIZE = n at hnone hsome
    rw [hu32] at hnone hsome
    have hsmall : n < 2 ^ 32 := by
      simp only [PGSIZE] at hn
      omega
    cases hread : readi ip (offset + i) n with
    | none => cases (hnone hread).symm.trans h
    | some b =>
      obtain ⟨hb, hnowrap⟩ := readi_some hread (hoff hin) hsmall
      rw [hsome b hread] at h
      split at h
      · next hlen =>
        have hfirst (x : Nat) (hx : x < KERNBASE) :
            d.byte (k.write f 0 b) x = store (d.byte k) (addr + i) b x := by
          have hzero : (addr + i) % PGSIZE = 0 := by
            simp only [PGSIZE] at *
            omega
          have hfit : (addr + i) % PGSIZE + b.length ≤ PGSIZE := by
            rw [hzero]
            omega
          have hwrite := d.byte_write hnodup (hlt.trans htop) hf k hfit hx
          rwa [hzero] at hwrite
        rw [Nat.succ_mul] at hm hcover
        obtain ⟨hlen', hrest⟩ := ih h (by rw [Nat.add_mod_right, hi]) (by omega) (by omega)
          (by omega)
        have hsplit := take_page (ip.drop (offset + i)) (sz - i)
        rw [hn, ← hb, drop_drop, Nat.sub_sub, add_assoc] at hsplit
        rw [hsplit, length_append, hlen, hlen']
        refine ⟨by omega, fun x hx => ?_⟩
        have hnext : store (store (d.byte k) (addr + i) b) (addr + (i + PGSIZE))
            ((ip.drop (offset + (i + PGSIZE))).take (sz - (i + PGSIZE))) =
            store (store (d.byte k) (addr + i) b) (addr + i + b.length)
              ((ip.drop (offset + (i + PGSIZE))).take (sz - (i + PGSIZE))) := by
          by_cases hmore : PGSIZE ≤ sz - i
          · rw [hlen, ← hn, min_eq_right hmore, add_assoc]
          · rw [show sz - (i + PGSIZE) = 0 by omega, take_zero, store_nil, store_nil]
        rw [hrest x hx, store_append, ← hnext]
        exact store_congr (hfirst x hx)
      · cases h

theorem loaduvm_bytes (h : loaduvm k d addr ip offset sz = .ok (true, k')) (hd : Dense d top)
    (hnodup : d.userFrames.Nodup) (htop : top < KERNBASE) (hend : addr + sz ≤ top)
    (hoff : offset < 2 ^ 32) :
    ((ip.drop offset).take sz).length = sz ∧
      ∀ x < KERNBASE, d.byte k' x = store (d.byte k) addr ((ip.drop offset).take sz) x := by
  unfold loaduvm at h
  split at h
  · cases h
  · next haddr =>
    refine loadLoop_bytes h hd hnodup htop (by omega) rfl hend ?_ ?_ fun _ => hoff
    all_goals
      simp only [pagesBetween, PGSIZE]
      omega

/-- What the loading loop has done: the segments were in the file and have
been stored below `sz'`. -/
structure SegmentsLoaded (ip : List UInt8) (segs : List ProgHdr) (k : Kmem) (d : PageDir) (sz : Nat)
    (k' : Kmem) (d' : PageDir) (sz' : Nat) : Prop where
  size : sz' = grownTo sz segs
  inFile : ∀ ph ∈ segs, (ph.part ip).2.length = ph.filesz ∧ ph.filesz ≤ ph.memsz
  byte : ∀ x < KERNBASE, d'.byte k' x = storeAll (d.byte k) (segs.map (ProgHdr.part ip)) x

theorem SegmentsLoaded.nil (ip : List UInt8) (k : Kmem) (d : PageDir) (sz : Nat) :
    SegmentsLoaded ip [] k d sz k d sz :=
  ⟨rfl, by simp, fun _ _ => rfl⟩

theorem segmentLoop_loaded {n off sz' : Nat}
    (h : segmentLoop L ip n off k d sz = .ok (some sz', d', k'))
    (hd : Dense d sz) (hsz : sz < KERNBASE) (hnodup : (d.pages + k.free).Nodup) :
    SegmentsLoaded ip ((progHdrs ip n off).filter fun ph => ph.Loadable) k d sz k' d' sz' := by
  induction n generalizing off k d sz with
  | zero =>
    cases h
    exact .nil ip _ _ _
  | succ n ih =>
    obtain ⟨hnone, _⟩ | ⟨b, hread, hcases⟩ := segmentLoop_cases h hd hsz
    · cases hnone
    have hhdrs : progHdrs ip (n + 1) off =
        decodeProgHdr b :: progHdrs ip n (u32 (off + proghdrSize)) := by
      rw [progHdrs, hread]
      rfl
    obtain ⟨hskip, h⟩ | ⟨d1, k1, k2, sz1, hmax, hseg, halloc, hload, h⟩ := hcases
    · rw [hhdrs, List.filter_cons_of_neg (by simpa using hskip)]
      exact ih h hd hsz hnodup
    · have hpages : (d1.pages + k1.free).Nodup := by
        rw [allocuvm_pages halloc]
        exact hnodup
      have huser : d1.userFrames.Nodup := by
        rw [PageDir.pages_eq, add_assoc] at hpages
        exact nodup_of_le ((Multiset.le_add_right _ _).trans (Multiset.le_add_left _ _))
          hpages
      have hpos : sz1 ≠ 0 := by
        have hmem := hseg.loadable.2
        have hle := hseg.le
        omega
      have hend : (decodeProgHdr b).vaddr + (decodeProgHdr b).filesz ≤ sz1 := by
        have hle := hseg.le
        have hfile := hseg.filesz
        omega
      obtain ⟨hlen, hbyte⟩ := loaduvm_bytes hload hseg.dense huser hseg.lt hend (field_lt b 4)
      have hrest := ih h hseg.dense hseg.lt (by rw [loaduvm_free hload]; exact hpages)
      rw [hhdrs, List.filter_cons_of_pos (by simpa using hseg.loadable)]
      constructor
      · rw [hrest.size, hmax]
        rfl
      · intro ph hph
        obtain rfl | hph := List.mem_cons.mp hph
        · exact ⟨hlen, hseg.filesz⟩
        · exact hrest.inFile ph hph
      · intro x hx
        rw [hrest.byte x hx, List.map_cons, storeAll_cons]
        apply storeAll_congr
        rw [hbyte x hx]
        exact store_congr (allocuvm_byte halloc hpos hnodup hx)

/-! ### No panic -/

theorem loadLoop_total {m i : Nat} (k : Kmem)
    (hd : Dense d top) (htop : top < KERNBASE) (haddr : addr % PGSIZE = 0) (hi : i % PGSIZE = 0)
    (hend : addr + sz ≤ top) (hm : i + m * PGSIZE < sz + PGSIZE) :
    ∃ b k', loadLoop ip d addr offset sz m k i = .ok (b, k') := by
  induction m generalizing k i with
  | zero => exact ⟨true, k, rfl⟩
  | succ m ih =>
    rw [Nat.succ_mul] at hm
    obtain ⟨f, _, hnone, hsome⟩ := hd.loadLoop_succ htop haddr hi (by omega) k
    cases hread : readi ip (u32 (offset + i)) (min (sz - i) PGSIZE) with
    | none => exact ⟨false, k, hnone hread⟩
    | some b =>
      rw [hsome b hread]
      split
      · exact ih _ (by rw [Nat.add_mod_right, hi]) (by omega)
      · exact ⟨false, _, rfl⟩

theorem loaduvm_total (ip : List UInt8) (offset : Nat) (k : Kmem)
    (hd : Dense d top) (htop : top < KERNBASE) (haddr : addr % PGSIZE = 0)
    (hend : addr + sz ≤ top) : ∃ b k', loaduvm k d addr ip offset sz = .ok (b, k') := by
  unfold loaduvm
  rw [if_neg (by omega)]
  refine loadLoop_total k hd htop haddr rfl hend ?_
  simp only [pagesBetween, PGSIZE]
  omega

theorem Dense.allocuvm_total {oldsz : Nat}
    (hd : Dense d oldsz) (hold : oldsz ≤ KERNBASE) (hok : ∀ f ∈ d.pages + k.free, L.PageOk f)
    (newsz : Nat) : ∃ r d' k', allocuvm L k d oldsz newsz = .ok (r, d', k') := by
  refine Vm.allocuvm_total oldsz newsz hok fun x hx hge => ?_
  have hentry := hd x hx
  rwa [if_neg] at hentry
  simp only [PGROUNDUP, PGROUNDDOWN, u32, PGSIZE, KERNBASE] at *
  omega

theorem segmentLoop_total (ip : List UInt8) (n off : Nat) (hd : Dense d sz) (hsz : sz < KERNBASE)
    (hok : ∀ f ∈ d.pages + k.free, L.PageOk f) :
    ∃ r d' k', segmentLoop L ip n off k d sz = .ok (r, d', k') := by
  induction n generalizing off k d sz with
  | zero => exact ⟨some sz, d, k, rfl⟩
  | succ n ih =>
    unfold segmentLoop
    split
    · exact ⟨none, d, k, rfl⟩
    next b _ =>
    dsimp only
    split
    · exact ih _ hd hsz hok
    split
    · exact ⟨none, d, k, rfl⟩
    next hfilesz =>
    split
    · exact ⟨none, d, k, rfl⟩
    next hwrap =>
    obtain ⟨sz1, d1, k1, halloc⟩ := hd.allocuvm_total hsz.le hok
      (u32 ((decodeProgHdr b).vaddr + (decodeProgHdr b).memsz))
    rw [halloc, ok_bind]
    dsimp only
    split
    · exact ⟨none, d1, k1, rfl⟩
    next hne =>
    obtain ⟨hdense, hlt, hmax⟩ := allocuvm_dense halloc hd (Or.inl hsz) hne
    split
    · exact ⟨none, d1, k1, rfl⟩
    next haligned =>
    have hend : (decodeProgHdr b).vaddr + (decodeProgHdr b).filesz ≤ sz1 := by
      have hvaddr : (decodeProgHdr b).vaddr < 2 ^ 32 := field_lt b 8
      have hmemsz : (decodeProgHdr b).memsz < 2 ^ 32 := field_lt b 20
      simp only [u32] at hwrap hmax
      omega
    obtain ⟨loaded, k2, hload⟩ := loaduvm_total ip (decodeProgHdr b).off k1 hdense hlt
      (by omega) hend
    rw [hload, ok_bind]
    dsimp only
    split
    · refine ih _ hdense hlt fun f hf => hok f ?_
      rwa [loaduvm_free hload, allocuvm_pages halloc] at hf
    · exact ⟨none, d1, k2, rfl⟩

theorem execLoad_total (ip : List UInt8)
    (hok : ∀ f ∈ k.free, L.PageOk f) : ∃ r k', execLoad L k ip = .ok (r, k') := by
  unfold execLoad
  split
  · exact ⟨none, k, rfl⟩
  next b _ =>
  dsimp only
  split
  · exact ⟨none, k, rfl⟩
  obtain ⟨r, k1, hsetup⟩ := setupkvm_total hok
  rw [hsetup, ok_bind]
  dsimp only
  cases r with
  | none => exact ⟨none, k1, rfl⟩
  | some d =>
    have hpages := ((setupkvm_spec hsetup).2 d rfl).1
    have hdense := setupkvm_dense hsetup
    have hok1 : ∀ f ∈ d.pages + k1.free, L.PageOk f := by
      rw [hpages]
      exact hok
    obtain ⟨r, d', k2, hload⟩ := segmentLoop_total ip (decodeElfHdr b).phnum
      (decodeElfHdr b).phoff hdense (by decide) hok1
    dsimp only
    rw [hload, ok_bind]
    dsimp only
    cases r with
    | none =>
      have hrebuilt := (segmentLoop_spec hload hdense (by decide)).1
      obtain ⟨k3, hfree⟩ := freevm_ok (L := L) (d := d') (fun f hf => hok1 f (by
        rw [← hrebuilt.pages]
        exact mem_add.mpr (Or.inl hf))) k2
      dsimp only
      rw [hfree]
      exact ⟨none, k3, rfl⟩
    | some sz => exact ⟨some _, k2, rfl⟩

/-! ### The stack -/

theorem allocStack_total {guard : Nat}
    (hd : Dense d guard) (hlt : guard ≤ KERNBASE) (hguard : guard % PGSIZE = 0)
    (hok : ∀ f ∈ d.pages + k.free, L.PageOk f) :
    ∃ r k', allocStack L k d guard = .ok (r, k') := by
  obtain ⟨sz, d1, k1, halloc⟩ := hd.allocuvm_total hlt hok (u32 (guard + 2 * PGSIZE))
  unfold allocStack
  rw [halloc, ok_bind]
  dsimp only
  split
  · obtain ⟨k2, hfree⟩ := freevm_ok (L := L) (d := d1) (fun f hf => hok f (by
      rw [← allocuvm_pages halloc]
      exact mem_add.mpr (Or.inl hf))) k1
    rw [hfree]
    exact ⟨none, k2, rfl⟩
  · next hne =>
    have hnew : u32 (guard + 2 * PGSIZE) = guard + 2 * PGSIZE := by
      simp only [u32, PGSIZE, KERNBASE] at *
      omega
    rw [hnew] at halloc
    obtain ⟨hdense, hsz, hmax⟩ := allocuvm_dense halloc hd (Or.inr (Nat.le_add_right _ _)) hne
    have hclearat : sub32 sz (2 * PGSIZE) = guard := by
      simp only [sub32, u32, PGSIZE, KERNBASE] at *
      omega
    have hentry := hdense guard (by simp only [PGSIZE] at *; omega)
    rw [if_pos (by simp only [PGROUNDDOWN, PGSIZE] at *; omega)] at hentry
    obtain ⟨f, hf⟩ := hentry
    obtain ⟨d2, hclear⟩ := clearpteu_ok hf
    rw [hclearat, hclear]
    exact ⟨some (d2, sz), k1, rfl⟩

theorem clearpteu_byte {a : Nat} (h : clearpteu d a = .ok d') (ha : a < KERNBASE)
    (k : Kmem) {x : Nat} (hx : x < KERNBASE) : d'.byte k x = d.byte k x := by
  have hentry := (clearpteu_spec h (lt_32_of_user ha)).2 x (lt_32_of_user hx)
  split at hentry
  · next hpage =>
    rw [← d.entry_of_page hpage] at hentry
    unfold PageDir.byte
    rw [hentry]
    cases d.entry x <;> rfl
  · unfold PageDir.byte
    rw [hentry]

/-! ### The image -/

theorem loadImage_some {img : Image} (h : loadImage L k ip = .ok (some img, k')) :
    ∃ elf k1, execLoad L k ip = .ok (some elf, k1) ∧
      allocStack L k1 elf.pgdir (PGROUNDUP elf.sz) = .ok (some (img.pgdir, img.sz), k') ∧
      img.guard = PGROUNDUP elf.sz ∧ img.entry = elf.entry := by
  obtain ⟨⟨loaded, k1⟩, hload, h⟩ := bind_eq_ok.mp h
  cases loaded with
  | none => cases h
  | some elf =>
    obtain ⟨⟨stack, k2⟩, hstack, h⟩ := bind_eq_ok.mp h
    cases stack with
    | none => cases h
    | some stack =>
      cases h
      exact ⟨elf, k1, hload, hstack, rfl, rfl⟩

def imageEnd (segs : List ProgHdr) : Nat := (segs.getLast?.map ProgHdr.memEnd).getD 0

/-- Segments in ascending order that do not overlap. -/
def AscendingSegments (segs : List ProgHdr) : Prop := segs.Pairwise fun a b => a.memEnd ≤ b.vaddr

instance (segs : List ProgHdr) : Decidable (AscendingSegments segs) := by
  unfold AscendingSegments
  infer_instance

theorem grownTo_le {bound : Nat} {segs : List ProgHdr} (hsz : sz ≤ bound)
    (h : ∀ ph ∈ segs, ph.memEnd ≤ bound) : grownTo sz segs ≤ bound := by
  induction segs generalizing sz with
  | nil => exact hsz
  | cons ph segs ih =>
    refine ih (max_le hsz (h ph List.mem_cons_self)) fun ph' hph' => ?_
    exact h ph' (List.mem_cons_of_mem ph hph')

theorem le_grownTo (sz : Nat) (segs : List ProgHdr) :
    sz ≤ grownTo sz segs ∧ ∀ ph ∈ segs, ph.memEnd ≤ grownTo sz segs := by
  induction segs generalizing sz with
  | nil => exact ⟨le_rfl, by simp⟩
  | cons ph segs ih =>
    obtain ⟨hsz, hrest⟩ := ih (max sz ph.memEnd)
    refine ⟨(le_max_left _ _).trans hsz, fun ph' hph' => ?_⟩
    obtain rfl | hph' := List.mem_cons.mp hph'
    · exact (le_max_right _ _).trans hsz
    · exact hrest ph' hph'

theorem AscendingSegments.grownTo {segs : List ProgHdr} (h : AscendingSegments segs) :
    grownTo 0 segs = imageEnd segs := by
  induction segs using List.reverseRecOn with
  | nil => rfl
  | append_singleton segs ph _ =>
    have hbefore : ∀ ph' ∈ segs, ph'.memEnd ≤ ph.memEnd := fun ph' hph' =>
      ((pairwise_append.mp h).2.2 ph' hph' ph (by simp)).trans (Nat.le_add_right _ _)
    have hle := grownTo_le (Nat.zero_le ph.memEnd) hbefore
    simp only [Vm.grownTo, foldl_append, List.foldl_cons, foldl_nil] at hle ⊢
    rw [max_eq_right hle]
    simp [imageEnd]

/-- The image of a file whose segments are ascending: each segment has its
bytes of the file, everything else is zero up to the guard page, which is
closed, and so is the stack page above it. -/
structure ImageLoaded (ip : List UInt8) (k : Kmem) (img : Image) : Prop where
  image : ExecImage img.pgdir img.guard img.sz
  guard : img.guard = PGROUNDUP (imageEnd (segments ip))
  file : ∀ ph ∈ segments ip, ∀ i < ph.filesz,
    ip[ph.off + i]? = some (img.pgdir.byte k (ph.vaddr + i))
  zero : ∀ x < img.guard,
    (∀ ph ∈ segments ip, ¬ (ph.vaddr ≤ x ∧ x < ph.vaddr + ph.filesz)) → img.pgdir.byte k x = 0
  stack : ∀ x, img.guard + PGSIZE ≤ x → x < img.sz → img.pgdir.byte k x = 0

/-- A program that loads is the segments of its file, and ends where the last of them does. -/
theorem execLoad_segments {elf : Loaded} (h : execLoad L k ip = .ok (some elf, k'))
    (hnodup : k.free.Nodup) : ∃ d0 k0, (∀ x < KERNBASE, d0.entry x = none) ∧
      SegmentsLoaded ip (segments ip) k0 d0 0 k' elf.pgdir elf.sz := by
  obtain ⟨b, d0, k0, hread, hsetup, hloop⟩ := execLoad_some h
  obtain ⟨hpages, huser, _⟩ := (setupkvm_spec hsetup).2 d0 rfl
  refine ⟨d0, k0, huser, ?_⟩
  rw [segments, hread]
  exact segmentLoop_loaded hloop (setupkvm_dense hsetup) (by decide) (hpages ▸ hnodup)

theorem loadImage_bytes {img : Image}
    (h : loadImage L k ip = .ok (some img, k')) (hnodup : k.free.Nodup) :
    ExecImage img.pgdir img.guard img.sz ∧ img.guard = PGROUNDUP (grownTo 0 (segments ip)) ∧
      grownTo 0 (segments ip) < KERNBASE ∧
      (∀ ph ∈ segments ip, (ph.part ip).2.length = ph.filesz ∧ ph.filesz ≤ ph.memsz) ∧
      ∀ x < KERNBASE, img.pgdir.byte k' x =
        storeAll (fun _ => 0) ((segments ip).map (ProgHdr.part ip)) x := by
  obtain ⟨elf, k1, hload, hstack, hguard, _⟩ := loadImage_some h
  obtain ⟨hpages, _, hdense, hsz⟩ := (execLoad_spec hload).2.2 elf rfl
  obtain ⟨d0, k0, huser, hloaded⟩ := execLoad_segments hload hnodup
  have hle := roundup_le hsz
  obtain ⟨d1, halloc, hclear, himage⟩ :=
    (allocStack_spec hstack (hdense.roundup hsz) hle (Nat.mul_mod_left _ _)).2 _ _ rfl
  have hsize := himage.size
  have hlt := himage.lt
  rw [hguard, ← hloaded.size]
  refine ⟨himage, rfl, hsz, hloaded.inFile, fun x hx => ?_⟩
  have hzero : d0.byte k0 x = 0 := byte_none (huser x hx) k0
  rw [clearpteu_byte hclear (by omega) k' hx,
    allocuvm_byte halloc (by simp only [PGSIZE]; omega) (hpages ▸ hnodup) hx, hloaded.byte x hx]
  exact storeAll_congr hzero _

/-- On every file `exec` comes to the arguments or fails with -1, and if the
segments of the file are ascending, the image is what the file says. -/
theorem loader_correct {L : Layout} {k : Kmem} (ip : List UInt8) (hok : ∀ f ∈ k.free, L.PageOk f)
    (hnodup : k.free.Nodup) : ∃ r k', loadImage L k ip = .ok (r, k') ∧
      ∀ img, r = some img → AscendingSegments (segments ip) → ImageLoaded ip k' img := by
  obtain ⟨r, k', h⟩ : ∃ r k', loadImage L k ip = .ok (r, k') := by
    obtain ⟨loaded, k1, hload⟩ := execLoad_total ip hok
    unfold loadImage
    rw [hload, ok_bind]
    dsimp only
    cases loaded with
    | none => exact ⟨none, k1, rfl⟩
    | some elf =>
      obtain ⟨hpages, _, hdense, hsz⟩ := (execLoad_spec hload).2.2 elf rfl
      have hle := roundup_le hsz
      obtain ⟨stack, k2, hstack⟩ := allocStack_total (L := L) (k := k1) (hdense.roundup hsz) hle
        (Nat.mul_mod_left _ _) (hpages ▸ hok)
      dsimp only
      rw [hstack]
      exact ⟨_, k2, rfl⟩
  refine ⟨r, k', h, ?_⟩
  rintro img rfl hascending
  obtain ⟨himage, hguard, hlt, hparts, hbyte⟩ := loadImage_bytes h hnodup
  rw [hascending.grownTo] at hguard hlt
  have hsize := himage.size
  have hmax := himage.lt
  have hend : ∀ ph ∈ segments ip, ph.memEnd ≤ img.guard := by
    intro ph hph
    have hle := (le_grownTo 0 _).2 ph hph
    rw [hascending.grownTo] at hle
    rw [hguard]
    simp only [PGROUNDUP, u32, PGSIZE, KERNBASE] at *
    omega
  have hzero (x : Nat) (hx : x < KERNBASE)
      (hout : ∀ ph ∈ segments ip, x < ph.vaddr ∨ ph.vaddr + ph.filesz ≤ x) :
      img.pgdir.byte k' x = 0 := by
    rw [hbyte x hx]
    refine storeAll_outside fun part hpart => ?_
    obtain ⟨ph, hph, rfl⟩ := List.mem_map.mp hpart
    rw [(hparts ph hph).1]
    exact hout ph hph
  refine ⟨himage, hguard, fun ph hph i hi => ?_, fun x hx hout => ?_, fun x hlo hhi => ?_⟩
  · obtain ⟨hlen, hfile⟩ := hparts ph hph
    have hapart : ((segments ip).map (ProgHdr.part ip)).Pairwise
        fun a b => a.1 + a.2.length ≤ b.1 ∨ b.1 + b.2.length ≤ a.1 := by
      rw [pairwise_map]
      refine hascending.imp_of_mem fun {a b} ha _ hab => .inl ?_
      have hmem := (hparts a ha).2
      rw [(hparts a ha).1]
      unfold ProgHdr.memEnd at hab
      exact (Nat.add_le_add_left hmem _).trans hab
    have hin : i < (ph.part ip).2.length := by
      rw [hlen]
      exact hi
    have hle := hend ph hph
    unfold ProgHdr.memEnd at hle
    have hget : ip[ph.off + i]? = (ph.part ip).2[i]? := by
      rw [ProgHdr.part, List.getElem?_take_of_lt hi, List.getElem?_drop]
    have hstored : img.pgdir.byte k' (ph.vaddr + i) = (ph.part ip).2.getD i 0 := by
      rw [hbyte _ (by omega)]
      exact storeAll_inside hapart (List.mem_map_of_mem hph) hin
    rw [hget, hstored, getD_eq_getElem _ _ hin, List.getElem?_eq_getElem hin]
  · refine hzero x (by omega) fun ph hph => ?_
    have hnot := hout ph hph
    omega
  · refine hzero x (by omega) fun ph hph => ?_
    have hle := hend ph hph
    have hfile := (hparts ph hph).2
    unfold ProgHdr.memEnd at hle
    omega

/-- The first process can load `tinyElf`. -/
theorem loader_correct_tinyElf : ∃ κ0 : Kernel, ∃ img k, boot smallLayout 1 [0xEB, 0xFE] = .ok κ0 ∧
    loadImage smallLayout κ0.kmem tinyElf = .ok (some img, k) ∧ ImageLoaded tinyElf k img := by
  obtain ⟨κ0, d, k1, hboot, hload, hnodup, hok, hfree⟩ := boot_load_tinyElf
  obtain ⟨_, _, hdense, hsz⟩ := (execLoad_spec hload).2.2 _ rfl
  have hlt : PGROUNDUP 1 + 2 * PGSIZE < KERNBASE := by decide
  obtain ⟨d1, k2, d2, halloc, hclear, _, _⟩ := stackPages_ok smallLayout (hdense.roundup hsz)
    (Nat.mul_mod_left _ _) hlt hfree
  have hstack := allocStack_eq hlt halloc hclear
  have himage : ∃ img, loadImage smallLayout κ0.kmem tinyElf = .ok (some img, k2) := by
    unfold loadImage
    rw [hload, ok_bind]
    dsimp only
    rw [hstack]
    exact ⟨_, rfl⟩
  obtain ⟨img, himage⟩ := himage
  obtain ⟨r, k, h, hloaded⟩ := loader_correct tinyElf hok hnodup
  cases h.symm.trans himage
  exact ⟨κ0, img, k2, hboot, himage, hloaded img rfl (by decide +kernel)⟩

end Xv6.Vm

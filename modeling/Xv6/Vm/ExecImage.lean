import Xv6.Vm.AddressSpace
import Xv6.Vm.Proc

/-!
The address space `exec` builds: every page from zero to the new size is
mapped, all but the guard page are open to user code, and on every failure
the pages are back on the free list.
-/

namespace Xv6.Vm

open Lib PageDir

/-- All pages below `sz` are mapped for user code, and no others. -/
def Dense (d : PageDir) (sz : Nat) : Prop :=
  ∀ x < KERNBASE, if PGROUNDDOWN x < sz then ∃ f, d.entry x = some ⟨f, true, true⟩
    else d.entry x = none

/-- The kernel halves of two directories agree. -/
def SameKernel (d d' : PageDir) : Prop := ∀ x < 2 ^ 32, KERNBASE ≤ x → d'.entry x = d.entry x

theorem SameKernel.kernelHalf {L : Layout} {d d' : PageDir} (h : SameKernel d d')
    (hd : d.KernelHalf L) : d'.KernelHalf L := by
  intro x hx hge
  rw [h x hx hge, hd x hx hge]

/-- No page of the kernel half is open to user code. -/
def PageDir.KernelClosed (d : PageDir) : Prop := ∀ x < 2 ^ 32, KERNBASE ≤ x → ¬ d.UserOk x

theorem PageDir.KernelHalf.closed {L : Layout} {d : PageDir} (h : d.KernelHalf L) :
    d.KernelClosed := by
  rintro x hx hge ⟨e, he, hu⟩
  rw [h x hx hge] at he
  obtain ⟨m, _, rfl⟩ := Option.map_eq_some_iff.mp he
  cases hu

variable {k' : Kmem} {i m n r sz va top addr guard newsz oldsz offset : Nat} {ip buf : List UInt8}
variable {b : Bool} {argv : List (List UInt8)}

theorem Dense.grown {k : Kmem} {d d' : PageDir} (h : Dense d oldsz)
    (hgrown : Grown k d k' d' (PGROUNDUP oldsz) newsz) (hle : oldsz ≤ newsz)
    (hnew : newsz < KERNBASE) : Dense d' newsz := by
  intro x hx
  have hx32 := lt_32_of_user hx
  have hold := h x hx
  by_cases hin : PGROUNDUP oldsz ≤ x ∧ PGROUNDDOWN x < newsz
  · rw [if_pos hin.2]
    obtain ⟨f, hfresh, _⟩ := hgrown.fresh x hx32 hin.1 hin.2
    exact ⟨f, hfresh⟩
  · rw [hgrown.kept x hx32 hin]
    have hiff : PGROUNDDOWN x < newsz ↔ PGROUNDDOWN x < oldsz := by
      simp only [PGROUNDUP, PGROUNDDOWN, u32, PGSIZE, KERNBASE] at *
      omega
    rw [if_congr hiff rfl rfl]
    exact hold

theorem Grown.sameKernel {k : Kmem} {d d' : PageDir} {lo : Nat}
    (h : Grown k d k' d' lo newsz) (hnew : newsz < KERNBASE) : SameKernel d d' := by
  intro x hx hge
  apply h.kept x hx
  simp only [PGROUNDDOWN, PGSIZE, KERNBASE] at *
  omega

theorem AllocFailed.sameKernel {k : Kmem} {d d' : PageDir} {lo : Nat}
    (h : AllocFailed d k d' k' lo newsz) (hnew : newsz < KERNBASE) : SameKernel d d' := by
  intro x hx hge
  apply h.kept x hx
  simp only [PGROUNDDOWN, PGSIZE, KERNBASE] at *
  omega

theorem allocuvm_pages {L : Layout} {k : Kmem} {d d' : PageDir}
    (h : allocuvm L k d oldsz newsz = .ok (r, d', k')) :
    d'.pages + k'.free = d.pages + k.free := by
  rcases allocuvm_spec h with ⟨_, rfl, rfl, _⟩ | ⟨_, rfl, rfl, _⟩ | ⟨_, _, _, hgrown⟩ |
    ⟨_, _, _, hfailed⟩
  · rfl
  · rfl
  · exact hgrown.pages
  · exact hfailed.pages

theorem allocuvm_sameKernel {L : Layout} {k : Kmem} {d d' : PageDir}
    (h : allocuvm L k d oldsz newsz = .ok (r, d', k')) : SameKernel d d' := by
  rcases allocuvm_spec h with ⟨_, rfl, rfl, _⟩ | ⟨_, rfl, rfl, _⟩ | ⟨_, _, hnew, hgrown⟩ |
    ⟨_, _, hnew, hfailed⟩
  · exact fun _ _ _ => rfl
  · exact fun _ _ _ => rfl
  · exact hgrown.sameKernel hnew
  · exact hfailed.sameKernel hnew

/-- What a step of `exec` does with the directory it builds: pages move between
the directory and the free list only, no others change their contents, and
the kernel half is kept. -/
structure Rebuilt (k : Kmem) (d : PageDir) (k' : Kmem) (d' : PageDir) : Prop where
  pages : d'.pages + k'.free = d.pages + k.free
  kernel : SameKernel d d'
  confined : Confined (d.pages + k.free) k k'

namespace Rebuilt

variable {L : Layout} {k k1 k2 : Kmem} {d d1 d2 : PageDir}

theorem refl (k : Kmem) (d : PageDir) : Rebuilt k d k d :=
  ⟨rfl, fun _ _ _ => rfl, Confined.refl _ _⟩

theorem trans (h : Rebuilt k d k1 d1) (h' : Rebuilt k1 d1 k2 d2) : Rebuilt k d k2 d2 where
  pages := h'.pages.trans h.pages
  kernel x hx hge := (h'.kernel x hx hge).trans (h.kernel x hx hge)
  confined := h.confined.trans (h.pages ▸ h'.confined)

theorem of_writes (hfree : k1.free = k.free) (hwrites : Confined d.userFrames k k1) :
    Rebuilt k d k1 d where
  pages := by rw [hfree]
  kernel _ _ _ := rfl
  confined := hwrites.mono (by
    rw [PageDir.pages_eq, add_assoc]
    intro f hf
    simp [hf])

theorem freevm (h : Rebuilt k d k1 d1) (hfree : Vm.freevm L k1 d1 true = .ok k2) :
    k2.free = d.pages + k.free ∧ Confined (d.pages + k.free) k k2 := by
  refine ⟨by rw [freevm_spec hfree, h.pages], h.confined.trans ?_⟩
  rw [← h.pages]
  exact freevm_confined hfree

end Rebuilt

theorem allocuvm_rebuilt {L : Layout} {k : Kmem} {d d' : PageDir}
    (h : allocuvm L k d oldsz newsz = .ok (r, d', k')) : Rebuilt k d k' d' :=
  ⟨allocuvm_pages h, allocuvm_sameKernel h, allocuvm_confined h⟩

theorem allocuvm_dense {L : Layout} {k : Kmem} {d d' : PageDir}
    (h : allocuvm L k d oldsz newsz = .ok (r, d', k')) (hd : Dense d oldsz)
    (hold : oldsz < KERNBASE ∨ oldsz ≤ newsz) (hr : r ≠ 0) :
    Dense d' r ∧ r < KERNBASE ∧ r = max oldsz newsz := by
  rcases allocuvm_spec h with ⟨hzero, _⟩ | ⟨rfl, rfl, rfl, hlt, _⟩ |
    ⟨rfl, hle, hnew, hgrown⟩ | ⟨hzero, _⟩
  · exact absurd hzero hr
  · exact ⟨hd, hold.resolve_right (Nat.not_le_of_lt hlt), (max_eq_left hlt.le).symm⟩
  · exact ⟨hd.grown hgrown hle hnew, hnew, (max_eq_right hle).symm⟩
  · exact absurd hzero hr

theorem loadLoop_free {d : PageDir} {k : Kmem}
    (h : loadLoop ip d addr offset sz m k i = .ok (b, k')) : k'.free = k.free := by
  induction m generalizing k i with
  | zero =>
    cases h
    rfl
  | succ m ih =>
    unfold loadLoop at h
    generalize (if sz - i < PGSIZE then sz - i else PGSIZE) = n at h
    split at h
    · cases h
    · simp only at h
      split at h
      · cases h
        rfl
      · split at h
        · have hrest := ih h
          exact hrest
        · cases h
          rfl

theorem loaduvm_free {d : PageDir} {k : Kmem} (h : loaduvm k d addr ip offset sz = .ok (b, k')) :
    k'.free = k.free := by
  unfold loaduvm at h
  split at h
  · cases h
  · exact loadLoop_free h

theorem Dense.loadLoop_succ {d : PageDir}
    (hd : Dense d top) (htop : top < KERNBASE) (haddr : addr % PGSIZE = 0) (hi : i % PGSIZE = 0)
    (hend : addr + i < top) (k : Kmem) :
    ∃ f, d.entry (addr + i) = some ⟨f, true, true⟩ ∧
      (readi ip (u32 (offset + i)) (min (sz - i) PGSIZE) = none →
        loadLoop ip d addr offset sz (m + 1) k i = .ok (false, k)) ∧
      ∀ b, readi ip (u32 (offset + i)) (min (sz - i) PGSIZE) = some b →
        loadLoop ip d addr offset sz (m + 1) k i = if b.length = min (sz - i) PGSIZE then
            loadLoop ip d addr offset sz m (k.write f 0 b) (i + PGSIZE)
          else .ok (false, k.write f 0 b) := by
  have hu32 : u32 (addr + i) = addr + i := by
    simp only [u32, KERNBASE] at *
    omega
  have hmin : (if sz - i < PGSIZE then sz - i else PGSIZE) = min (sz - i) PGSIZE := by
    split <;> omega
  have hentry := hd (addr + i) (hend.trans htop)
  rw [if_pos (by simp only [PGROUNDDOWN, PGSIZE] at *; omega)] at hentry
  obtain ⟨f, hf⟩ := hentry
  obtain ⟨t, ht, hpte⟩ := Option.bind_eq_some_iff.mp hf
  refine ⟨f, hf, fun hread => ?_, fun b hread => ?_⟩
  all_goals
    rw [loadLoop, hu32, walkpgdir_lookup, ht]
    simp only [Option.map_some, hpte, Option.getD_some, hmin, hread]

theorem loadLoop_confined {d : PageDir}
    {k : Kmem} (h : loadLoop ip d addr offset sz m k i = .ok (b, k'))
    (hd : Dense d top) (htop : top < KERNBASE) (haddr : addr % PGSIZE = 0) (hi : i % PGSIZE = 0)
    (hend : addr + sz ≤ top) (hm : i + m * PGSIZE < sz + PGSIZE) :
    Confined d.userFrames k k' := by
  induction m generalizing k i with
  | zero =>
    cases h
    exact Confined.refl _ _
  | succ m ih =>
    have hlt : addr + i < top := by
      simp only [PGSIZE] at *
      omega
    obtain ⟨f, hf, hnone, hsome⟩ := hd.loadLoop_succ htop haddr hi hlt k
    have hmem : f ∈ d.userFrames := mem_userFrames.mpr ⟨_, hlt.trans htop, _, hf, rfl⟩
    cases hread : readi ip (u32 (offset + i)) (min (sz - i) PGSIZE) with
    | none =>
      cases (hnone hread).symm.trans h
      exact Confined.refl _ _
    | some bytes =>
      have hwrite := Confined.write hmem k 0 bytes
      rw [hsome bytes hread] at h
      split at h
      · exact hwrite.trans (ih h (by simp only [PGSIZE] at *; omega)
          (by simp only [PGSIZE] at *; omega))
      · cases h
        exact hwrite

theorem loaduvm_rebuilt {d : PageDir} {k : Kmem} (h : loaduvm k d addr ip offset sz = .ok (b, k'))
    (hd : Dense d top)
    (htop : top < KERNBASE) (hend : addr + sz ≤ top) : Rebuilt k d k' d := by
  refine .of_writes (loaduvm_free h) ?_
  unfold loaduvm at h
  split at h
  · cases h
  · next haddr =>
    refine loadLoop_confined h hd htop (by omega) rfl hend ?_
    simp only [pagesBetween, PGSIZE]
    omega

theorem copyoutLoop_free {d : PageDir} {k : Kmem}
    (h : copyoutLoop d n k va buf = .ok (b, k')) : k'.free = k.free := by
  induction n generalizing k va buf with
  | zero =>
    unfold copyoutLoop at h
    split at h
    · cases h
      rfl
    · cases h
  | succ n ih =>
    unfold copyoutLoop at h
    split at h
    · cases h
      rfl
    · obtain ⟨pa, _, h⟩ := bind_eq_ok.mp h
      cases pa with
      | none =>
        cases h
        rfl
      | some pa =>
        have hrest := ih h
        exact hrest

theorem copyout_free {d : PageDir} {k : Kmem}
    (h : copyout k d va buf = .ok (b, k')) : k'.free = k.free := copyoutLoop_free h

theorem pushArgs_free {d : PageDir} {ustack : List Nat} {sp : Nat}
    {k : Kmem} {r : Option (List Nat × Nat)}
    (h : pushArgs d argv ustack k sp = .ok (r, k')) : k'.free = k.free := by
  induction argv generalizing ustack k sp with
  | nil =>
    cases h
    rfl
  | cons arg rest ih =>
    unfold pushArgs at h
    split at h
    · cases h
      rfl
    · obtain ⟨⟨b, k1⟩, hcopy, h⟩ := bind_eq_ok.mp h
      rw [← copyout_free hcopy]
      cases b with
      | true => exact ih h
      | false =>
        cases h
        rfl

theorem uva2ka_some {d : PageDir} {uva pa : Nat} (h : uva2ka d uva = .ok (some pa)) :
    ∃ e, d.entry uva = some e ∧ e.u = true ∧ e.addr = pa := by
  unfold uva2ka at h
  split at h
  · cases h
  · next t ht =>
    split at h
    · cases h
    · next e he =>
      have hentry : d.entry uva = some e := by
        unfold PageDir.entry
        rw [ht]
        exact he
      split at h <;> cases h
      next hu => exact ⟨e, hentry, hu, rfl⟩

theorem copyoutLoop_confined {d : PageDir} (hd : d.KernelClosed)
    {k : Kmem} (h : copyoutLoop d n k va buf = .ok (b, k')) (hva : va < 2 ^ 32) :
    Confined d.userFrames k k' := by
  induction n generalizing k va buf with
  | zero =>
    unfold copyoutLoop at h
    split at h <;> cases h
    exact Confined.refl _ _
  | succ n ih =>
    unfold copyoutLoop at h
    split at h
    · cases h
      exact Confined.refl _ _
    · obtain ⟨pa, hka, h⟩ := bind_eq_ok.mp h
      cases pa with
      | none =>
        cases h
        exact Confined.refl _ _
      | some pa =>
        obtain ⟨e, he, hu, rfl⟩ := uva2ka_some hka
        have hlow : PGROUNDDOWN va < KERNBASE := by
          by_contra hge
          refine hd (PGROUNDDOWN va) ?_ (by omega) ⟨e, he, hu⟩
          simp only [PGROUNDDOWN, PGSIZE]
          omega
        have hmem : e.addr ∈ d.userFrames := mem_userFrames.mpr ⟨_, hlow, e, he, rfl⟩
        exact (Confined.write hmem k _ _).trans (ih h (Nat.mod_lt _ (by decide)))

theorem sub32_lt (a b : Nat) : sub32 a b < 2 ^ 32 := by
  simp only [sub32, u32]
  omega

theorem pushArgs_confined {d : PageDir} (hd : d.KernelClosed)
    {ustack : List Nat} {sp : Nat} {k : Kmem} {r : Option (List Nat × Nat)}
    (h : pushArgs d argv ustack k sp = .ok (r, k')) : Confined d.userFrames k k' := by
  induction argv generalizing ustack k sp with
  | nil =>
    cases h
    exact Confined.refl _ _
  | cons arg rest ih =>
    unfold pushArgs at h
    split at h
    · cases h
      exact Confined.refl _ _
    · obtain ⟨⟨b, k1⟩, hcopy, h⟩ := bind_eq_ok.mp h
      have hsp := sub32_lt sp (arg.length + 1)
      have hfirst := copyoutLoop_confined hd hcopy (by omega)
      cases b with
      | true => exact hfirst.trans (ih h)
      | false =>
        cases h
        exact hfirst

def ProgHdr.Loadable (ph : ProgHdr) : Prop := ph.type = ELF_PROG_LOAD ∧ ph.memsz ≠ 0

theorem leValue_lt (bytes : List UInt8) : leValue bytes < 256 ^ bytes.length := by
  induction bytes with
  | nil => decide
  | cons b rest ih =>
    have hb := b.toNat_lt
    rw [leValue, List.length_cons, pow_succ]
    omega

theorem field_lt (bytes : List UInt8) (off : Nat) : field bytes off 4 < 2 ^ 32 := by
  have hlt := leValue_lt ((bytes.drop off).take 4)
  have hpow : 256 ^ ((bytes.drop off).take 4).length ≤ 256 ^ 4 :=
    Nat.pow_le_pow_right (by decide) (List.length_take_le _ _)
  unfold field
  omega

/-- A segment that passed the checks of the loading loop, in a directory that
holds it. -/
structure Segment (ph : ProgHdr) (d : PageDir) (sz : Nat) : Prop where
  loadable : ph.Loadable
  aligned : ph.vaddr % PGSIZE = 0
  filesz : ph.filesz ≤ ph.memsz
  le : ph.vaddr + ph.memsz ≤ sz
  dense : Dense d sz
  lt : sz < KERNBASE

/-- A turn of the loading loop: it fails, passes over the header, or makes room
for a segment and loads it. -/
theorem segmentLoop_cases {L : Layout} {off : Nat} {k : Kmem}
    {d d' : PageDir} {r : Option Nat} (h : segmentLoop L ip (n + 1) off k d sz = .ok (r, d', k'))
    (hd : Dense d sz) (hsz : sz < KERNBASE) :
    (r = none ∧ Rebuilt k d k' d') ∨ ∃ b, readExact ip off proghdrSize = some b ∧
      ((¬ (decodeProgHdr b).Loadable ∧
        segmentLoop L ip n (u32 (off + proghdrSize)) k d sz = .ok (r, d', k')) ∨
      ∃ d1 k1 k2 sz1, sz1 = max sz ((decodeProgHdr b).vaddr + (decodeProgHdr b).memsz) ∧
        Segment (decodeProgHdr b) d1 sz1 ∧
        allocuvm L k d sz ((decodeProgHdr b).vaddr + (decodeProgHdr b).memsz) = .ok (sz1, d1, k1) ∧
        loaduvm k1 d1 (decodeProgHdr b).vaddr ip (decodeProgHdr b).off (decodeProgHdr b).filesz =
          .ok (true, k2) ∧
        segmentLoop L ip n (u32 (off + proghdrSize)) k2 d1 sz1 = .ok (r, d', k')) := by
  unfold segmentLoop at h
  split at h
  · cases h
    exact .inl ⟨rfl, .refl _ _⟩
  next b hread =>
  have hvaddr : (decodeProgHdr b).vaddr < 2 ^ 32 := field_lt b 8
  have hmemsz : (decodeProgHdr b).memsz < 2 ^ 32 := field_lt b 20
  simp only at h
  split at h
  · next hskip =>
    refine .inr ⟨b, hread, .inl ⟨fun hload => ?_, h⟩⟩
    exact hskip.elim (fun htype => htype hload.1) hload.2
  next hload =>
  split at h
  · cases h
    exact .inl ⟨rfl, .refl _ _⟩
  next hfilesz =>
  split at h
  · cases h
    exact .inl ⟨rfl, .refl _ _⟩
  next hwrap =>
  have hend : u32 ((decodeProgHdr b).vaddr + (decodeProgHdr b).memsz) =
      (decodeProgHdr b).vaddr + (decodeProgHdr b).memsz := by
    simp only [u32] at *
    omega
  rw [hend] at h
  obtain ⟨⟨sz1, d1, k1⟩, halloc, h⟩ := bind_eq_ok.mp h
  have hrebuilt := allocuvm_rebuilt halloc
  simp only at h
  split at h
  · cases h
    exact .inl ⟨rfl, hrebuilt⟩
  next hne =>
  obtain ⟨hdense, hlt, hmax⟩ := allocuvm_dense halloc hd (Or.inl hsz) hne
  split at h
  · cases h
    exact .inl ⟨rfl, hrebuilt⟩
  next haligned =>
  obtain ⟨⟨loaded, k2⟩, hloaded, h⟩ := bind_eq_ok.mp h
  have hseg : Segment (decodeProgHdr b) d1 sz1 :=
    ⟨⟨by tauto, by tauto⟩, by omega, by omega, by omega, hdense, hlt⟩
  simp only at h
  split at h
  · next htrue =>
    rw [htrue] at hloaded
    exact .inr ⟨b, hread, .inr ⟨d1, k1, k2, sz1, hmax, hseg, halloc, hloaded, h⟩⟩
  · cases h
    have hle := hseg.le
    have hfile := hseg.filesz
    exact .inl ⟨rfl, hrebuilt.trans (loaduvm_rebuilt hloaded hdense hlt (by omega))⟩

theorem segmentLoop_spec {L : Layout} {off : Nat} {k : Kmem}
    {d d' : PageDir} {r : Option Nat} (h : segmentLoop L ip n off k d sz = .ok (r, d', k'))
    (hd : Dense d sz) (hsz : sz < KERNBASE) :
    Rebuilt k d k' d' ∧ ∀ sz', r = some sz' → Dense d' sz' ∧ sz' < KERNBASE := by
  induction n generalizing off k d sz with
  | zero =>
    cases h
    refine ⟨.refl _ _, ?_⟩
    rintro sz' hsz'
    cases hsz'
    exact ⟨hd, hsz⟩
  | succ n ih =>
    obtain ⟨rfl, hbad⟩ | ⟨b, _, ⟨_, h⟩ | ⟨d1, k1, k2, sz1, _, hseg, halloc, hload, h⟩⟩ :=
      segmentLoop_cases h hd hsz
    · exact ⟨hbad, by simp⟩
    · exact ih h hd hsz
    · obtain ⟨hrest, hdense⟩ := ih h hseg.dense hseg.lt
      have hle := hseg.le
      have hfile := hseg.filesz
      have hloaded := loaduvm_rebuilt hload hseg.dense hseg.lt (by omega)
      exact ⟨((allocuvm_rebuilt halloc).trans hloaded).trans hrest, hdense⟩

theorem setupkvm_dense {L : Layout} {k : Kmem} {d : PageDir}
    (h : setupkvm L k = .ok (some d, k')) : Dense d 0 := by
  intro x hx
  rw [if_neg (Nat.not_lt_zero _)]
  exact ((setupkvm_spec h).2 d rfl).2.1 x hx

theorem execLoad_some {L : Layout} {k : Kmem} {elf : Loaded}
    (h : execLoad L k ip = .ok (some elf, k')) :
    ∃ b d k1, readExact ip 0 elfhdrSize = some b ∧ setupkvm L k = .ok (some d, k1) ∧
      segmentLoop L ip (decodeElfHdr b).phnum (decodeElfHdr b).phoff k1 d 0 =
        .ok (some elf.sz, elf.pgdir, k') := by
  unfold execLoad at h
  split at h
  · cases h
  next b hread =>
  simp only at h
  split at h
  · cases h
  obtain ⟨⟨pgdir, k1⟩, hsetup, h⟩ := bind_eq_ok.mp h
  cases pgdir with
  | none => cases h
  | some pgdir =>
    obtain ⟨⟨sz, d, k2⟩, hload, h⟩ := bind_eq_ok.mp h
    cases sz with
    | none =>
      obtain ⟨k3, _, h⟩ := bind_eq_ok.mp h
      cases h
    | some sz =>
      cases h
      exact ⟨b, pgdir, k1, hread, hsetup, hload⟩

theorem execLoad_spec {L : Layout} {k : Kmem} {r : Option Loaded}
    (h : execLoad L k ip = .ok (r, k')) :
    (r = none → k'.free = k.free) ∧ Confined k.free k k' ∧ ∀ elf, r = some elf →
      elf.pgdir.pages + k'.free = k.free ∧ elf.pgdir.KernelHalf L ∧ Dense elf.pgdir elf.sz ∧
        elf.sz < KERNBASE := by
  unfold execLoad at h
  split at h
  · cases h
    exact ⟨fun _ => rfl, .refl _ _, by simp⟩
  · simp only at h
    split at h
    · cases h
      exact ⟨fun _ => rfl, .refl _ _, by simp⟩
    · obtain ⟨⟨pgdir, k1⟩, hsetup, h⟩ := bind_eq_ok.mp h
      obtain ⟨hnone, hsome⟩ := setupkvm_spec hsetup
      have hfirst := setupkvm_confined hsetup
      cases pgdir with
      | none =>
        cases h
        exact ⟨fun _ => hnone rfl, hfirst, by simp⟩
      | some pgdir =>
        obtain ⟨hpages, _, hkernel, _⟩ := hsome pgdir rfl
        obtain ⟨⟨sz, d, k2⟩, hload, h⟩ := bind_eq_ok.mp h
        obtain ⟨hrebuilt, hloaded⟩ := segmentLoop_spec hload (setupkvm_dense hsetup) (by decide)
        cases sz with
        | none =>
          obtain ⟨k3, hfree, h⟩ := bind_eq_ok.mp h
          cases h
          obtain ⟨hall, hlast⟩ := hrebuilt.freevm hfree
          rw [hpages] at hall hlast
          exact ⟨fun _ => hall, hfirst.trans hlast, by simp⟩
        | some sz =>
          cases h
          have hlast := hrebuilt.confined
          rw [hpages] at hlast
          refine ⟨by simp, hfirst.trans hlast, ?_⟩
          rintro elf helf
          cases helf
          exact ⟨hrebuilt.pages.trans hpages, hrebuilt.kernel.kernelHalf hkernel, hloaded sz rfl⟩

/-- The user half after `exec`: every page below `sz` is mapped, the guard page
`guard` closed to user code and the others open. -/
structure ExecImage (d : PageDir) (guard sz : Nat) : Prop where
  aligned : guard % PGSIZE = 0
  size : sz = guard + 2 * PGSIZE
  lt : sz < KERNBASE
  entry : ∀ x < KERNBASE, if PGROUNDDOWN x < sz
    then ∃ f, d.entry x = some ⟨f, true, decide (PGROUNDDOWN x ≠ guard)⟩ else d.entry x = none

theorem clearpteu_spec {d d' : PageDir} {a : Nat} (h : clearpteu d a = .ok d') (ha : a < 2 ^ 32) :
    d'.pages = d.pages ∧ ∀ x < 2 ^ 32, d'.entry x =
      if x / PGSIZE = a / PGSIZE then (d.entry a).map fun e => { e with u := false }
      else d.entry x := by
  unfold clearpteu at h
  split at h
  · cases h
  · next t ht =>
    cases h
    have hentry (x : Nat) (hx : x < 2 ^ 32) :=
      d.entry_setPte ((t.pte (PTX a)).map fun e => { e with u := false }) ha hx (by simp [ht])
    have hold : d.entry a = t.pte (PTX a) := by simp [PageDir.entry, ht]
    rw [hold]
    refine ⟨?_, hentry⟩
    unfold PageDir.pages
    rw [setPte_frame, tableFrames_congr (tableFrame_setPte d _ _),
      userFrames_congr]
    intro x hx
    rw [hentry x (lt_32_of_user hx)]
    split
    · next hin =>
      rw [d.entry_congr (lt_32_of_user hx) ha hin, hold]
      cases t.pte (PTX a) <;> rfl
    · rfl

theorem Dense.execImage {d d' : PageDir} (h : Dense d (guard + 2 * PGSIZE))
    (hguard : guard % PGSIZE = 0) (hlt : guard + 2 * PGSIZE < KERNBASE)
    (hclear : clearpteu d guard = .ok d') : ExecImage d' guard (guard + 2 * PGSIZE) := by
  have hg : guard < KERNBASE := by omega
  obtain ⟨_, hentry⟩ := clearpteu_spec hclear (lt_32_of_user hg)
  refine ⟨hguard, rfl, hlt, fun x hx => ?_⟩
  rw [hentry x (lt_32_of_user hx)]
  have hiff : x / PGSIZE = guard / PGSIZE ↔ PGROUNDDOWN x = guard := by
    simp only [PGROUNDDOWN, PGSIZE] at *
    omega
  by_cases hin : PGROUNDDOWN x = guard
  · have hbelow : PGROUNDDOWN guard < guard + 2 * PGSIZE := by
      simp only [PGROUNDDOWN, PGSIZE] at *
      omega
    have hold := h guard hg
    rw [if_pos hbelow] at hold
    obtain ⟨f, hf⟩ := hold
    rw [if_pos (hiff.mpr hin), if_pos (by simp only [PGSIZE]; omega), hf]
    exact ⟨f, by simp [hin]⟩
  · rw [if_neg fun hpage => hin (hiff.mp hpage)]
    have hold := h x hx
    split at hold
    · next hbelow =>
      rw [if_pos hbelow]
      obtain ⟨f, hf⟩ := hold
      exact ⟨f, by simp [hf, hin]⟩
    · next hbelow =>
      rw [if_neg hbelow]
      exact hold

theorem clearpteu_rebuilt {d d' : PageDir} {a : Nat} (h : clearpteu d a = .ok d')
    (ha : a < KERNBASE) (k : Kmem) : Rebuilt k d k d' := by
  obtain ⟨hpages, hentry⟩ := clearpteu_spec h (lt_32_of_user ha)
  refine ⟨by rw [hpages], fun x hx hge => ?_, .refl _ _⟩
  rw [hentry x hx, if_neg]
  simp only [PGSIZE, KERNBASE] at *
  omega

/-- The part of `execStack` up to `sp = sz`, which allocates the guard page and
the stack: the directory and `sz`, `none` for `bad`. -/
def allocStack (L : Layout) (k : Kmem) (pgdir : PageDir) (sz : Nat) :
    Except Halt (Option (PageDir × Nat) × Kmem) := do
  let (sz, pgdir, k) ← allocuvm L k pgdir sz (u32 (sz + 2 * PGSIZE))
  if sz = 0 then
    let k ← freevm L k pgdir true
    return (none, k)
  else
    let pgdir ← clearpteu pgdir (sub32 sz (2 * PGSIZE))
    return (some (pgdir, sz), k)

/-- The part of `execStack` behind the allocation of the stack. -/
def pushStack (L : Layout) (k : Kmem) (pgdir : PageDir) (sz : Nat) (argv : List (List UInt8)) :
    Except Halt (Option (PageDir × Nat × Nat) × Kmem) := do
  let (pushed, k) ← pushArgs pgdir argv [] k sz
  match pushed with
  | none =>
    let k ← freevm L k pgdir true
    return (none, k)
  | some (args, sp) =>
    let words := stackWords args sp
    let sp := sub32 sp (words.length * 4)
    let (copied, k) ← copyout k pgdir sp (words.flatMap leBytes)
    if copied then return (some (pgdir, sz, sp), k)
    else
      let k ← freevm L k pgdir true
      return (none, k)

theorem execStack_eq (L : Layout) (k : Kmem) (d : PageDir) (guard : Nat)
    (argv : List (List UInt8)) : execStack L k d guard argv = allocStack L k d guard >>= fun r =>
      match r.1 with
      | none => .ok (none, r.2)
      | some (d, sz) => pushStack L r.2 d sz argv := by
  unfold execStack allocStack
  cases allocuvm L k d guard (u32 (guard + 2 * PGSIZE)) with
  | error e => rfl
  | ok r =>
    obtain ⟨sz, d1, k1⟩ := r
    simp only [ok_bind]
    split
    · cases freevm L k1 d1 true <;> rfl
    · cases clearpteu d1 (sub32 sz (2 * PGSIZE)) <;> rfl

theorem execStack_of_allocStack {L : Layout} {k k1 : Kmem} {d d1 : PageDir}
    (h : allocStack L k d guard = .ok (some (d1, sz), k1)) :
    execStack L k d guard argv = pushStack L k1 d1 sz argv := by
  rw [execStack_eq, h]
  rfl

theorem execStack_cases {L : Layout} {k : Kmem} {d : PageDir} {r : Option (PageDir × Nat × Nat)}
    (h : execStack L k d guard argv = .ok (r, k')) :
    (r = none ∧ allocStack L k d guard = .ok (none, k')) ∨
      ∃ d1 sz k1, allocStack L k d guard = .ok (some (d1, sz), k1) ∧
        pushStack L k1 d1 sz argv = .ok (r, k') := by
  rw [execStack_eq] at h
  obtain ⟨⟨stack, k1⟩, halloc, h⟩ := bind_eq_ok.mp h
  cases stack with
  | none =>
    cases h
    exact .inl ⟨rfl, halloc⟩
  | some stack => exact .inr ⟨stack.1, stack.2, k1, halloc, h⟩

theorem allocStack_spec {L : Layout} {k : Kmem} {d : PageDir}
    {r : Option (PageDir × Nat)} (h : allocStack L k d guard = .ok (r, k')) (hd : Dense d guard)
    (hlt : guard ≤ KERNBASE) (hguard : guard % PGSIZE = 0) :
    (r = none → k'.free = d.pages + k.free ∧ Confined (d.pages + k.free) k k') ∧
      ∀ d' sz, r = some (d', sz) → ∃ d1,
        allocuvm L k d guard (guard + 2 * PGSIZE) = .ok (guard + 2 * PGSIZE, d1, k') ∧
        clearpteu d1 guard = .ok d' ∧ ExecImage d' guard sz := by
  obtain ⟨⟨sz, d1, k1⟩, halloc, h⟩ := bind_eq_ok.mp h
  have hnew : u32 (guard + 2 * PGSIZE) = guard + 2 * PGSIZE := by
    simp only [u32, PGSIZE, KERNBASE] at *
    omega
  rw [hnew] at halloc
  dsimp only at h
  split at h
  · obtain ⟨k2, hfree, h⟩ := bind_eq_ok.mp h
    cases h
    exact ⟨fun _ => (allocuvm_rebuilt halloc).freevm hfree, by simp⟩
  · next hne =>
    obtain ⟨hdense, hsz, hmax⟩ := allocuvm_dense halloc hd (Or.inr (Nat.le_add_right _ _)) hne
    rw [max_eq_right (Nat.le_add_right _ _)] at hmax
    subst hmax
    have hclearat : sub32 (guard + 2 * PGSIZE) (2 * PGSIZE) = guard := by
      simp only [sub32, u32, PGSIZE, KERNBASE] at *
      omega
    obtain ⟨d2, hclear, h⟩ := bind_eq_ok.mp h
    rw [hclearat] at hclear
    cases h
    refine ⟨by simp, ?_⟩
    rintro d' sz hr
    cases hr
    exact ⟨d1, halloc, hclear, hdense.execImage hguard hsz hclear⟩

theorem pushStack_spec {L : Layout} {k : Kmem} {d : PageDir} {r : Option (PageDir × Nat × Nat)}
    (h : pushStack L k d sz argv = .ok (r, k')) (hd : d.KernelClosed) :
    (r = none → k'.free = d.pages + k.free ∧ Confined (d.pages + k.free) k k') ∧
      ∀ d' sz' sp, r = some (d', sz', sp) → d' = d ∧ sz' = sz ∧ Rebuilt k d k' d := by
  obtain ⟨⟨pushed, k1⟩, hpush, h⟩ := bind_eq_ok.mp h
  have hpushed : Rebuilt k d k1 d := .of_writes (pushArgs_free hpush) (pushArgs_confined hd hpush)
  cases pushed with
  | none =>
    obtain ⟨k2, hfree, h⟩ := bind_eq_ok.mp h
    cases h
    exact ⟨fun _ => hpushed.freevm hfree, by simp⟩
  | some pushed =>
    obtain ⟨⟨copied, k2⟩, hcopy, h⟩ := bind_eq_ok.mp h
    have hcopied := hpushed.trans
      (.of_writes (copyout_free hcopy) (copyoutLoop_confined hd hcopy (sub32_lt _ _)))
    cases copied with
    | false =>
      obtain ⟨k3, hfree, h⟩ := bind_eq_ok.mp h
      cases h
      exact ⟨fun _ => hcopied.freevm hfree, by simp⟩
    | true =>
      cases h
      refine ⟨by simp, ?_⟩
      rintro d' sz' sp hr
      cases hr
      exact ⟨rfl, rfl, hcopied⟩

theorem execStack_spec {L : Layout} {k : Kmem} {d : PageDir} {r : Option (PageDir × Nat × Nat)}
    (h : execStack L k d guard argv = .ok (r, k')) (hkernel : d.KernelHalf L) (hd : Dense d guard)
    (hlt : guard ≤ KERNBASE) (hguard : guard % PGSIZE = 0) :
    (r = none → k'.free = d.pages + k.free ∧ Confined (d.pages + k.free) k k') ∧
      ∀ d' sz sp, r = some (d', sz, sp) → Rebuilt k d k' d' ∧ ExecImage d' guard sz := by
  obtain ⟨rfl, hstack⟩ | ⟨d2, sz, k1, hstack, hpush⟩ := execStack_cases h
  · exact ⟨fun _ => (allocStack_spec hstack hd hlt hguard).1 rfl, by simp⟩
  · obtain ⟨d1, halloc, hclear, himage⟩ := (allocStack_spec hstack hd hlt hguard).2 d2 sz rfl
    have hguard' : guard < KERNBASE := by
      have hsize := himage.size
      have hmax := himage.lt
      omega
    have hbuilt := (allocuvm_rebuilt halloc).trans (clearpteu_rebuilt hclear hguard' k1)
    obtain ⟨hbad, hgood⟩ := pushStack_spec hpush (hbuilt.kernel.kernelHalf hkernel).closed
    constructor
    · intro hnone
      obtain ⟨hfree, hconfined⟩ := hbad hnone
      rw [hbuilt.pages] at hfree hconfined
      exact ⟨hfree, hbuilt.confined.trans hconfined⟩
    · intro d' sz' sp hr
      obtain ⟨rfl, rfl, hpushed⟩ := hgood d' sz' sp hr
      exact ⟨hbuilt.trans hpushed, himage⟩

theorem Dense.roundup {d : PageDir} (h : Dense d sz) (hsz : sz < KERNBASE) :
    Dense d (PGROUNDUP sz) := by
  intro x hx
  have hiff : PGROUNDDOWN x < PGROUNDUP sz ↔ PGROUNDDOWN x < sz := by
    simp only [PGROUNDUP, PGROUNDDOWN, u32, PGSIZE, KERNBASE] at *
    omega
  rw [if_congr hiff rfl rfl]
  exact h x hx

/-- The outcomes of `exec`: on failure only the recorded guard page can have
changed, on success the process has a new image. -/
theorem exec_spec {L : Layout} {k : Kmem} {p p' : Proc} {ip : Option (List UInt8)}
    {path : List UInt8}
    (h : exec L k p ip path argv = .ok (b, p', k')) :
    (b = false ∧ k'.free = k.free ∧ ∃ g, p' = { p with guardPage := g }) ∨
      b = true ∧ ∃ d d' : PageDir, ∃ eip esp name, p.pgdir = some d ∧ p' = { p with
          guardPage := p'.guardPage, pgdir := some d', sz := p'.sz, eip := eip, esp := esp
          name := name } ∧
        d'.pages + k'.free = d.pages + k.free ∧ d'.KernelHalf L ∧
        ExecImage d' p'.guardPage p'.sz := by
  unfold exec at h
  split at h
  · cases h
    exact .inl ⟨rfl, rfl, p.guardPage, rfl⟩
  · obtain ⟨⟨loaded, k1⟩, hload, h⟩ := bind_eq_ok.mp h
    obtain ⟨hnone, _, hsome⟩ := execLoad_spec hload
    cases loaded with
    | none =>
      cases h
      exact .inl ⟨rfl, hnone rfl, p.guardPage, rfl⟩
    | some elf =>
      obtain ⟨hpages, hkernel, hdense, hsz⟩ := hsome elf rfl
      have hle := roundup_le hsz
      obtain ⟨⟨image, k2⟩, hstack, h⟩ := bind_eq_ok.mp h
      obtain ⟨hbad, hgood⟩ :=
        execStack_spec hstack hkernel (hdense.roundup hsz) hle (Nat.mul_mod_left _ _)
      cases image with
      | none =>
        cases h
        exact .inl ⟨rfl, (hbad rfl).1.trans hpages, PGROUNDUP elf.sz, rfl⟩
      | some image =>
        obtain ⟨d', sz, sp⟩ := image
        obtain ⟨hrebuilt, himage⟩ := hgood d' sz sp rfl
        simp only at h
        cases hd : p.pgdir with
        | none =>
          rw [hd] at h
          cases h
        | some d =>
          rw [hd] at h
          obtain ⟨k3, hfree, h⟩ := bind_eq_ok.mp h
          cases h
          refine .inr ⟨rfl, d, d', elf.entry, sp, progName path, rfl, rfl, ?_,
            hrebuilt.kernel.kernelHalf hkernel, himage⟩
          rw [freevm_spec hfree, ← hpages, ← hrebuilt.pages]
          abel

/-- The ends of a failed `exec`: before the program is loaded, with the process
as it was, or behind that, with the guard page of the program. -/
theorem exec_fails {L : Layout} {k k' : Kmem} {p p' : Proc} {ip : Option (List UInt8)}
    {path : List UInt8} {argv : List (List UInt8)}
    (h : exec L k p ip path argv = .ok (false, p', k')) :
    k'.free = k.free ∧ Confined k.free k k' ∧
      ((p' = p ∧ ∀ file elf k1, ip = some file → execLoad L k file ≠ .ok (some elf, k1)) ∨
        ∃ file elf k1, ip = some file ∧ execLoad L k file = .ok (some elf, k1) ∧
          p' = { p with guardPage := PGROUNDUP elf.sz }) := by
  unfold exec at h
  split at h
  · cases h
    exact ⟨rfl, .refl _ _, .inl ⟨rfl, by simp⟩⟩
  · next file =>
    obtain ⟨⟨loaded, k1⟩, hload, h⟩ := bind_eq_ok.mp h
    obtain ⟨hnone, hfirst, hsome⟩ := execLoad_spec hload
    cases loaded with
    | none =>
      cases h
      refine ⟨hnone rfl, hfirst, .inl ⟨rfl, ?_⟩⟩
      rintro _ elf k2 hfile hload'
      cases hfile
      cases hload.symm.trans hload'
    | some elf =>
      obtain ⟨hpages, hkernel, hdense, hsz⟩ := hsome elf rfl
      have hle := roundup_le hsz
      obtain ⟨⟨image, k2⟩, hstack, h⟩ := bind_eq_ok.mp h
      obtain ⟨hbad, _⟩ :=
        execStack_spec hstack hkernel (hdense.roundup hsz) hle (Nat.mul_mod_left _ _)
      cases image with
      | none =>
        cases h
        obtain ⟨hfree, hlast⟩ := hbad rfl
        rw [hpages] at hfree hlast
        exact ⟨hfree, hfirst.trans hlast, .inr ⟨file, elf, k1, rfl, hload, rfl⟩⟩
      | some image =>
        obtain ⟨d', sz, sp⟩ := image
        simp only at h
        cases hd : p.pgdir with
        | none =>
          rw [hd] at h
          cases h
        | some d =>
          rw [hd] at h
          obtain ⟨k3, _, h⟩ := bind_eq_ok.mp h
          cases h

end Xv6.Vm

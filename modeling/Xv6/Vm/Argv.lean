import Xv6.Vm.Loader

/-!
The arguments that a new program finds. `exec` pushes the strings downwards
from `sz`, each at a multiple of four, and below them one block of words: a
return address, `argc`, the address of the array of pointers, the array and a
null pointer. The page below the stack is the guard page, which `copyout` does
not write to, so that whatever the number and lengths of the arguments all of
it lies in the one stack page, or `exec` fails.
-/

namespace Xv6.Vm

open Lib Kernel List

/-! ### What the program reads -/

/-- The strings of an array of pointers at `a` that ends with a null pointer. -/
def readArgv (m : Bytes) (fuel : Nat) : Nat → Nat → Option (List (List UInt8))
  | 0, _ => none
  | n + 1, a =>
    if le32 m a = 0 then some []
    else (readString m fuel (le32 m a)).bind fun s =>
      (readArgv m fuel n (a + 4)).map fun rest => s :: rest

/-- The stack at the start of a program: the return address, `argc` and the
strings of `argv`. -/
def decodeStack (m : Bytes) (fuel esp : Nat) : Option (Nat × Nat × List (List UInt8)) :=
  (readArgv m fuel fuel (le32 m (esp + 8))).map fun argv => (le32 m esp, le32 m (esp + 4), argv)

theorem readArgv_eq {m : Bytes} {fuel n a : Nat} {addrs : List Nat} {argv : List (List UInt8)}
    (hstrings : List.Forall₂ (fun addr arg => addr ≠ 0 ∧ readString m fuel addr = some arg)
      addrs argv) (hwords : WordsAt m a (addrs ++ [0])) (hn : addrs.length < n) :
    readArgv m fuel n a = some argv := by
  induction hstrings generalizing n a with
  | nil =>
    cases n with
    | zero => exact absurd hn (Nat.not_lt_zero _)
    | succ n => exact if_pos hwords.cons.1
  | cons hstring _ ih =>
    cases n with
    | zero => exact absurd hn (Nat.not_lt_zero _)
    | succ n =>
      obtain ⟨hne, hread⟩ := hstring
      obtain ⟨hword, hrest⟩ := hwords.cons
      rw [readArgv, hword, if_neg hne, hread, ih hrest (Nat.lt_of_succ_lt_succ hn)]
      rfl

/-! ### The words -/

theorem leBytes_eq (n : Nat) : leBytes n = [leByte n 0, leByte n 1, leByte n 2, leByte n 3] := by
  simp [leBytes, leByte]

theorem getD_words (words : List Nat) {j b : Nat} (hj : j < words.length) (hb : b < 4) :
    (words.flatMap leBytes).getD (4 * j + b) 0 = leByte (words.getD j 0) b := by
  induction words generalizing j with
  | nil => exact absurd hj (Nat.not_lt_zero _)
  | cons w words ih =>
    rw [flatMap_cons]
    cases j with
    | zero =>
      rw [getD_append _ _ _ _ (by simp [leBytes]; omega), leBytes_eq]
      interval_cases b <;> rfl
    | succ j =>
      have hlen : (leBytes w).length = 4 := rfl
      rw [getD_append_right _ _ _ _ (by rw [hlen]; omega), hlen,
        show 4 * (j + 1) + b - 4 = 4 * j + b by omega, getD_cons_succ]
      exact ih (by simpa using hj)

theorem wordsAt_of_bytes {m : Bytes} {a : Nat} {words : List Nat}
    (h : ∀ i < words.length * 4, m (a + i) = (words.flatMap leBytes).getD i 0)
    (hwords : ∀ w ∈ words, w < 2 ^ 32) : WordsAt m a words := by
  intro j hj
  have hbytes : ∀ b < 4, m (a + 4 * j + b) = leByte (words.getD j 0) b := by
    intro b hb
    rw [Nat.add_assoc, h _ (by omega), getD_words words hj hb]
  rw [le32_leByte hbytes]
  refine Nat.mod_eq_of_lt (hwords _ ?_)
  rw [getD_eq_getElem _ _ hj]
  exact getElem_mem hj

/-! ### One push -/

theorem ExecImage.open_cases {d : PageDir} {guard sz x : Nat} (h : ExecImage d guard sz)
    (hclosed : d.KernelClosed) (hx : x < 2 ^ 32) (hok : d.UserOk x) :
    x < guard ∨ (guard + PGSIZE ≤ x ∧ x < sz) := by
  have hsize := h.size
  have haligned := h.aligned
  by_cases hkernel : KERNBASE ≤ x
  · exact absurd hok (hclosed x hx hkernel)
  have hentry := h.entry x (by omega)
  obtain ⟨e, he, hu⟩ := hok
  split at hentry
  · next hin =>
    obtain ⟨f, hf⟩ := hentry
    rw [hf] at he
    cases he
    have hne : PGROUNDDOWN x ≠ guard := of_decide_eq_true hu
    simp only [PGROUNDDOWN, PGSIZE] at *
    omega
  · rw [hentry] at he
    cases he

theorem ExecImage.push_bounds {d : PageDir} {guard sz sp n : Nat} (h : ExecImage d guard sz)
    (hclosed : d.KernelClosed) (hsp : guard + PGSIZE ≤ sp) (hle : sp ≤ sz) (h4 : sp % 4 = 0)
    (hn : 0 < n) (hopen : d.Open (sub32 sp n / 4 * 4) (sub32 sp n / 4 * 4 + n)) :
    guard + PGSIZE ≤ sub32 sp n / 4 * 4 ∧ sub32 sp n / 4 * 4 + n ≤ sp := by
  have hsz := h.lt
  have hcases (x : Nat) (hx : x < 2 ^ 32) (hlo : sub32 sp n / 4 * 4 ≤ x)
      (hhi : x < sub32 sp n / 4 * 4 + n) := h.open_cases hclosed hx (hopen x hlo hhi)
  by_cases hwrap : sp < n
  · -- the range passes the start of the kernel half, where nothing is open
    have hva : sub32 sp n / 4 * 4 < 2 ^ 32 ∧ 2 ^ 32 ≤ sub32 sp n / 4 * 4 + n := by
      simp only [sub32, u32, KERNBASE, PGSIZE] at *
      omega
    have hkernel := hcases (max (sub32 sp n / 4 * 4) KERNBASE)
      (by simp only [KERNBASE]; omega) (le_max_left _ _) (by simp only [KERNBASE]; omega)
    simp only [KERNBASE, PGSIZE] at *
    omega
  · have hva : sub32 sp n / 4 * 4 = (sp - n) / 4 * 4 := by
      simp only [sub32, u32, KERNBASE] at *
      omega
    rw [hva] at hcases ⊢
    -- the word below `sp` is in the stack page, and the guard page is not crossed
    have htop := hcases (sp - 4) (by simp only [KERNBASE] at *; omega) (by omega) (by omega)
    by_contra hbad
    have hguard := hcases (guard + PGSIZE - 1) (by simp only [PGSIZE, KERNBASE] at *; omega)
      (by simp only [PGSIZE] at *; omega) (by simp only [PGSIZE] at *; omega)
    simp only [PGSIZE] at *
    omega

/-! ### All pushes -/

/-- The parts that have been pushed from `sp` down to `sp'`, into the page with
frame `stack`. -/
structure Pushes (d : PageDir) (guard stack : Nat) (parts : List (Nat × List UInt8))
    (k : Kmem) (sp : Nat) (k' : Kmem) (sp' : Nat) : Prop where
  low : guard + PGSIZE ≤ sp'
  le : sp' ≤ sp
  aligned : sp' % 4 = 0
  within : ∀ part ∈ parts, sp' ≤ part.1 ∧ part.1 + part.2.length ≤ sp
  apart : parts.Pairwise fun a b => b.1 + b.2.length ≤ a.1
  bytes : ∀ x < KERNBASE, d.byte k' x = storeAll (d.byte k) parts x
  confined : Confined {stack} k k'

namespace Pushes

variable {d : PageDir} {guard stack sp sp1 sp2 : Nat} {parts parts' : List (Nat × List UInt8)}
  {k k1 k2 : Kmem}

theorem nil (hlow : guard + PGSIZE ≤ sp) (h4 : sp % 4 = 0) : Pushes d guard stack [] k sp k sp :=
  ⟨hlow, le_rfl, h4, by simp, .nil, fun _ _ => rfl, .refl _ _⟩

theorem trans (h : Pushes d guard stack parts k sp k1 sp1)
    (h' : Pushes d guard stack parts' k1 sp1 k2 sp2) :
    Pushes d guard stack (parts ++ parts') k sp k2 sp2 where
  low := h'.low
  le := h'.le.trans h.le
  aligned := h'.aligned
  within part hpart := by
    obtain hpart | hpart := mem_append.mp hpart
    · exact ⟨h'.le.trans (h.within part hpart).1, (h.within part hpart).2⟩
    · exact ⟨(h'.within part hpart).1, (h'.within part hpart).2.trans h.le⟩
  apart := pairwise_append.mpr ⟨h.apart, h'.apart, fun a ha b hb =>
    (h'.within b hb).2.trans (h.within a ha).1⟩
  bytes x hx := by
    rw [h'.bytes x hx, storeAll_append]
    exact storeAll_congr (h.bytes x hx) parts'
  confined := h.confined.trans h'.confined

theorem part_bytes (h : Pushes d guard stack parts k sp k1 sp1) (hsp : sp ≤ KERNBASE)
    {part : Nat × List UInt8} (hpart : part ∈ parts) {i : Nat} (hi : i < part.2.length) :
    d.byte k1 (part.1 + i) = part.2.getD i 0 := by
  have hin := h.within part hpart
  rw [h.bytes _ (by omega)]
  exact storeAll_inside (h.apart.imp fun hab => .inr hab) hpart hi

theorem outside (h : Pushes d guard stack parts k sp k1 sp1) {x : Nat} (hx : x < KERNBASE)
    (hout : x < guard + PGSIZE ∨ sp ≤ x) : d.byte k1 x = d.byte k x := by
  rw [h.bytes x hx]
  refine storeAll_outside fun part hpart => ?_
  have hin := h.within part hpart
  have hlow := h.low
  omega

end Pushes

theorem ExecImage.copyout_pushes {d : PageDir} {guard sz sp : Nat} {buf : List UInt8} {e : Pte}
    {k k' : Kmem} (h : ExecImage d guard sz) (hclosed : d.KernelClosed)
    (hnodup : d.userFrames.Nodup) (he : d.entry (guard + PGSIZE) = some e)
    (hsp : guard + PGSIZE ≤ sp) (hle : sp ≤ sz) (h4 : sp % 4 = 0) (hbuf : 0 < buf.length)
    (hcopy : copyout k d (sub32 sp buf.length / 4 * 4) buf = .ok (true, k')) :
    Pushes d guard e.addr [(sub32 sp buf.length / 4 * 4, buf)] k sp k'
      (sub32 sp buf.length / 4 * 4) := by
  have hsize := h.size
  have haligned := h.aligned
  have hsub := sub32_lt sp buf.length
  have hresult := copyout_result hclosed hnodup k buf
    (show sub32 sp buf.length / 4 * 4 < 2 ^ 32 by omega)
  rw [hcopy] at hresult
  cases hresult with
  | copied hopen hfree hbytes hwrites =>
    obtain ⟨hlow, hhigh⟩ := h.push_bounds hclosed hsp hle h4 hbuf hopen
    refine ⟨hlow, by omega, Nat.mul_mod_left _ _, ?_, pairwise_singleton _ _, hbytes, ?_⟩
    · rintro part hpart
      cases mem_singleton.mp hpart
      exact ⟨le_rfl, hhigh⟩
    · intro f hf
      obtain hsame | ⟨x, e', hlo, hhi, he', _, hframe⟩ := hwrites f
      · exact hsame
      · -- the whole range has the entry of the stack page
        have hpage : x / PGSIZE = (guard + PGSIZE) / PGSIZE := by
          simp only [PGSIZE] at *
          omega
        rw [d.entry_of_page hpage, he] at he'
        cases he'
        exact absurd (Multiset.mem_singleton.mpr hframe.symm) hf

/-- The strings of the arguments with their places. -/
def argParts (addrs : List Nat) (argv : List (List UInt8)) : List (Nat × List UInt8) :=
  List.zipWith (fun addr arg => (addr, arg ++ [0])) addrs argv

theorem pushArgs_pushes {d : PageDir} {guard sz : Nat} {e : Pte} (himage : ExecImage d guard sz)
    (hclosed : d.KernelClosed) (hnodup : d.userFrames.Nodup)
    (he : d.entry (guard + PGSIZE) = some e) {argv : List (List UInt8)} {ustack args : List Nat}
    {sp sp' : Nat} {k k' : Kmem} (h : pushArgs d argv ustack k sp = .ok (some (args, sp'), k'))
    (hsp : guard + PGSIZE ≤ sp) (hle : sp ≤ sz) (h4 : sp % 4 = 0) :
    ∃ addrs, args = ustack ++ addrs ∧ addrs.length = argv.length ∧
      Pushes d guard e.addr (argParts addrs argv) k sp k' sp' := by
  induction argv generalizing ustack k sp with
  | nil =>
    cases h
    exact ⟨[], by simp, rfl, .nil hsp h4⟩
  | cons arg rest ih =>
    unfold pushArgs at h
    split at h
    · cases h
    · obtain ⟨⟨copied, k1⟩, hcopy, h⟩ := bind_eq_ok.mp h
      cases copied with
      | false => cases h
      | true =>
        have hlen : (arg ++ [0]).length = arg.length + 1 := by simp
        have hpush := himage.copyout_pushes hclosed hnodup he hsp hle h4
          (show 0 < (arg ++ [0]).length by omega) (hlen ▸ hcopy)
        rw [hlen] at hpush
        obtain ⟨addrs, hargs, hcount, hpushes⟩ := ih h hpush.low (hpush.le.trans hle) hpush.aligned
        refine ⟨_ :: addrs, by rw [hargs, append_assoc]; rfl, by simp [hcount], ?_⟩
        exact hpush.trans hpushes

/-- The strings, and below them the block of words. -/
def stackParts (esp : Nat) (addrs : List Nat) (argv : List (List UInt8)) :
    List (Nat × List UInt8) :=
  argParts addrs argv ++
    [(esp, (0xffffffff :: argv.length :: (esp + 12) :: (addrs ++ [0])).flatMap leBytes)]

theorem pushStack_pushes {L : Layout} {d d' : PageDir} {guard sz sz' esp : Nat} {e : Pte}
    {k k' : Kmem} {argv : List (List UInt8)} (himage : ExecImage d guard sz)
    (hclosed : d.KernelClosed) (hnodup : d.userFrames.Nodup)
    (he : d.entry (guard + PGSIZE) = some e)
    (h : pushStack L k d sz argv = .ok (some (d', sz', esp), k')) :
    ∃ addrs, addrs.length = argv.length ∧
      Pushes d guard e.addr (stackParts esp addrs argv) k sz k' esp := by
  have hsize := himage.size
  have haligned := himage.aligned
  have hlt := himage.lt
  obtain ⟨⟨pushed, k1⟩, hpush, h⟩ := bind_eq_ok.mp h
  cases pushed with
  | none =>
    obtain ⟨k2, _, h⟩ := bind_eq_ok.mp h
    cases h
  | some pushed =>
    obtain ⟨args, sp⟩ := pushed
    obtain ⟨⟨copied, k2⟩, hcopy, h⟩ := bind_eq_ok.mp h
    cases copied with
    | false =>
      obtain ⟨k3, _, h⟩ := bind_eq_ok.mp h
      cases h
    | true =>
      cases h
      obtain ⟨_, rfl, hcount, hpushes⟩ := pushArgs_pushes himage hclosed hnodup he hpush
        (by omega) le_rfl (by simp only [PGSIZE] at *; omega)
      have hbuf := length_words (stackWords args sp)
      have hwords : (stackWords args sp).length = argv.length + 4 := by
        simp [stackWords, hcount]
      rw [hwords] at hbuf hcopy ⊢
      have h4 := hpushes.aligned
      have hva : sub32 sp ((argv.length + 4) * 4) / 4 * 4 = sub32 sp ((argv.length + 4) * 4) := by
        simp only [sub32, u32]
        omega
      have hlast := himage.copyout_pushes hclosed hnodup he hpushes.low
        hpushes.le h4 (show 0 < ((stackWords args sp).flatMap leBytes).length by omega)
        (by rw [hbuf, hva]; exact hcopy)
      rw [hbuf, hva] at hlast
      have hsp : sub32 sp ((argv.length + 4) * 4) + (argv.length + 4) * 4 = sp := by
        have hhigh := (hlast.within _ (mem_singleton_self _)).2
        have hle := hpushes.le
        rw [hbuf] at hhigh
        simp only [sub32, u32, KERNBASE] at *
        omega
      have harray : sub32 sp ((args.length + 1) * 4) = sub32 sp ((argv.length + 4) * 4) + 12 := by
        have hle := hpushes.le
        simp only [sub32, u32, KERNBASE] at *
        omega
      have hstack : stackWords args sp = 0xffffffff :: argv.length ::
          (sub32 sp ((argv.length + 4) * 4) + 12) :: (args ++ [0]) := by
        rw [stackWords, harray, hcount]
        rfl
      rw [hstack] at hlast
      exact ⟨args, hcount, hpushes.trans hlast⟩

/-! ### The round trip -/

/-- The pieces of the new stack, as address and length: the three words on top,
the array of pointers and the strings. -/
def stackRegions (esp : Nat) (addrs : List Nat) (argv : List (List UInt8)) : List (Nat × Nat) :=
  (esp, 12) :: (esp + 12, 4 * (argv.length + 1)) ::
    (argParts addrs argv).map fun part => (part.1, part.2.length)

/-- Where the arguments are: the pointers to the strings in order, and all
pieces apart from each other in the stack page. -/
structure StackLayout (m : Bytes) (guard esp : Nat) (argv : List (List UInt8))
    (addrs : List Nat) : Prop where
  count : addrs.length = argv.length
  array : le32 m (esp + 8) = esp + 12
  pointers : WordsAt m (esp + 12) (addrs ++ [0])
  within : ∀ r ∈ stackRegions esp addrs argv, guard + PGSIZE ≤ r.1 ∧ r.1 + r.2 ≤ guard + 2 * PGSIZE
  apart : (stackRegions esp addrs argv).Pairwise fun a b => a.1 + a.2 ≤ b.1 ∨ b.1 + b.2 ≤ a.1

/-- What `exec` has done for the arguments, from the memory `k` of the loaded
image to `k'`: the new program finds them, and only the stack page and pages
that are free now have been written to. -/
structure ArgsPassed (d : PageDir) (guard : Nat) (k k' : Kmem) (argv : List (List UInt8))
    (esp : Nat) : Prop where
  aligned : esp % 4 = 0
  decoded : ∀ fuel, PGSIZE ≤ fuel →
    decodeStack (d.byte k') fuel esp = some (0xffffffff, argv.length, argv)
  layout : ∃ addrs, StackLayout (d.byte k') guard esp argv addrs
  outside : ∀ x < KERNBASE, x < guard + PGSIZE ∨ guard + 2 * PGSIZE ≤ x → d.byte k' x = d.byte k x
  page : ∃ e, d.entry (guard + PGSIZE) = some e ∧ Confined ({e.addr} + k'.free) k k'

theorem stackWords_length (esp : Nat) (addrs : List Nat) (argv : List (List UInt8)) :
    ((0xffffffff :: argv.length :: (esp + 12) :: (addrs ++ [0])).flatMap leBytes).length =
      12 + 4 * (addrs.length + 1) := by
  rw [length_words]
  simp only [length_cons, length_append, length_nil]
  omega

section

variable {m : Bytes} {guard esp : Nat} {addrs : List Nat} {argv : List (List UInt8)}
  (hcount : addrs.length = argv.length)
  (hbytes : ∀ part ∈ stackParts esp addrs argv, ∀ i < part.2.length,
    m (part.1 + i) = part.2.getD i 0)
  (hwithin : ∀ part ∈ stackParts esp addrs argv,
    guard + PGSIZE ≤ part.1 ∧ part.1 + part.2.length ≤ guard + 2 * PGSIZE)

theorem mem_stackParts {part : Nat × List UInt8} :
    part ∈ stackParts esp addrs argv ↔ part ∈ argParts addrs argv ∨ part =
      (esp, (0xffffffff :: argv.length :: (esp + 12) :: (addrs ++ [0])).flatMap leBytes) := by
  rw [stackParts, mem_append, mem_singleton]

theorem string_mem_stackParts (esp : Nat) {i : Nat} (h1 : i < addrs.length)
    (h2 : i < argv.length) : (addrs[i], argv[i] ++ [0]) ∈ stackParts esp addrs argv := by
  refine mem_stackParts.mpr (Or.inl ?_)
  have hi : i < (argParts addrs argv).length := by
    rw [argParts, length_zipWith]
    omega
  have hget : (argParts addrs argv)[i] = (addrs[i], argv[i] ++ [0]) := getElem_zipWith
  exact hget ▸ getElem_mem hi

include hwithin in
theorem words_within : guard + PGSIZE ≤ esp ∧
    esp + (12 + 4 * (addrs.length + 1)) ≤ guard + 2 * PGSIZE := by
  have hin := hwithin _ (mem_stackParts.mpr (Or.inr rfl))
  rwa [stackWords_length] at hin

include hcount hbytes hwithin

theorem wordsAt_esp (hlt : guard + 2 * PGSIZE < KERNBASE) :
    WordsAt m esp (0xffffffff :: argv.length :: (esp + 12) :: (addrs ++ [0])) := by
  have hin := words_within hwithin
  have hbound : esp + 12 < 2 ^ 32 ∧ argv.length < 2 ^ 32 := by
    simp only [KERNBASE] at hlt
    omega
  refine wordsAt_of_bytes (fun i hi => hbytes _ (mem_stackParts.mpr (Or.inr rfl)) i ?_)
    fun w hw => ?_
  · rw [← length_words] at hi
    exact hi
  · simp only [mem_cons, mem_append, not_mem_nil, or_false] at hw
    obtain rfl | rfl | rfl | hw | rfl := hw
    · decide
    · exact hbound.2
    · exact hbound.1
    · -- the address of a string is that of a part
      obtain ⟨i, hi, rfl⟩ := mem_iff_getElem.mp hw
      have hstring := (hwithin _ (string_mem_stackParts esp hi (hcount ▸ hi))).2
      dsimp only at hstring
      simp only [KERNBASE] at hlt
      omega
    · decide

theorem decodeStack_eq (hlt : guard + 2 * PGSIZE < KERNBASE) (hargv : ∀ arg ∈ argv, 0 ∉ arg)
    {fuel : Nat} (hfuel : PGSIZE ≤ fuel) :
    decodeStack m fuel esp = some (0xffffffff, argv.length, argv) := by
  obtain ⟨hret, hrest⟩ := (wordsAt_esp hcount hbytes hwithin hlt).cons
  obtain ⟨hargc, hrest⟩ := hrest.cons
  obtain ⟨harray, hpointers⟩ := hrest.cons
  have hread : List.Forall₂ (fun addr arg => addr ≠ 0 ∧ readString m fuel addr = some arg)
      addrs argv := by
    refine forall₂_iff_get.mpr ⟨hcount, fun i h1 h2 => ?_⟩
    have hpart := string_mem_stackParts esp h1 h2
    have hin := hwithin _ hpart
    rw [length_append, length_singleton] at hin
    have hpos : addrs[i] ≠ 0 ∧ argv[i].length < fuel := by
      simp only [PGSIZE] at hin hfuel
      omega
    refine ⟨hpos.1, readString_eq (hargv _ (getElem_mem h2)) (fun j hj => ?_) hpos.2⟩
    refine hbytes _ hpart j ?_
    rw [length_append, length_singleton]
    exact hj
  have hin := words_within hwithin
  have hdecoded : readArgv m fuel fuel (esp + 12) = some argv :=
    readArgv_eq hread hpointers (by omega)
  have harray' : le32 m (esp + 8) = esp + 12 := harray
  rw [decodeStack, harray', hdecoded, hret, hargc]
  rfl

theorem stackLayout (hlt : guard + 2 * PGSIZE < KERNBASE)
    (hapart : (stackParts esp addrs argv).Pairwise fun a b => b.1 + b.2.length ≤ a.1) :
    StackLayout m guard esp argv addrs := by
  obtain ⟨_, hrest⟩ := (wordsAt_esp hcount hbytes hwithin hlt).cons
  obtain ⟨harray, hpointers⟩ := hrest.cons.2.cons
  have hin := words_within hwithin
  obtain ⟨hstrings, _, hbelow⟩ := pairwise_append.mp hapart
  -- the block of words ends below every string
  have hwords (part : Nat × List UInt8) (hpart : part ∈ argParts addrs argv) :
      esp + (12 + 4 * (argv.length + 1)) ≤ part.1 := by
    have hle := hbelow part hpart _ (mem_singleton_self _)
    dsimp only at hle
    rwa [stackWords_length, hcount] at hle
  refine ⟨hcount, harray, hpointers, ?_, ?_⟩
  · intro r hr
    simp only [stackRegions, mem_cons, mem_map] at hr
    obtain rfl | rfl | ⟨part, hpart, rfl⟩ := hr
    · exact ⟨hin.1, by omega⟩
    · exact ⟨by omega, by dsimp only; omega⟩
    · exact hwithin part (mem_stackParts.mpr (Or.inl hpart))
  · refine pairwise_cons.mpr ⟨fun r hr => .inl ?_, pairwise_cons.mpr
      ⟨fun r hr => .inl ?_, pairwise_map.mpr (hstrings.imp fun hab => .inr hab)⟩⟩
    · simp only [mem_cons, mem_map] at hr
      obtain rfl | ⟨part, hpart, rfl⟩ := hr
      · exact le_rfl
      · have hle := hwords part hpart
        dsimp only
        omega
    · obtain ⟨part, hpart, rfl⟩ := mem_map.mp hr
      have hle := hwords part hpart
      dsimp only
      omega

end

theorem loadImage_built {L : Layout} {k k' : Kmem} {ip : List UInt8} {img : Image}
    (h : loadImage L k ip = .ok (some img, k')) (hnodup : k.free.Nodup) :
    Built L img.pgdir ∧ img.pgdir.pages + k'.free = k.free := by
  obtain ⟨elf, k1, hload, hstack, _, _⟩ := loadImage_some h
  obtain ⟨hpages, _, hdense, hsz⟩ := (execLoad_spec hload).2.2 elf rfl
  have hle := roundup_le hsz
  obtain ⟨d1, halloc, hclear, himage⟩ :=
    (allocStack_spec hstack (hdense.roundup hsz) hle (Nat.mul_mod_left _ _)).2 _ _ rfl
  have hguard : PGROUNDUP elf.sz < KERNBASE := by
    have hsize := himage.size
    have hlt := himage.lt
    omega
  have hbuilt := (allocuvm_rebuilt halloc).trans (clearpteu_rebuilt hclear hguard k')
  exact ⟨((execLoad_built hload hnodup).1.alloc (hpages ▸ hnodup) halloc).clear hguard hclear,
    hbuilt.pages.trans hpages⟩

theorem exec_succeeds {L : Layout} {k k' : Kmem} {p p' : Proc} {ip : Option (List UInt8)}
    {path : List UInt8} {argv : List (List UInt8)}
    (h : exec L k p ip path argv = .ok (true, p', k')) :
    ∃ file d0 img k1 k2 d sz, ip = some file ∧ p.pgdir = some d0 ∧
      loadImage L k file = .ok (some img, k1) ∧
      pushStack L k1 img.pgdir img.sz argv = .ok (some (d, sz, p'.esp), k2) ∧
      freevm L k2 d0 true = .ok k' ∧ p'.pgdir = some d ∧ p'.sz = sz ∧
      p'.guardPage = img.guard ∧ p'.eip = img.entry := by
  unfold exec at h
  split at h
  · cases h
  · next file =>
    obtain ⟨⟨loaded, k1⟩, hload, h⟩ := bind_eq_ok.mp h
    cases loaded with
    | none => cases h
    | some elf =>
      obtain ⟨⟨image, k2⟩, hstack, h⟩ := bind_eq_ok.mp h
      obtain ⟨rfl, _⟩ | ⟨d1, sz1, k3, halloc, hpush⟩ := execStack_cases hstack
      · cases h
      cases image with
      | none => cases h
      | some image =>
        obtain ⟨d, sz, sp⟩ := image
        simp only at h
        cases hd : p.pgdir with
        | none =>
          rw [hd] at h
          cases h
        | some d0 =>
          rw [hd] at h
          obtain ⟨k4, hfree, h⟩ := bind_eq_ok.mp h
          cases h
          have himage : loadImage L k file =
              .ok (some ⟨elf.entry, d1, PGROUNDUP elf.sz, sz1⟩, k3) :=
            bind_eq_ok.mpr ⟨_, hload, bind_eq_ok.mpr ⟨_, halloc, rfl⟩⟩
          exact ⟨file, d0, _, k3, k2, d, sz, rfl, rfl, himage, hpush, hfree, rfl, rfl, rfl, rfl⟩

/-- A program that `exec` has started finds its arguments: the strings, the
array of pointers and the words on top lie in the stack page, apart from each
other, and reading them gives the arguments of the call. -/
theorem argv_round_trip {L : Layout} {k k' : Kmem} {p p' : Proc} {ip : Option (List UInt8)}
    {path : List UInt8} {argv : List (List UInt8)}
    (h : exec L k p ip path argv = .ok (true, p', k')) (hfree : k.free.Nodup)
    (hspace : ∀ d, p.pgdir = some d → ∀ f ∈ d.pages, f ∉ k.free)
    (hargv : ∀ arg ∈ argv, 0 ∉ arg) :
    ∃ file img k1, ip = some file ∧ loadImage L k file = .ok (some img, k1) ∧
      p'.pgdir = some img.pgdir ∧ p'.sz = img.guard + 2 * PGSIZE ∧ p'.guardPage = img.guard ∧
      ArgsPassed img.pgdir img.guard k1 k' argv p'.esp := by
  obtain ⟨file, d0, img, k1, k2, d, sz, hip, hd0, hload, hpush, hfreevm, hpgdir, hsz, hguard, _⟩ :=
    exec_succeeds h
  obtain ⟨hbuilt, hpages⟩ := loadImage_built hload hfree
  obtain ⟨himage, _⟩ := loadImage_bytes hload hfree
  have hclosed := hbuilt.kernelHalf.closed
  obtain ⟨rfl, rfl, hrebuilt⟩ := (pushStack_spec hpush hclosed).2 d sz p'.esp rfl
  have hsize := himage.size
  have hlt := himage.lt
  obtain ⟨e, he, _⟩ := himage.stack_open (img.guard + PGSIZE) le_rfl (by
    simp only [PGSIZE]
    omega)
  obtain ⟨addrs, hcount, hpushes⟩ :=
    pushStack_pushes himage hclosed hbuilt.userFrames_nodup he hpush
  -- the frames of the new image are not those that are freed last
  have hlast := freevm_confined hfreevm
  have hused : ∀ f ∈ img.pgdir.userFrames, f ∉ d0.pages + k2.free := by
    intro f hf hmem
    have hmem' : f ∈ img.pgdir.pages := by
      rw [PageDir.pages_eq]
      exact Multiset.mem_add.mpr (Or.inr hf)
    have hall := hrebuilt.pages.trans hpages
    obtain hold | hnew := Multiset.mem_add.mp hmem
    · refine hspace d0 hd0 f hold ?_
      rw [← hall]
      exact Multiset.mem_add.mpr (Or.inl hmem')
    · rw [← hall] at hfree
      exact Multiset.disjoint_left.mp (Multiset.nodup_add.mp hfree).2.2 hmem' hnew
  have hkept (x : Nat) (hx : x < KERNBASE) : img.pgdir.byte k' x = img.pgdir.byte k2 x :=
    hlast.byte hused hx
  have hwithin (part : Nat × List UInt8) (hpart : part ∈ stackParts p'.esp addrs argv) :
      img.guard + PGSIZE ≤ part.1 ∧ part.1 + part.2.length ≤ img.guard + 2 * PGSIZE := by
    have hin := hpushes.within part hpart
    have hlow := hpushes.low
    omega
  have hbytes (part : Nat × List UInt8) (hpart : part ∈ stackParts p'.esp addrs argv) (i : Nat)
      (hi : i < part.2.length) : img.pgdir.byte k' (part.1 + i) = part.2.getD i 0 := by
    have hin := hwithin part hpart
    rw [hkept _ (by omega)]
    exact hpushes.part_bytes hlt.le hpart hi
  have hend : img.guard + 2 * PGSIZE < KERNBASE := by omega
  refine ⟨file, img, k1, hip, hload, hpgdir, hsz.trans hsize, hguard, hpushes.aligned,
    fun fuel hfuel => decodeStack_eq hcount hbytes hwithin hend hargv hfuel,
    ⟨addrs, stackLayout hcount hbytes hwithin hend hpushes.apart⟩, fun x hx hout => ?_, e, he, ?_⟩
  · rw [hkept x hx]
    exact hpushes.outside hx (by omega)
  · rw [freevm_spec hfreevm]
    refine (hpushes.confined.mono ?_).trans (hlast.mono ?_)
    · exact Multiset.subset_of_le (Multiset.le_add_right _ _)
    · exact Multiset.subset_of_le (Multiset.le_add_left _ _)

/-- The first process runs `tinyElf` with two arguments. -/
theorem argv_round_trip_two : ∃ κ0 : Kernel, ∃ q k d, boot smallLayout 1 [0xEB, 0xFE] = .ok κ0 ∧
    exec smallLayout κ0.kmem (κ0.proc κ0.initproc) (some tinyElf) [105] [[97, 98], [99]] =
      .ok (true, q, k) ∧ q.pgdir = some d ∧
    decodeStack (d.byte k) PGSIZE q.esp = some (0xffffffff, 2, [[97, 98], [99]]) := by
  obtain ⟨κ0, d', k1, hboot, hload, _, _, hfree⟩ := boot_load_tinyElf
  have hlive := (boot_live hboot _).mpr rfl
  obtain ⟨kstack, d0, _, hproc, _⟩ := boot_first hboot
  have hd0 : (κ0.proc κ0.initproc).pgdir = some d0 := by
    rw [hproc]
    rfl
  have hinv := (boot_spec hboot).1
  have hlt : PGROUNDUP 1 + 2 * PGSIZE < KERNBASE := by decide
  obtain ⟨q, k, hexec, _⟩ := exec_ok smallLayout [105] [[97, 98], [99]] hload hd0
    (hinv.pages_ok hlive hd0) hlt (by decide) (by decide) hfree
  have hnodup := Multiset.nodup_of_le (hinv.space_le hlive hd0)
    (Multiset.coe_nodup.mpr (handed_nodup smallLayout))
  obtain ⟨hspace, hfree', hdisjoint⟩ := Multiset.nodup_add.mp hnodup
  obtain ⟨_, img, _, _, _, hpgdir, _, _, hpassed⟩ := argv_round_trip hexec hfree'
    (fun d hd f hf => by
      cases hd0.symm.trans hd
      exact Multiset.disjoint_left.mp hdisjoint hf)
    (by decide)
  exact ⟨κ0, q, k, img.pgdir, hboot, hexec, hpgdir, hpassed.decoded PGSIZE le_rfl⟩

end Xv6.Vm

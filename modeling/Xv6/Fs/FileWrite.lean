import Mathlib.Logic.Relation
import Xv6.Fs.ReadWrite

/-!
`filewrite` through one `struct file` by any number of processes. A call is cut
into transactions of at most 1536 bytes; between `ilock` and `iunlock` a part is
written at the shared offset and the offset is advanced, and between the parts of
one call those of others may come. Beside the state the parts are kept in the order
of the locks, each with the number of its call.
-/

namespace Xv6.Fs

open Lib Relation Function List

/-- A call of `filewrite`: its bytes, its variable `i`, and what it has returned. -/
structure WriteCall where
  src : List UInt8
  i : Nat
  ret : Option Int

/-- The file on the disk, the fields `ip` and `off` of the `struct file`, and the calls. -/
structure Writers where
  disk : Disk
  ip : Dinode
  off : Nat
  calls : List WriteCall
  order : List (Nat × List UInt8)

inductive WriteAct where
  | call (src : List UInt8)
  /-- one round of the loop of call `c` -/
  | chunk (c : Nat)
  | finish (c : Nat)

/-- `max` of `filewrite` -/
def maxChunk : Nat := (MAXOPBLOCKS - 1 - 1 - 2) / 2 * 512

def WriteCall.chunk (call : WriteCall) : List UInt8 :=
  (call.src.drop call.i).take (min (call.src.length - call.i) maxChunk)

/-- `return i == n ? n : -1;` -/
def WriteCall.result (call : WriteCall) : Int :=
  if call.i = call.src.length then call.src.length else -1

namespace Writers

variable (devsw : Devsw) (inum : Nat)

/-- The acts, for a file that was opened for writing. -/
def step (w : Writers) : WriteAct → Option (Except Panic Writers)
  | .call src => some (.ok { w with calls := w.calls ++ [⟨src, 0, none⟩] })
  | .chunk c =>
    match w.calls[c]? with
    | none => none
    | some call =>
      if call.ret = none ∧ call.i < call.src.length then some do
        let (r, ip, disk) ← writei devsw w.disk inum w.ip w.off call.chunk
        let off := if 0 < r then w.off + r.toNat else w.off
        let w := { w with disk := disk, ip := ip, off := off }
        if r < 0 then
          .ok { w with calls := w.calls.set c { call with ret := some call.result } }
        else if r ≠ call.chunk.length then .error .filewrite
        else .ok { w with
          calls := w.calls.set c { call with i := call.i + r.toNat }
          order := w.order ++ [(c, call.chunk)] }
      else none
  | .finish c =>
    match w.calls[c]? with
    | none => none
    | some call =>
      if call.ret = none ∧ call.src.length ≤ call.i then
        some (.ok { w with
          calls := w.calls.set c { call with ret := some call.result } })
      else none

def Next (w w' : Writers) : Prop := ∃ a, w.step devsw inum a = some (.ok w')

end Writers

/-- The parts of call `c`, one after the other. -/
def chunksOf (order : List (Nat × List UInt8)) (c : Nat) : List UInt8 :=
  ((order.filter fun x => x.1 == c).map Prod.snd).flatten

/-- How many bytes the calls are about, and how many of them are written. -/
def Writers.total (w : Writers) : Nat := (w.calls.map fun call => call.src.length).sum

def Writers.done (w : Writers) : Nat := (w.calls.map WriteCall.i).sum

/-- The disk has not the blocks that the next part of a call needs. -/
def Writers.Full (w : Writers) (call : WriteCall) : Prop :=
  w.disk.nfree < missing w.disk w.ip (needed w.off call.chunk.length)

/-- A file that has been opened at the end of its contents; no call has begun. -/
structure Writers.Opened (ino : Nat → Dinode) (inum : Nat) (w : Writers) : Prop where
  owned : w.disk.Owned (update ino inum w.ip)
  inum : inum < w.disk.sb.ninodes
  type : w.ip.type = T_FILE
  fits : w.ip.Fits
  holeFree : w.disk.HoleFree w.ip
  off : w.off = w.ip.size
  calls : w.calls = []
  order : w.order = []

/-- What a call has done, by the parts that are written. -/
structure WriteCall.Sound (order : List (Nat × List UInt8)) (c : Nat) (call : WriteCall) :
    Prop where
  le : call.i ≤ call.src.length
  chunks : chunksOf order c = call.src.take call.i
  ret : ∀ r, call.ret = some r → r = call.src.length ∧ call.i = call.src.length

structure Writers.Appended (ino : Nat → Dinode) (inum : Nat) (old : List UInt8) (w : Writers) :
    Prop where
  owned : w.disk.Owned (update ino inum w.ip)
  inum : inum < w.disk.sb.ninodes
  type : w.ip.type = T_FILE
  fits : w.ip.Fits
  holeFree : w.disk.HoleFree w.ip
  off : w.off = w.ip.size
  contents : w.disk.contents w.ip = old ++ (w.order.map Prod.snd).flatten
  calls : ∀ (c : Nat) (call : WriteCall), w.calls[c]? = some call → call.Sound w.order c
  order : ∀ x ∈ w.order, x.1 < w.calls.length
  size : w.ip.size = old.length + w.done

section

variable {calls : List WriteCall} {c : Nat} {call : WriteCall}

theorem chunk_length (call : WriteCall) :
    call.chunk.length = min (call.src.length - call.i) maxChunk := by
  unfold WriteCall.chunk
  rw [length_take, length_drop]
  omega

theorem chunk_append (call : WriteCall) :
    call.src.take call.i ++ call.chunk = call.src.take (call.i + call.chunk.length) := by
  rw [chunk_length, take_add]
  rfl

theorem done_set (hc : calls[c]? = some call) (call' : WriteCall) {n : Nat}
    (hi : call'.i = call.i + n) :
    ((calls.set c call').map WriteCall.i).sum = (calls.map WriteCall.i).sum + n := by
  induction calls generalizing c with
  | nil => cases hc
  | cons first rest ih =>
    cases c with
    | zero =>
      cases hc
      simp only [set_cons_zero, map_cons, sum_cons, hi]
      omega
    | succ c =>
      have hrest := ih hc
      simp only [set_cons_succ, map_cons, sum_cons, hrest]
      omega

theorem total_set (hc : calls[c]? = some call) (call' : WriteCall) (hsrc : call'.src = call.src) :
    ((calls.set c call').map fun call => call.src.length).sum =
      (calls.map fun call => call.src.length).sum := by
  induction calls generalizing c with
  | nil => cases hc
  | cons first rest ih =>
    cases c with
    | zero =>
      cases hc
      simp only [set_cons_zero, map_cons, sum_cons, hsrc]
    | succ c =>
      have hrest := ih hc
      simp only [set_cons_succ, map_cons, sum_cons, hrest]

theorem done_le (hall : ∀ call ∈ calls, call.i ≤ call.src.length) (hc : calls[c]? = some call) :
    (calls.map WriteCall.i).sum + (call.src.length - call.i) ≤
      (calls.map fun call => call.src.length).sum := by
  have hsum (l : List WriteCall) (hl : ∀ call ∈ l, call.i ≤ call.src.length) :
      (l.map WriteCall.i).sum ≤ (l.map fun call => call.src.length).sum := by
    induction l with
    | nil => exact Nat.le_refl _
    | cons first rest ih =>
      have hfirst := hl first mem_cons_self
      have hrest := ih fun call hmem => hl call (mem_cons_of_mem _ hmem)
      simp only [map_cons, sum_cons]
      omega
  induction calls generalizing c with
  | nil => cases hc
  | cons first rest ih =>
    have hfirst := hall first mem_cons_self
    have hrest : ∀ call ∈ rest, call.i ≤ call.src.length :=
      fun call hmem => hall call (mem_cons_of_mem _ hmem)
    simp only [map_cons, sum_cons]
    cases c with
    | zero =>
      cases hc
      have hle := hsum rest hrest
      omega
    | succ c =>
      have hle := ih hrest hc
      omega

theorem chunksOf_append (order : List (Nat × List UInt8)) (n c : Nat) (x : List UInt8) :
    chunksOf (order ++ [(n, x)]) c = chunksOf order c ++ if n = c then x else [] := by
  unfold chunksOf
  by_cases hn : n = c
  · simp [hn]
  · simp [hn]

end

namespace Writers

variable {devsw : Devsw} {ino : Nat → Dinode} {inum : Nat} {old : List UInt8} {w w' : Writers}

theorem Opened.appended (h : w.Opened ino inum) : w.Appended ino inum (w.disk.contents w.ip) := by
  refine ⟨h.owned, h.inum, h.type, h.fits, h.holeFree, h.off, ?_, ?_, ?_, ?_⟩
  · simp [h.order]
  · intro c call hc
    simp [h.calls] at hc
  · simp [h.order]
  · simp [contents_length, Writers.done, h.calls]

namespace Appended

theorem call (h : w.Appended ino inum old) (src : List UInt8) :
    Appended ino inum old { w with calls := w.calls ++ [⟨src, 0, none⟩] } := by
  refine ⟨h.owned, h.inum, h.type, h.fits, h.holeFree, h.off, h.contents, ?_, ?_, ?_⟩
  · intro c call hc
    rw [List.getElem?_append] at hc
    split at hc
    · exact h.calls c call hc
    · next hge =>
      -- no part of the new call is written yet
      have hnone : chunksOf w.order c = [] := by
        unfold chunksOf
        rw [filter_eq_nil_iff.mpr]
        · rfl
        · intro x hx
          have hlt := h.order x hx
          simp only [beq_iff_eq]
          omega
      obtain ⟨hzero, rfl⟩ : c - w.calls.length = 0 ∧ (⟨src, 0, none⟩ : WriteCall) = call := by
        rcases Nat.eq_zero_or_pos (c - w.calls.length) with hzero | hpos
        · rw [hzero] at hc
          exact ⟨hzero, Option.some.inj hc⟩
        · rw [List.getElem?_eq_none (by simp; omega)] at hc
          cases hc
      exact ⟨Nat.zero_le _, hnone, fun r hr => nomatch hr⟩
  · intro x hx
    have hlt := h.order x hx
    simp only [length_append, length_singleton]
    omega
  · rw [h.size]
    simp [done]

theorem set (h : w.Appended ino inum old) {c : Nat} {new : WriteCall}
    {order : List (Nat × List UInt8)}
    (hothers : ∀ d, d ≠ c → chunksOf order d = chunksOf w.order d) (hnew : new.Sound order c)
    (d : Nat) (call : WriteCall) (hd : (w.calls.set c new)[d]? = some call) :
    call.Sound order d := by
  rw [List.getElem?_set] at hd
  split at hd
  · next heq =>
    subst heq
    split at hd
    · cases hd
      exact hnew
    · cases hd
  · next hne =>
    have hold := h.calls d call hd
    exact ⟨hold.le, (hothers d (Ne.symm hne)).trans hold.chunks, hold.ret⟩

theorem finish (h : w.Appended ino inum old) {c : Nat} {call : WriteCall}
    (hc : w.calls[c]? = some call) (hend : call.src.length ≤ call.i) :
    Appended ino inum old
      { w with calls := w.calls.set c { call with ret := some call.result } } := by
  have hold := h.calls c call hc
  have hi : call.i = call.src.length := Nat.le_antisymm hold.le hend
  refine ⟨h.owned, h.inum, h.type, h.fits, h.holeFree, h.off, h.contents, ?_, ?_, ?_⟩
  · apply h.set (fun _ _ => rfl)
    refine ⟨hold.le, hold.chunks, fun r hr => ?_⟩
    cases hr
    exact ⟨if_pos hi, hi⟩
  · intro x hx
    rw [length_set]
    exact h.order x hx
  · have hsum := done_set hc { call with ret := some call.result } (n := 0) rfl
    rw [h.size]
    exact congrArg (old.length + ·) hsum.symm

/-- The next part of a call is written at the end of the file. -/
theorem chunk (devsw : Devsw) (h : w.Appended ino inum old) {c : Nat} {call : WriteCall}
    (hc : w.calls[c]? = some call) (hret : call.ret = none) (hlt : call.i < call.src.length)
    (hroom : old.length + w.total ≤ MAXFILE * BSIZE) :
    ∃ r, w.step devsw inum (.chunk c) = some r ∧
      Yields (fun e => e = .balloc ∧ w.Full call) (fun w' => Appended ino inum old w' ∧
        w'.calls = w.calls.set c { call with i := call.i + call.chunk.length }) r := by
  have hguard : call.ret = none ∧ call.i < call.src.length := ⟨hret, hlt⟩
  simp only [step, hc, if_pos hguard, Option.some.injEq, exists_eq_left']
  have hold := h.calls c call hc
  have hlength := chunk_length call
  have hmax : 0 < maxChunk := by decide
  have hpos : 0 < call.chunk.length := by omega
  have hdone : w.done + (call.src.length - call.i) ≤ w.total := by
    apply done_le _ hc
    intro other hmem
    obtain ⟨d, hd⟩ := mem_iff_getElem?.mp hmem
    exact (h.calls d other hd).le
  have hself : update ino inum w.ip inum = w.ip := update_self _ _ _
  have hsize := h.size
  have hoff := h.off
  have hwrite : Yields (fun e => e = .balloc ∧ w.disk.nfree <
        missing w.disk (update ino inum w.ip inum) (needed w.off call.chunk.length))
      (WriteiDone w.disk (update ino inum w.ip) inum w.off call.chunk)
      (writei devsw w.disk inum (update ino inum w.ip inum) w.off call.chunk) := by
    apply writei_or_short devsw h.owned h.inum
    · rw [hself, h.type]
      decide
    · rw [hself]
      exact h.fits
    · rw [hself]
      exact h.holeFree
    · rw [hself]
      omega
    · omega
  rw [hself] at hwrite
  refine hwrite.bind ?_
  rintro ⟨r, ip, disk⟩ hdone'
  have hresult := hdone'.result
  have hfields := hdone'.fields
  have howned := hdone'.owned
  have hcontents := hdone'.contents
  simp only [hself, update_idem] at hfields howned hcontents
  dsimp only at hresult hfields howned hcontents ⊢
  subst hresult
  have hnat : ((call.chunk.length : Nat) : Int).toNat = call.chunk.length := Int.toNat_natCast _
  have hresult : (0 : Int) < call.chunk.length := by omega
  have hneg : ¬ (call.chunk.length : Int) < 0 := by omega
  simp only [hresult, hneg, ne_eq, not_true_eq_false, ↓reduceIte, hnat]
  have hip : ip.size = w.off + call.chunk.length := by
    rw [hfields]
    dsimp only
    omega
  apply yields_ok
  refine ⟨?_, rfl⟩
  refine ⟨howned, ?_, ?_, hdone'.fits, hdone'.holeFree, hip.symm, ?_, ?_, ?_, ?_⟩
  · have hsb := hdone'.sb
    dsimp only at hsb ⊢
    rw [hsb]
    exact h.inum
  · rw [hfields]
    exact h.type
  · have htake : (w.disk.contents w.ip).take w.off = w.disk.contents w.ip :=
      take_of_length_le (by rw [contents_length]; omega)
    have hdrop : (w.disk.contents w.ip).drop (w.off + call.chunk.length) = [] :=
      drop_of_length_le (by rw [contents_length]; omega)
    rw [hcontents, htake, hdrop, h.contents]
    simp
  · apply h.set
    · intro d hd
      rw [chunksOf_append, if_neg (Ne.symm hd), append_nil]
    · refine ⟨?_, ?_, fun r hr => ?_⟩
      · dsimp only
        omega
      · rw [chunksOf_append, if_pos rfl, hold.chunks]
        exact chunk_append call
      · rw [hret] at hr
        cases hr
  · intro x hx
    rw [length_set]
    rcases mem_append.mp hx with hx | hx
    · exact h.order x hx
    · rw [mem_singleton.mp hx]
      exact (List.getElem?_eq_some_iff.mp hc).1
  · have hsum := done_set hc { call with i := call.i + call.chunk.length } rfl
    have hnew : done { w with
        disk := disk, ip := ip, off := w.off + call.chunk.length
        calls := w.calls.set c { call with i := call.i + call.chunk.length }
        order := w.order ++ [(c, call.chunk)] } = w.done + call.chunk.length := hsum
    rw [hnew]
    dsimp only
    omega

end Appended

theorem total_le (h : w.Next devsw inum w') : w.total ≤ w'.total := by
  obtain ⟨a, ha⟩ := h
  cases a with
  | call src =>
    cases ha
    simp [total]
  | chunk c =>
    dsimp only [step] at ha
    split at ha
    · cases ha
    · next call hc =>
      simp only [Option.ite_none_right_eq_some, Option.some.injEq] at ha
      obtain ⟨_, ha⟩ := ha
      obtain ⟨⟨r, ip, disk⟩, _, ha⟩ := bind_eq_ok.mp ha
      dsimp only at ha
      split at ha
      · cases ha
        exact Nat.le_of_eq (total_set hc { call with ret := some call.result } rfl).symm
      · split at ha
        · cases ha
        · cases ha
          exact Nat.le_of_eq (total_set hc { call with i := call.i + r.toNat } rfl).symm
  | finish c =>
    dsimp only [step] at ha
    split at ha
    · cases ha
    · next call hc =>
      simp only [Option.ite_none_right_eq_some, Option.some.injEq] at ha
      obtain ⟨_, ha⟩ := ha
      cases ha
      exact Nat.le_of_eq (total_set hc { call with ret := some call.result } rfl).symm

theorem Appended.next (h : w.Appended ino inum old) (hroom : old.length + w.total ≤ MAXFILE * BSIZE)
    (hnext : w.Next devsw inum w') : w'.Appended ino inum old := by
  obtain ⟨a, ha⟩ := hnext
  cases a with
  | call src =>
    cases ha
    exact h.call src
  | chunk c =>
    have hguard := ha
    dsimp only [step] at hguard
    split at hguard
    · cases hguard
    · next call hc =>
      obtain ⟨hret, hlt⟩ := (Option.ite_none_right_eq_some.mp hguard).1
      obtain ⟨r, hstep, hr⟩ := h.chunk devsw hc hret hlt hroom
      exact (hr.sound w' (Option.some.inj (hstep.symm.trans ha))).1
  | finish c =>
    dsimp only [step] at ha
    split at ha
    · cases ha
    · next call hc =>
      simp only [Option.ite_none_right_eq_some, Option.some.injEq] at ha
      obtain ⟨⟨_, hend⟩, ha⟩ := ha
      cases ha
      exact h.finish hc hend

theorem Appended.of_run {w0 : Writers} (h : w0.Opened ino inum)
    (hrun : ReflTransGen (Next devsw inum) w0 w)
    (hroom : w0.ip.size + w.total ≤ MAXFILE * BSIZE) :
    w.Appended ino inum (w0.disk.contents w0.ip) := by
  induction hrun with
  | refl => exact h.appended
  | tail _ hnext ih =>
    have hle := total_le hnext
    have hmid := ih (by omega)
    exact hmid.next (by rw [contents_length]; omega) hnext

/-- Calls of `filewrite` through one `struct file`, in any interleaving: the file is
what it was, with the parts of all calls behind it in the order of the locks; the
parts of one call are its bytes from the first on; and a call that has returned has
written all its bytes and returned their number. A call that has not is never stuck:
its next part is written, for which the disk must have the blocks, and behind the last it
returns. -/
theorem filewrite_appends {w0 : Writers} (h : w0.Opened ino inum)
    (hrun : ReflTransGen (Next devsw inum) w0 w)
    (hroom : w0.ip.size + w.total ≤ MAXFILE * BSIZE) :
    w.disk.contents w.ip = w0.disk.contents w0.ip ++ (w.order.map Prod.snd).flatten ∧
    w.off = w.ip.size ∧
    ∀ (c : Nat) (call : WriteCall), w.calls[c]? = some call →
      chunksOf w.order c = call.src.take call.i ∧
      (∀ r, call.ret = some r → r = call.src.length ∧ call.i = call.src.length) ∧
      (call.ret = none → call.i < call.src.length → ¬ w.Full call → 0 < call.chunk.length ∧
        ∃ w', w.step devsw inum (.chunk c) = some (.ok w') ∧
          w'.calls[c]? = some { call with i := call.i + call.chunk.length }) ∧
      (call.ret = none → call.src.length ≤ call.i →
        ∃ w', w.step devsw inum (.finish c) = some (.ok w') ∧
          w'.calls[c]? = some { call with ret := some (call.src.length : Int) }) := by
  have hw := Appended.of_run h hrun hroom
  refine ⟨hw.contents, hw.off, ?_⟩
  intro c call hc
  have hcall := hw.calls c call hc
  have hset (new : WriteCall) : (w.calls.set c new)[c]? = some new := by
    rw [List.getElem?_set, if_pos rfl, if_pos (List.getElem?_eq_some_iff.mp hc).1]
  refine ⟨hcall.chunks, hcall.ret, ?_, ?_⟩
  · intro hret hlt hspace
    have hmax : 0 < maxChunk := by decide
    have hlength := chunk_length call
    refine ⟨by omega, ?_⟩
    obtain ⟨r, hstep, hr⟩ :=
      hw.chunk devsw hc hret hlt (by rw [contents_length]; exact hroom)
    cases r with
    | error e => exact absurd (hr.errs e rfl).2 hspace
    | ok w' =>
      refine ⟨w', hstep, ?_⟩
      rw [(hr.sound w' rfl).2]
      exact hset _
  · intro hret hend
    have hi : call.i = call.src.length := Nat.le_antisymm hcall.le hend
    have hresult : call.result = call.src.length := if_pos hi
    refine ⟨{ w with calls := w.calls.set c { call with ret := some call.result } }, ?_, ?_⟩
    · simp only [step, hc, hret, hend, and_self, ↓reduceIte]
    · rw [← hresult]
      exact hset _

open Mkfs in
/-- The file of an image of `mkfs`, with a call that is about to write two bytes. -/
theorem filewrite_mounted : ∃ img, mkfs [⟨[97], [1]⟩] = .ok img ∧
    ∃ w : Writers, w.calls = [⟨[2, 3], 0, none⟩] ∧ w.disk.contents w.ip = [1] ∧
      ∃ w', w.step ⟨fun _ => none, fun _ => none⟩ 2 (.chunk 0) = some (.ok w') ∧
        w'.calls[0]? = some ⟨[2, 3], 2, none⟩ := by
  obtain ⟨img, s, himg, hs, hcontents, hsize, htype, hfree⟩ := mounted_oneFile
  have hopened : Opened (fileInodes [⟨[97], [1]⟩] img) 2
      ⟨mounted img, inodeAt img 2, 1, [], []⟩ := by
    refine ⟨?_, ?_, htype, Dinode.fits_read _ _, hfree, hsize.symm, rfl, rfl⟩
    · have hself : update (fileInodes [⟨[97], [1]⟩] img) 2 (inodeAt img 2) =
          fileInodes [⟨[97], [1]⟩] img := update_eq_self 2 _
      rw [hself]
      exact hs.owned
    · rw [hs.mounted_sb]
      decide
  have hrun : ReflTransGen (Next ⟨fun _ => none, fun _ => none⟩ 2)
      ⟨mounted img, inodeAt img 2, 1, [], []⟩
      ⟨mounted img, inodeAt img 2, 1, [⟨[2, 3], 0, none⟩], []⟩ :=
    ReflTransGen.single ⟨.call [2, 3], rfl⟩
  have hroom : 1 + 2 ≤ MAXFILE * BSIZE := by decide
  obtain ⟨_, _, hcalls⟩ := filewrite_appends hopened hrun (by rw [hsize]; exact hroom)
  have hnone : missing (mounted img) (inodeAt img 2) (needed 1 2) = 0 :=
    missing_present hfree (by rw [hsize]; decide)
  have hspace : ¬ Full ⟨mounted img, inodeAt img 2, 1, [⟨[2, 3], 0, none⟩], []⟩
      ⟨[2, 3], 0, none⟩ := Nat.not_lt.mpr (hnone.trans_le (Nat.zero_le _))
  exact ⟨img, himg, _, rfl, hcontents, ((hcalls 0 _ rfl).2.2.1 rfl (by decide) hspace).2⟩

end Writers

end Xv6.Fs

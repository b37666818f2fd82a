import Xv6.Logging.Model

/-!
The space reservation of `begin_op`. Any number of operations run
concurrently; each call is atomic under `log.lock`. The model keeps for every
admitted operation the set of blocks it has logged, which the kernel does not
record, so that a bound on what one operation logs can be stated.

`mkfs` lays out a log of `LOGSIZE` blocks, one of which is the header, while
`begin_op` admits operations up to `LOGSIZE` data blocks and `log_write`
accepts a call only while fewer than `log.size - 1` blocks are logged.
-/

namespace Xv6.Logging

open Finset List Option

/-- The in-memory log and, for each operation between `begin_op` and `end_op`,
the blocks it has logged. -/
structure Group where
  log : Log
  ops : List (Finset Nat)

inductive Call where
  | beginOp
  | logWrite (op b : Nat)
  | endOp (op : Nat)
  | commitDone
  deriving DecidableEq

variable {K op : Nat} {blocks : Finset Nat}

namespace Group

/-- The log that `mkfs` lays out, after boot. -/
def init (start : Nat) : Group := ⟨initlog start LOGSIZE, []⟩

/-- One call. `ok none` means that the caller sleeps. The `commit` that the
last `end_op` runs is over at `commitDone`, which empties the header and
clears `committing`. -/
def step (s : Group) : Call → Except Panic (Option Group)
  | .beginOp => .ok ((beginOp s.log).map fun lg => ⟨lg, s.ops ++ [∅]⟩)
  | .logWrite op b =>
    match logWrite s.log b with
    | .ok lg => .ok (some ⟨lg, s.ops.modify op (insert b)⟩)
    | .error p => .error p
  | .endOp op =>
    match endOp s.log with
    | .ok (lg, _) => .ok (some ⟨lg, s.ops.eraseIdx op⟩)
    | .error p => .error p
  | .commitDone =>
    .ok (if s.log.committing then some ⟨{ s.log.clear with committing := false }, s.ops⟩ else none)

/-- Calls are made by admitted operations, and no operation logs more than
`K` distinct blocks. -/
def Fits (K : Nat) (s : Group) : Call → Prop
  | .logWrite op b => op < s.ops.length ∧ (insert b (s.ops.getD op ∅)).card ≤ K
  | .endOp op => op < s.ops.length
  | _ => True

instance (K : Nat) (s : Group) (c : Call) : Decidable (Fits K s c) := by
  cases c <;> unfold Fits <;> infer_instance

/-- One call that fits, is not put to sleep and does not panic. -/
def advance (K : Nat) (s : Group) (c : Call) : Option Group :=
  if Fits K s c then
    match s.step c with
    | .ok next => next
    | .error _ => none
  else none

/-- The state after a sequence of calls by operations that log at most `K`
distinct blocks each. -/
def run (K start : Nat) (calls : List Call) : Option Group :=
  calls.foldlM (advance K) (init start)

/-- The distinct blocks passed to `log_write` since the last commit, read off
the sequence of calls. -/
def loggedSince (blocks : Finset Nat) : Call → Finset Nat
  | .logWrite _ b => insert b blocks
  | .commitDone => ∅
  | _ => blocks

def groupBlocks (calls : List Call) : Finset Nat := calls.foldl loggedSince ∅

/-- What the operations of the group may log at most: what is logged and the
unused part of each reservation of `K` blocks. -/
def potential (K : Nat) (s : Group) : Nat :=
  s.log.lh.n + (s.ops.map fun blocks => K - blocks.card).sum

/-- The invariant of every run. `blocks` are the group's blocks so far. The
last field is the reservation: with operations outstanding, the room that
they may still use lies within what `begin_op` tested. -/
structure Admitted (K : Nat) (s : Group) (blocks : Finset Nat) : Prop where
  size : s.log.size = LOGSIZE
  count : s.log.outstanding = s.ops.length
  logged : ∀ b, s.log.lh.Logged b ↔ b ∈ blocks
  card : s.log.lh.n = blocks.card
  quiet : s.log.committing = true → s.ops = []
  empty : s.log.committing = false → s.ops = [] → s.log.lh.n = 0
  bound : ∀ o ∈ s.ops, o.card ≤ K ∧ o ⊆ blocks
  room : s.ops ≠ [] → potential K s ≤ max K (LOGSIZE - 2 * (MAXOPBLOCKS - K))

theorem init_admitted (K start : Nat) : Admitted K (init start) ∅ where
  size := rfl
  count := rfl
  logged := by
    intro b
    simp [init, initlog, LogHeader.Logged]
  card := rfl
  quiet := by simp [init]
  empty := by simp [init, initlog]
  bound := by simp [init]
  room := by simp [init]

private theorem sum_map_eraseIdx_le (l : List (Finset Nat)) (g : Finset Nat → Nat) (i : Nat) :
    ((l.eraseIdx i).map g).sum ≤ (l.map g).sum := by
  induction l generalizing i with
  | nil => simp
  | cons a l ih =>
    cases i with
    | zero => simp
    | succ i => simpa using ih i

private theorem sum_map_modify (l : List (Finset Nat)) (g : Finset Nat → Nat)
    (f : Finset Nat → Finset Nat) (i : Nat) (hi : i < l.length) :
    ((l.modify i f).map g).sum + g (l.getD i ∅) = (l.map g).sum + g (f (l.getD i ∅)) := by
  induction l generalizing i with
  | nil => simp at hi
  | cons a l ih =>
    cases i with
    | zero =>
      simp only [modify_zero_cons, List.map_cons, List.sum_cons, getD_cons_zero]
      omega
    | succ i =>
      have h := ih i (by simpa using hi)
      simp only [modify_succ_cons, List.map_cons, List.sum_cons, getD_cons_succ]
      omega

theorem beginOp_admitted {s s' : Group} (hK : K ≤ MAXOPBLOCKS)
    (h : Admitted K s blocks) (hstep : s.step .beginOp = .ok (some s')) :
    Admitted K s' blocks := by
  simp only [step, Except.ok.injEq] at hstep
  obtain ⟨lg, hbegin, rfl⟩ := map_eq_some_iff.mp hstep
  obtain ⟨hoff, htest, rfl⟩ := beginOp_some hbegin
  refine ⟨h.size, by simp [h.count], h.logged, h.card, ?_, ?_, ?_, ?_⟩
  · intro hon
    simp [hoff] at hon
  · intro _ hnil
    simp at hnil
  · intro o ho
    rcases mem_append.mp ho with ho | ho
    · exact h.bound o ho
    · simp only [List.mem_singleton] at ho
      simp [ho]
  · intro _
    have hsum : (s.ops.map fun blocks => K - blocks.card).sum ≤ s.ops.length * K := by
      have hle := List.sum_le_card_nsmul (s.ops.map fun blocks => K - blocks.card) K (by
        intro x hx
        obtain ⟨o, _, rfl⟩ := List.mem_map.mp hx
        omega)
      simpa using hle
    have hpot : potential K ⟨{ s.log with outstanding := s.log.outstanding + 1 }, s.ops ++ [∅]⟩ =
        s.log.lh.n + (s.ops.map fun blocks => K - blocks.card).sum + K := by
      simp [potential, Nat.add_assoc]
    rw [hpot]
    rcases Nat.eq_zero_or_pos s.ops.length with hzero | hpos
    · -- the first operation of a group finds an empty log
      have hnil : s.ops = [] := length_eq_zero_iff.mp hzero
      have hn := h.empty hoff hnil
      simp [hn, hnil]
    · -- a further operation is admitted only when the test leaves room for two
      rw [h.count] at htest
      norm_cast at htest
      have hspare : (s.ops.length + 1) * K + 2 * (MAXOPBLOCKS - K) ≤
          (s.ops.length + 1) * MAXOPBLOCKS := by
        obtain ⟨spare, hspare⟩ := Nat.exists_eq_add_of_le hK
        rw [hspare, Nat.add_sub_cancel_left, Nat.mul_add]
        have htwo := Nat.mul_le_mul_right spare (show 2 ≤ s.ops.length + 1 by omega)
        omega
      apply le_max_of_le_right
      rw [Nat.add_mul] at hspare
      omega

theorem logWrite_admitted {b : Nat} {s s' : Group}
    (h : Admitted K s blocks) (hfits : Fits K s (.logWrite op b))
    (hstep : s.step (.logWrite op b) = .ok (some s')) : Admitted K s' (insert b blocks) := by
  obtain ⟨hop, hcard⟩ := hfits
  have hget : s.ops.getD op ∅ = s.ops[op] := by
    simp [List.getD_eq_getElem?_getD, hop]
  have hne : s.ops ≠ [] := ne_nil_of_length_pos (by omega)
  have hmine := h.bound _ (getElem_mem hop)
  rw [← hget] at hmine
  simp only [step] at hstep
  split at hstep
  · next lg hwrite =>
    simp only [Except.ok.injEq, Option.some.injEq] at hstep
    subst hstep
    obtain ⟨_, _, _, rfl⟩ := logWrite_ok hwrite
    have hused := sum_map_modify s.ops (fun o => K - o.card) (insert b) op hop
    refine ⟨h.size, by simpa using h.count, ?_, ?_, ?_, ?_, ?_, ?_⟩
    · intro c
      rw [s.log.lh.logged_absorb b c, h.logged c, mem_insert]
    · rcases s.log.lh.absorb_n b with ⟨hn, hin⟩ | ⟨hn, hout⟩
      · rw [insert_eq_of_mem ((h.logged b).mp hin), ← h.card]
        exact hn
      · rw [card_insert_of_notMem (fun hmem => hout ((h.logged b).mpr hmem)), ← h.card]
        exact hn
    · intro hon
      exact absurd (h.quiet hon) hne
    · intro _ hnil
      have hlen := congrArg List.length hnil
      simp only [length_modify, length_nil] at hlen
      omega
    · intro o ho
      obtain ⟨j, hj, rfl⟩ := mem_iff_getElem.mp ho
      simp only [length_modify] at hj
      rw [getElem_modify]
      split
      · next heq =>
        subst heq
        rw [hget] at hcard hmine
        exact ⟨hcard, insert_subset_insert b hmine.2⟩
      · have hold := h.bound _ (getElem_mem hj)
        exact ⟨hold.1, hold.2.trans (subset_insert b blocks)⟩
    · intro _
      refine le_trans ?_ (h.room hne)
      have hgrow : (s.ops.getD op ∅).card ≤ (insert b (s.ops.getD op ∅)).card :=
        card_le_card (subset_insert _ _)
      simp only [potential]
      rcases s.log.lh.absorb_n b with ⟨hn, _⟩ | ⟨hn, hnew⟩
      · rw [hn]
        omega
      · -- a block nobody has logged is new for this operation and uses its reservation
        have hfresh : b ∉ s.ops.getD op ∅ := fun hmem => hnew ((h.logged b).mpr (hmine.2 hmem))
        have hfull := card_insert_of_notMem hfresh
        rw [hn]
        omega
  · cases hstep

theorem endOp_admitted {s s' : Group} (h : Admitted K s blocks) (hop : op < s.ops.length)
    (hstep : s.step (.endOp op) = .ok (some s')) : Admitted K s' blocks := by
  have hne : s.ops ≠ [] := ne_nil_of_length_pos (by omega)
  have hlen : (s.ops.eraseIdx op).length = s.ops.length - 1 := length_eraseIdx_of_lt hop
  have hcount : s.log.outstanding - 1 = (s.ops.eraseIdx op).length := by
    rw [hlen, h.count]
    omega
  have hbound : ∀ o ∈ s.ops.eraseIdx op, o.card ≤ K ∧ o ⊆ blocks := fun o ho =>
    h.bound o (mem_of_mem_eraseIdx ho)
  have hroom (lg : Log) (hlh : lg.lh = s.log.lh) :
      potential K ⟨lg, s.ops.eraseIdx op⟩ ≤ max K (LOGSIZE - 2 * (MAXOPBLOCKS - K)) := by
    have hsum := sum_map_eraseIdx_le s.ops (fun blocks => K - blocks.card) op
    have hold := h.room hne
    simp only [potential, hlh] at hold ⊢
    omega
  simp only [step] at hstep
  split at hstep
  · next lg last hend =>
    simp only [Except.ok.injEq, Option.some.injEq] at hstep
    subst hstep
    obtain ⟨hoff, ⟨_, hlast, rfl⟩ | ⟨_, hmore, rfl⟩⟩ := endOp_ok hend
    · -- the last operation ends: `committing` is set and none is left
      have hnil : s.ops.eraseIdx op = [] := by
        apply eq_nil_of_length_eq_zero
        rw [h.count] at hlast
        omega
      refine ⟨h.size, ?_, h.logged, h.card, fun _ => hnil, ?_, hbound, fun _ => hroom _ rfl⟩
      · exact hcount
      · intro hc
        cases hc
    · refine ⟨h.size, ?_, h.logged, h.card, ?_, ?_, hbound, fun _ => hroom _ rfl⟩
      · exact hcount
      · intro hon
        simp [hoff] at hon
      · intro _ hnil
        have hzero := congrArg List.length hnil
        simp only [hlen, length_nil] at hzero
        rw [h.count] at hmore
        omega
  · cases hstep

theorem commitDone_admitted {s s' : Group}
    (h : Admitted K s blocks) (hstep : s.step .commitDone = .ok (some s')) :
    Admitted K s' ∅ := by
  simp only [step, Except.ok.injEq] at hstep
  split at hstep
  · next hon =>
    cases hstep
    have hnil := h.quiet hon
    refine ⟨h.size, h.count, ?_, rfl, ?_, fun _ _ => rfl, ?_, ?_⟩
    · intro b
      simp [LogHeader.Logged, Log.clear]
    · intro hc
      cases hc
    · intro o ho
      simp [hnil] at ho
    · intro hne
      exact absurd hnil hne
  · cases hstep

theorem advance_admitted {s s' : Group} (hK : K ≤ MAXOPBLOCKS)
    (h : Admitted K s blocks) (c : Call) (hstep : advance K s c = some s') :
    Admitted K s' (loggedSince blocks c) := by
  unfold advance at hstep
  split at hstep
  · next hfits =>
    split at hstep
    · next next hok =>
      subst hstep
      cases c with
      | beginOp => exact beginOp_admitted hK h hok
      | logWrite op b => exact logWrite_admitted h hfits hok
      | endOp op => exact endOp_admitted h hfits hok
      | commitDone => exact commitDone_admitted h hok
    · cases hstep
  · cases hstep

private theorem foldlM_admitted (hK : K ≤ MAXOPBLOCKS) (calls : List Call)
    (blocks : Finset Nat) (a s : Group) (ha : Admitted K a blocks)
    (hrun : calls.foldlM (advance K) a = some s) :
    Admitted K s (calls.foldl loggedSince blocks) := by
  induction calls generalizing blocks a with
  | nil =>
    cases hrun
    exact ha
  | cons c rest ih =>
    rw [foldlM_cons] at hrun
    obtain ⟨next, hnext, hrest⟩ := bind_eq_some_iff.mp hrun
    exact ih (loggedSince blocks c) next (advance_admitted hK ha c hnext) hrest

theorem run_admitted {start : Nat} {calls : List Call} {s : Group} (hK : K ≤ MAXOPBLOCKS)
    (hrun : run K start calls = some s) : Admitted K s (groupBlocks calls) :=
  foldlM_admitted hK calls ∅ (init start) s (init_admitted K start) hrun

/-- The call reaches `panic("too big a transaction")`. -/
def tooBig (s : Group) (c : Call) : Bool :=
  match s.step c with
  | .error .tooBigATransaction => true
  | _ => false

/-- No interleaving of operations that log at most `K` distinct blocks each
reaches the panic. -/
def NeverTooBig (K : Nat) : Prop :=
  ∀ (start : Nat) (calls : List Call) (s : Group) (c : Call),
    run K start calls = some s → Fits K s c → tooBig s c = false

theorem tooBig_logWrite_iff {s : Group} {b : Nat} (hsize : s.log.size = LOGSIZE) :
    tooBig s (.logWrite op b) = true ↔ LOGSIZE - 1 ≤ s.log.lh.n := by
  have hpanic := logWrite_tooBig_iff s.log b
  rw [hsize] at hpanic
  have htest : logWrite s.log b = .error .tooBigATransaction ↔ LOGSIZE - 1 ≤ s.log.lh.n :=
    hpanic.trans (by omega)
  rw [← htest]
  unfold tooBig
  simp only [step]
  cases hwrite : logWrite s.log b with
  | ok lg => simp
  | error p => cases p <;> simp

theorem tooBig_of_ne_logWrite {s : Group} {c : Call} (hc : ∀ op b, c ≠ .logWrite op b) :
    tooBig s c = false := by
  unfold tooBig
  cases c with
  | beginOp => rfl
  | logWrite op b => exact absurd rfl (hc op b)
  | endOp op =>
    simp only [step]
    cases hend : endOp s.log with
    | ok r => rfl
    | error p =>
      rw [endOp_error hend]
  | commitDone => rfl

/-- With one block less per operation than `begin_op` reserves, the group
stays two blocks below `LOGSIZE`, which is what `log_write` asks for. -/
theorem neverTooBig_of_lt (hK : K < MAXOPBLOCKS) : NeverTooBig K := by
  intro start calls s c hrun hfits
  have h := run_admitted hK.le hrun
  cases c with
  | logWrite op b =>
    have hne : s.ops ≠ [] := ne_nil_of_length_pos (lt_of_le_of_lt (Nat.zero_le _) hfits.1)
    have hroom := h.room hne
    rw [← Bool.not_eq_true, tooBig_logWrite_iff h.size]
    simp only [potential, LOGSIZE, MAXOPBLOCKS] at hroom hK ⊢
    omega
  | beginOp => exact tooBig_of_ne_logWrite (by simp)
  | endOp op => exact tooBig_of_ne_logWrite (by simp)
  | commitDone => exact tooBig_of_ne_logWrite (by simp)

theorem fits_mono {K' : Nat} (hK : K ≤ K') {s : Group} {c : Call} (h : Fits K s c) :
    Fits K' s c := by
  cases c with
  | logWrite op b => exact ⟨h.1, h.2.trans hK⟩
  | beginOp => trivial
  | endOp op => exact h
  | commitDone => trivial

theorem run_mono {K' start : Nat} (hK : K ≤ K') {calls : List Call} {s : Group}
    (hrun : run K start calls = some s) : run K' start calls = some s := by
  unfold run at hrun ⊢
  generalize init start = a at hrun ⊢
  induction calls generalizing a with
  | nil => exact hrun
  | cons c rest ih =>
    rw [foldlM_cons] at hrun ⊢
    obtain ⟨next, hnext, hrest⟩ := bind_eq_some_iff.mp hrun
    refine bind_eq_some_iff.mpr ⟨next, ?_, ih next hrest⟩
    unfold advance at hnext ⊢
    split at hnext
    · next hfits => rwa [if_pos (fits_mono hK hfits)]
    · cases hnext

/-- Three operations are admitted and log ten blocks each, the last one all
but its tenth. -/
def fullLoad : List Call :=
  [.beginOp, .beginOp, .beginOp] ++
    (List.range 29).map fun b => .logWrite (b / MAXOPBLOCKS) (100 + b)

/-- The thirtieth block of three admitted operations panics. -/
private theorem fullLoad_tooBig : ((run MAXOPBLOCKS 2 fullLoad).any fun s =>
      decide (Fits MAXOPBLOCKS s (.logWrite 2 129)) && tooBig s (.logWrite 2 129)) = true := by
  decide +kernel

theorem exists_tooBig : ∃ s, run MAXOPBLOCKS 2 fullLoad = some s ∧
    Fits MAXOPBLOCKS s (.logWrite 2 129) ∧ tooBig s (.logWrite 2 129) = true := by
  have h := fullLoad_tooBig
  cases hrun : run MAXOPBLOCKS 2 fullLoad with
  | none =>
    rw [hrun] at h
    cases h
  | some s =>
    rw [hrun] at h
    simp only [any_some, Bool.and_eq_true, decide_eq_true_eq] at h
    exact ⟨s, rfl, h.1, h.2⟩

theorem not_neverTooBig (hK : MAXOPBLOCKS ≤ K) : ¬ NeverTooBig K := by
  intro h
  obtain ⟨s, hrun, hfits, htoo⟩ := exists_tooBig
  have hnever := h 2 fullLoad s (.logWrite 2 129) (run_mono hK hrun) (fits_mono hK hfits)
  rw [htoo] at hnever
  cases hnever

/-- The reservation of `MAXOPBLOCKS` blocks for each operation is not
sufficient for the log that `mkfs` lays out. -/
theorem reservation_insufficient : ¬ NeverTooBig MAXOPBLOCKS := not_neverTooBig le_rfl

/-- When the reservation suffices. As a bound on every operation: exactly
below `MAXOPBLOCKS` distinct blocks. For a single call of any interleaving of
operations within `MAXOPBLOCKS`: `log_write` does not panic exactly when the
operations of its group have passed fewer than `LOGSIZE - 1` distinct blocks
to it since the last commit. -/
theorem reservation_sufficient_iff (K : Nat) : (NeverTooBig K ↔ K < MAXOPBLOCKS) ∧
    ∀ (start : Nat) (calls : List Call) (s : Group) (op b : Nat),
      run MAXOPBLOCKS start calls = some s → Fits MAXOPBLOCKS s (.logWrite op b) →
      (tooBig s (.logWrite op b) = false ↔ (groupBlocks calls).card < LOGSIZE - 1) := by
  constructor
  · refine ⟨?_, neverTooBig_of_lt⟩
    intro hnever
    by_contra hK
    exact not_neverTooBig (Nat.le_of_not_lt hK) hnever
  · intro start calls s op b hrun _
    have h := run_admitted le_rfl hrun
    rw [← Bool.not_eq_true, tooBig_logWrite_iff h.size, h.card]
    omega

/-- The first block of a single operation is accepted. -/
theorem reservation_first_block :
    ∃ s, run MAXOPBLOCKS 2 [.beginOp] = some s ∧ Fits MAXOPBLOCKS s (.logWrite 0 100) ∧
      tooBig s (.logWrite 0 100) = false := by
  refine ⟨_, rfl, by decide, ?_⟩
  exact ((reservation_sufficient_iff MAXOPBLOCKS).2 2 [.beginOp] _ 0 100 rfl (by decide)).mpr
    (by decide)

end Group

end Xv6.Logging

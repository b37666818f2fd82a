import Xv6.Console.Input

/-!
The console with any number of calls of `consoleread`. A call makes one turn of its loop at
a time, and keys may be typed and other calls may make turns in between; the lock of the
console allows fewer interleavings than that.
-/

namespace Xv6.Console

open Lib List

/-- A call of `consoleread`: `dst` is what it has copied. -/
structure Call where
  target : Int
  n : Int
  dst : List UInt8
  result : Option Int

/-- One turn of the loop of `consoleread`, with the character that is taken out of the
buffer for good. -/
def consoleread (s : Input) (killed : Bool) (call : Call) : Input × Call × Option UInt8 :=
  if call.n ≤ 0 then (s, { call with result := some (call.target - call.n) }, none)
  else if s.r = s.w then
    if killed then (s, { call with result := some (-1) }, none) else (s, call, none)
  else
    let c := s.buf (s.r.toNat % INPUT_BUF)
    let s := { s with r := s.r + 1 }
    if c = ctrl 'D' then
      let call := { call with result := some (call.target - call.n) }
      if call.n < call.target then ({ s with r := s.r - 1 }, call, none)
      else (s, call, some c)
    else
      let call := { call with dst := call.dst ++ [c], n := call.n - 1 }
      if c = newline then (s, { call with result := some (call.target - call.n) }, some c)
      else (s, call, some c)

/-- The console, what was typed on it, and the characters that were taken, each with the
call that took it. -/
structure System where
  input : Input
  calls : List Call
  typed : Typed
  taken : List (Nat × UInt8)

inductive Event where
  | key (c : UInt8)
  | call (n : Int)
  | turn (k : Nat) (killed : Bool)

namespace System

def turn (s : System) (k : Nat) (killed : Bool) (call : Call) : System :=
  let next := consoleread s.input killed call
  { s with
    input := next.1
    calls := s.calls.set k next.2.1
    taken := s.taken ++ next.2.2.toList.map fun c => (k, c) }

def step (s : System) : Event → System
  | .key c =>
    { s with
      input := s.input.consoleintr c
      typed := s.typed.key s.taken.length c }
  | .call n => { s with calls := s.calls ++ [⟨n, n, [], none⟩] }
  | .turn k killed =>
    match s.calls[k]? with
    | none => s
    | some call => if call.result = none then s.turn k killed call else s

def run (s : System) (events : List Event) : System := events.foldl step s

/-- Nothing was typed; the indices may have any value. -/
def boot (buf : Nat → UInt8) (i : BitVec 32) : System := ⟨⟨buf, i, i, i⟩, [], ⟨[], []⟩, []⟩

/-- What a call has copied, out of the characters that were taken. -/
def copied (taken : List (Nat × UInt8)) (k : Nat) : List UInt8 :=
  ((taken.filter (·.1 = k)).map (·.2)).filter (· ≠ ctrl 'D')

structure Ok (s : System) : Prop where
  holds : Holds s.input s.typed (s.taken.map (·.2))
  dst : ∀ k call, s.calls[k]? = some call → call.dst = copied s.taken k
  calls : ∀ x ∈ s.taken, x.1 < s.calls.length

variable {s : System}

theorem copied_append (taken taken' : List (Nat × UInt8)) (k : Nat) :
    copied (taken ++ taken') k = copied taken k ++ copied taken' k := by
  unfold copied
  rw [filter_append, map_append, filter_append]

theorem boot_ok (buf : Nat → UInt8) (i : BitVec 32) : (boot buf i).Ok := by
  have hzero : Ring.count (⟨buf, i, i⟩ : Ring UInt8 32 INPUT_BUF) = 0 := (Ring.empty_iff _).mp rfl
  have hnil : Ring.contents (⟨buf, i, i⟩ : Ring UInt8 32 INPUT_BUF) = [] := by
    apply length_eq_zero_iff.mp
    rw [Ring.length_contents, hzero]
  refine ⟨⟨hnil, hnil, ?_, ?_, not_mem_nil⟩, fun k call h => ?_, fun x hx => nomatch hx⟩
  · change Ring.count (⟨buf, i, i⟩ : Ring UInt8 32 INPUT_BUF) +
      Ring.count (⟨buf, i, i⟩ : Ring UInt8 32 INPUT_BUF) ≤ _
    rw [hzero]
    exact Nat.zero_le _
  · exact fun _ => rfl
  · cases h

/-- One turn of a call takes nothing, or the next character, which it copies unless it is
the marker. -/
theorem consoleread_spec {input : Input} {t : Typed} {taken : List UInt8}
    (h : Holds input t taken) (killed : Bool) (call : Call) :
    Holds (consoleread input killed call).1 t
        (taken ++ (consoleread input killed call).2.2.toList) ∧
      (consoleread input killed call).2.1.dst =
        call.dst ++ (consoleread input killed call).2.2.toList.filter (· ≠ ctrl 'D') := by
  have hnothing : Holds input t (taken ++ []) := by rwa [append_nil]
  have hdst := (append_nil call.dst).symm
  unfold consoleread
  dsimp only
  split
  · exact ⟨hnothing, hdst⟩
  split
  · split
    · exact ⟨hnothing, hdst⟩
    · exact ⟨hnothing, hdst⟩
  next hne =>
  have htake := h.take hne
  generalize input.buf (input.r.toNat % INPUT_BUF) = c at htake ⊢
  split
  · next hc =>
    split
    · -- the marker is put back
      rw [BitVec.add_sub_cancel]
      exact ⟨hnothing, hdst⟩
    · rw [hc] at htake ⊢
      exact ⟨htake, hdst⟩
  · next hc =>
    have hkept : [c].filter (· ≠ ctrl 'D') = [c] := filter_cons_of_pos (decide_eq_true hc)
    split
    · exact ⟨htake, by rw [Option.toList_some, hkept]⟩
    · exact ⟨htake, by rw [Option.toList_some, hkept]⟩

theorem copied_self (new : List UInt8) (k : Nat) :
    copied (new.map fun c => (k, c)) k = new.filter (· ≠ ctrl 'D') := by
  have hall : (new.map fun c => (k, c)).filter (·.1 = k) = new.map fun c => (k, c) := by
    apply filter_eq_self.mpr
    intro x hx
    obtain ⟨c, _, rfl⟩ := mem_map.mp hx
    exact decide_eq_true rfl
  unfold copied
  rw [hall, map_map]
  exact congrArg _ (map_id' new)

theorem copied_of_ne (new : List UInt8) {j k : Nat} (hne : j ≠ k) :
    copied (new.map fun c => (k, c)) j = [] := by
  unfold copied
  rw [filter_map]
  simp [Function.comp_def, Ne.symm hne]

theorem Ok.turn (h : s.Ok) {k : Nat} {call : Call} (hcall : s.calls[k]? = some call)
    (killed : Bool) : (s.turn k killed call).Ok := by
  have hk : k < s.calls.length := (List.getElem?_eq_some_iff.mp hcall).1
  obtain ⟨hholds, hdst⟩ := consoleread_spec h.holds killed call
  unfold System.turn
  generalize consoleread s.input killed call = next at hholds hdst
  refine ⟨?_, ?_, ?_⟩
  · dsimp only
    rw [map_append, map_map]
    simpa [Function.comp_def] using hholds
  · dsimp only
    intro j other hj
    rw [copied_append]
    rw [List.getElem?_set] at hj
    split at hj
    · next heq =>
      subst heq
      cases hj
      rw [hdst, h.dst k call hcall, copied_self]
    · next hne => rw [copied_of_ne _ (Ne.symm hne), append_nil, h.dst j other hj]
  · dsimp only
    intro x hx
    rw [length_set]
    rcases mem_append.mp hx with hx | hx
    · exact h.calls x hx
    · obtain ⟨c, _, rfl⟩ := mem_map.mp hx
      exact hk

theorem Ok.step (h : s.Ok) (event : Event) : (s.step event).Ok := by
  cases event with
  | key c =>
    have hkey := h.holds.consoleintr c
    rw [length_map] at hkey
    exact ⟨hkey, h.dst, h.calls⟩
  | call n =>
    refine ⟨h.holds, fun k call hcall => ?_, fun x hx => ?_⟩
    · change (s.calls ++ [_])[k]? = some call at hcall
      rw [List.getElem?_append] at hcall
      split at hcall
      · exact h.dst k call hcall
      · next hge =>
        -- the new call has copied nothing
        have hnew : call = ⟨n, n, [], none⟩ := by
          have hmem := mem_of_getElem? hcall
          exact mem_singleton.mp hmem
        have hnone : s.taken.filter (·.1 = k) = [] := by
          apply filter_eq_nil_iff.mpr
          intro x hx
          have hlt := h.calls x hx
          rw [decide_eq_true_eq]
          omega
        change call.dst = copied s.taken k
        unfold copied
        rw [hnone, hnew]
        rfl
    · have hlt := h.calls x hx
      change x.1 < (s.calls ++ [_]).length
      rw [length_append]
      omega
  | turn k killed =>
    unfold System.step
    dsimp only
    split
    · exact h
    · next call hcall =>
      split
      · exact h.turn hcall killed
      · exact h

theorem run_ok (h : s.Ok) (events : List Event) : (s.run events).Ok := by
  unfold System.run
  induction events generalizing s with
  | nil => exact h
  | cons event events ih => exact ih (h.step event)

end System

/-- Whatever is typed and whoever reads, from any value of the indices on: the indices keep
their order and distance, a full buffer can be read, editing keys leave alone what can be
read, and what the calls have taken and what can be read is, in order, what was committed.
A call has copied what it took, up to the markers. -/
theorem console_input (buf : Nat → UInt8) (i : BitVec 32) (events : List Event) :
    let s := (System.boot buf i).run events
    (s.input.w - s.input.r).toNat ≤ (s.input.e - s.input.r).toNat ∧
      (s.input.e - s.input.r).toNat ≤ INPUT_BUF ∧
      ((s.input.e - s.input.r).toNat = INPUT_BUF → s.input.w = s.input.e) ∧
      (∀ c ∈ [ctrl 'U', ctrl 'H', delete], (s.input.consoleintr c).unread = s.input.unread) ∧
      s.taken.map (·.2) ++ s.input.unread.contents = s.typed.committed ∧
      s.input.editing.contents = s.typed.line ∧
      ∀ k call, s.calls[k]? = some call → call.dst = System.copied s.taken k := by
  intro s
  have hok : s.Ok := System.run_ok (System.boot_ok buf i) events
  have hall := hok.holds.count_all
  have hroom := hok.holds.room
  refine ⟨?_, ?_, ?_, fun c hc => Input.consoleintr_unread hc, hok.holds.committed,
    hok.holds.line, hok.dst⟩
  · rw [hall]
    exact Nat.le_add_right _ _
  · rw [hall]
    exact hroom
  · intro hfull
    rw [hall] at hfull
    have hline := hok.holds.full hfull
    have hzero := hok.holds.count_line
    rw [hline] at hzero
    exact s.input.editing.empty_iff.mpr hzero

/-- 128 characters are typed while nobody reads, then `b` and a newline: the buffer is full,
both are lost. -/
theorem console_input_drops : ((System.boot (fun _ => 0) 0).run
      (((List.replicate 128 97) ++ [98, newline]).map Event.key)).input.unread.contents =
        List.replicate 128 97 ∧
    ((System.boot (fun _ => 0) 0).run
      (((List.replicate 128 97) ++ [98, newline]).map Event.key)).input.editing.contents = [] := by
  decide +kernel

end Xv6.Console

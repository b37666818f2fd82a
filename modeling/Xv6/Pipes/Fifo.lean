import Xv6.Pipes.Machine

/-!
A pipe is a bounded queue. Bytes enter only where the test for a full pipe
failed and leave only where the test for an empty pipe failed, both under the
pipe's lock, so the ring never holds more than `PIPESIZE` bytes and what
readers get is what writers stored, in order, whatever the counters are.
-/

namespace Xv6.Pipes.State

open List

variable {ι : Type*} [DecidableEq ι]

theorem pipesize_dvd : PIPESIZE ∣ 2 ^ 32 := by decide

theorem pipesize_lt : PIPESIZE < 2 ^ 32 := by decide

omit [DecidableEq ι] in
theorem stores_nil {s : State ι} {p : ι}
    (h : ∀ addr n i, (s.thread p).pc ≠ .hold (.write addr n i)) : s.stores (.turn p) = [] := by
  simp only [stores]

omit [DecidableEq ι] in
theorem delivers_nil {s : State ι} {p : ι} (h : ∀ n i, (s.thread p).pc ≠ .copy n i) :
    s.delivers (.turn p) = [] := by
  simp only [delivers]

/-- Apart from the two loops that move bytes, no code touches the ring. -/
theorem turn_ring {s s' : State ι} {p : ι} (h : s.turn p = some s')
    (hwrite : ∀ addr n i, (s.thread p).pc ≠ .hold (.write addr n i))
    (hcopy : ∀ n i, (s.thread p).pc ≠ .copy n i) : s'.pipe.toRing = s.pipe.toRing := by
  unfold turn at h
  split at h
  · cases h
  · split at h <;> cases h
    rfl
  · next addr n i hpc => exact absurd hpc (hwrite addr n i)
  · split at h <;> cases h
    rfl
  · split at h <;> cases h
    rfl
  · cases h
    rfl
  · split at h
    · split at h <;> cases h <;> rfl
    · cases h
      rfl
  · next n i hpc => exact absurd hpc (hcopy n i)
  · cases h
    rfl
  · cases h
    rfl
  · split at h <;> cases h
    rfl
  · cases h
    rfl

/-- What a step does to the ring: nothing, or one byte in, or one byte out. -/
theorem step_ring {s s' : State ι} {a : Act ι} (h : s.step a = some s') :
    (s'.pipe.toRing = s.pipe.toRing ∧ s.stores a = [] ∧ s.delivers a = []) ∨
      (∃ b, ¬ s.Full ∧ s'.pipe.toRing = s.pipe.push b ∧ s.stores a = [b] ∧ s.delivers a = []) ∨
      (¬ s.Empty ∧ s'.pipe.toRing = s.pipe.pop ∧ s.stores a = [] ∧ s.delivers a = [s.pipe.front]) := by
  cases a with
  | call p call =>
    simp only [step] at h
    split at h <;> cases h
    exact .inl ⟨rfl, rfl, rfl⟩
  | kill p =>
    simp only [step] at h
    split at h <;> cases h
    exact .inl ⟨rfl, rfl, rfl⟩
  | turn p =>
    change s.turn p = some s' at h
    by_cases hwrite : ∃ addr n i, (s.thread p).pc = .hold (.write addr n i)
    · obtain ⟨addr, n, i, hpc⟩ := hwrite
      have hde : s.delivers (.turn p) = [] := delivers_nil (by simp [hpc])
      have hst : s.stores (.turn p) = if (i : Int) < n ∧ ¬ s.Full then [addr i] else [] := by
        simp only [stores, hpc]
      unfold turn at h
      simp only [hpc] at h
      split at h
      · next hlt =>
        split at h
        · next hfull =>
          rw [if_neg fun hin => hin.2 hfull] at hst
          split at h <;> cases h <;> exact .inl ⟨rfl, hst, hde⟩
        · next hfull =>
          cases h
          rw [if_pos ⟨hlt, hfull⟩] at hst
          exact .inr (Or.inl ⟨addr i, hfull, rfl, hst, hde⟩)
      · next hend =>
        cases h
        rw [if_neg fun hin => hend hin.1] at hst
        exact .inl ⟨rfl, hst, hde⟩
    by_cases hcopy : ∃ n i, (s.thread p).pc = .copy n i
    · obtain ⟨n, i, hpc⟩ := hcopy
      have hst : s.stores (.turn p) = [] := stores_nil (by simp [hpc])
      have hde : s.delivers (.turn p) =
          if (i : Int) < n ∧ ¬ s.Empty then [s.pipe.front] else [] := by
        simp only [delivers, hpc]
      unfold turn at h
      simp only [hpc] at h
      split at h
      · next hin =>
        cases h
        rw [if_pos hin] at hde
        exact .inr (Or.inr ⟨hin.2, rfl, hst, hde⟩)
      · next hout =>
        cases h
        rw [if_neg hout] at hde
        exact .inl ⟨rfl, hst, hde⟩
    · push Not at hwrite hcopy
      exact .inl ⟨turn_ring h hwrite hcopy, stores_nil hwrite, delivers_nil hcopy⟩

/-- Along every run from an empty pipe, with any number of readers and writers
and any start of the counters, the ring holds at most `PIPESIZE` bytes, and the
bytes stored are the bytes delivered followed by the contents of the ring. -/
theorem pipe_fifo {s t : State ι} {stored delivered : List UInt8}
    (hempty : s.pipe.nread = s.pipe.nwrite) (hrun : Run s t stored delivered) :
    (t.pipe.nwrite - t.pipe.nread).toNat ≤ PIPESIZE ∧ stored = delivered ++ t.pipe.contents ∧
      t.pipe.contents.length = (t.pipe.nwrite - t.pipe.nread).toNat := by
  induction hrun with
  | refl =>
    have hzero : s.pipe.count = 0 := s.pipe.empty_iff.mp hempty
    refine ⟨by rw [show (s.pipe.nwrite - s.pipe.nread).toNat = 0 from hzero]; decide, ?_,
      s.pipe.length_contents⟩
    rw [nil_append, eq_comm, ← length_eq_zero_iff, s.pipe.length_contents, hzero]
  | @tail t u stored delivered _ a hstep ih =>
    obtain ⟨hle, hfifo, _⟩ := ih
    change t.pipe.count ≤ PIPESIZE at hle
    change u.pipe.count ≤ PIPESIZE ∧ _ ∧ u.pipe.contents.length = u.pipe.count
    rcases step_ring hstep with ⟨hring, hst, hde⟩ | ⟨b, hfull, hring, hst, hde⟩ |
      ⟨hnonempty, hring, hst, hde⟩
    · rw [hring, hst, hde, append_nil, append_nil]
      exact ⟨hle, hfifo, t.pipe.length_contents⟩
    · have hroom : t.pipe.count < PIPESIZE := by
        refine lt_of_le_of_ne hle fun heq => hfull ?_
        exact (t.pipe.full_iff pipesize_lt).mpr heq
      have hlt := pipesize_lt
      rw [hring, hst, hde, append_nil, t.pipe.contents_push b pipesize_dvd hroom pipesize_lt,
        t.pipe.count_push b (by omega), hfifo, append_assoc]
      refine ⟨hroom, rfl, ?_⟩
      rw [length_append, t.pipe.length_contents]
      rfl
    · have hpos : 0 < t.pipe.count := by
        refine Nat.pos_of_ne_zero fun hzero => hnonempty ?_
        exact t.pipe.empty_iff.mpr hzero
      have hcount := t.pipe.count_pop hpos
      rw [hring, hst, hde, append_nil, hfifo, t.pipe.contents_pop pipesize_dvd hpos, append_assoc]
      exact ⟨by omega, rfl, t.pipe.pop.length_contents⟩

/-- Process 0 writes three bytes while the counters wrap, process 1 reads two. -/
def wrapActs : List (Act (Fin 2)) :=
  [.call 0 (.write (fun i => 7 + i.toUInt8) 3 0), .turn 0, .turn 0, .turn 0, .turn 0, .turn 0,
    .turn 0, .turn 0, .call 1 (.read 2), .turn 1, .turn 1, .turn 1, .turn 1]

theorem pipe_fifo_wrap : ∃ t stored delivered,
    Run (start (Fin 2) 0xFFFFFFFF) t stored delivered ∧ stored = [7, 8, 9] ∧ delivered = [7, 8] ∧
      stored = delivered ++ t.pipe.contents := by
  have htrace : ((start (Fin 2) 0xFFFFFFFF).trace wrapActs).map Prod.snd =
      some ([7, 8, 9], [7, 8]) := by decide +kernel
  obtain ⟨⟨t, stored, delivered⟩, hrun, heq⟩ := Option.map_eq_some_iff.mp htrace
  have hrun := run_of_trace hrun
  cases heq
  exact ⟨t, _, _, hrun, rfl, rfl, (pipe_fifo rfl hrun).2.1⟩

end Xv6.Pipes.State

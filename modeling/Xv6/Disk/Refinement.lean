import Xv6.Disk.Invariant

/-!
Runs of processes and interrupt handlers, at any interleaving. In each state the
driver stands where the memory disk would after the same requests.
-/

namespace Xv6.Disk

open Lib Lib.Monitor Relation

variable {τ B δ : Type*}

section

variable [DecidableEq B] {handler : τ → Bool} {disk : Nat → δ}

/-- Where a process or handler holds `idelock`, another that stands at such a
point is in `sleep`. -/
theorem not_locked_of_holds {s : IdeState τ B δ} (h : Locked (code handler) Pc.lock s) {p q : τ}
    {pc : Pc B δ} (hmode : (s.thread p).mode = .run pc) (hp : pc.lock = some ()) (hq : q ≠ p)
    (hlock : (s.points q).lock = some ()) : ∃ b n, s.points q = .test b n := by
  by_contra hnot
  refine hq (h.eq_of_points (by rw [hmode]; exact hp) hlock fun pc' c m hi => hnot ?_)
  generalize s.points q = k at hi ⊢
  cases pc' <;> cases hi
  exact ⟨_, _, rfl⟩

theorem Sound.step [DecidableEq τ] {s : IdeState τ B δ} {p : τ} {pc k : Pc B δ} {d : Ide τ B δ}
    (hlocked : Locked (code handler) Pc.lock s) (h : Sound disk s.data s.points)
    (hmode : (s.thread p).mode = .run pc) (hgoes : Goes s.data (code handler p pc) d k) :
    Sound disk d (Function.update s.points p k) := by
  have hpoint : s.points p = pc := congrArg Mode.point hmode
  have hat := h.stands p
  have hother {q : τ} (hp : pc.lock = some ()) (hlock : (s.points q).lock = some ())
      (hne : s.points q ≠ pc) : ∃ b n, s.points q = .test b n := by
    refine not_locked_of_holds hlocked hmode hp ?_ hlock
    rintro rfl
    exact hne hpoint
  have hgo {k : Pc B δ} (hk : k.active = false) (hpc : pc.active = false)
      (hstay : ∀ b n, pc = .test b n ∨ pc = .wait b n → k = .test b n ∨ k = .wait b n ∨ n < s.data.done)
      (hself : At disk s.data p k) : Sound disk s.data (Function.update s.points p k) :=
    h.goto (by rw [hpoint]; exact hstay) hself (h.turn.inactive (by rw [hpoint]; exact hpc) hk)
  rw [hpoint] at hat
  cases pc with
  | init =>
    cases hgoes with
    | choose hk =>
      rw [hk]
      split
      · exact hgo rfl rfl (by rintro b n (hq | hq) <;> cases hq) (.of_none rfl nofun)
      · exact hgo rfl rfl (by rintro b n (hq | hq) <;> cases hq) (.of_none rfl nofun)
  | idle =>
    cases hgoes with
    | choose hk =>
      obtain ⟨b, x, hserved, rfl⟩ := hk
      refine hgo rfl rfl (by rintro b n (hq | hq) <;> cases hq) (.of_none rfl ?_)
      rintro _ _ ⟨⟩
      exact hserved
  | call b x =>
    cases hgoes
    exact sound_lockBuf h hpoint
  | enter b =>
    cases hgoes
    exact hgo rfl rfl (by rintro b n (hq | hq) <;> cases hq) hat.entered
  | append b =>
    cases hgoes
    refine sound_append h hpoint fun q b' => ⟨fun hq => ?_, fun hq => ?_⟩
    · obtain ⟨_, _, hq'⟩ := hother rfl (by rw [hq]; rfl) (by rw [hq]; exact nofun)
      exact nomatch hq.symm.trans hq'
    · obtain ⟨_, _, hq'⟩ := hother rfl (by rw [hq]; rfl) (by rw [hq]; exact nofun)
      exact nomatch hq.symm.trans hq'
  | test b n =>
    cases hgoes
    dsimp only
    split
    · next hsynced =>
      have hlt := h.lt_done_of_synced (p := p) (by rw [hpoint]; rfl) hsynced
      refine hgo rfl rfl ?_ (hat.req_to rfl rfl nofun fun _ => hlt)
      rintro b' n' (hq | hq) <;> cases hq
      exact .inr (Or.inr hlt)
    · next hwaits =>
      refine hgo rfl rfl ?_ (hat.req_to rfl rfl (fun _ => by simpa using hwaits) ?_)
      · rintro b' n' (hq | hq) <;> cases hq
        exact .inr (Or.inl rfl)
      · rintro (hq | hq) <;> cases hq
  | wait b n =>
    cases hgoes
    refine hgo rfl rfl ?_ (hat.req_to rfl rfl nofun ?_)
    · rintro b' n' (hq | hq) <;> cases hq
      exact .inl rfl
    · rintro (hq | hq) <;> cases hq
  | leave b n =>
    cases hgoes
    exact hgo rfl rfl (by rintro b n (hq | hq) <;> cases hq)
      (hat.req_to rfl rfl nofun fun _ => hat.returns b n (Or.inl rfl))
  | ret b n =>
    cases hgoes
    exact sound_ret h hpoint
  | ready =>
    cases hgoes
    exact sound_finish h hpoint
  | intr =>
    cases hgoes
    exact h.goto (by rw [hpoint]; rintro b n (hq | hq) <;> cases hq) (.of_none rfl nofun)
      (h.turn.handler (Or.inl ⟨hpoint, rfl⟩))
  | pop =>
    cases hgoes
    refine sound_pop h hpoint fun q b n hq => ?_
    obtain ⟨_, _, hq'⟩ := hother rfl (by rw [hq]; rfl) (by rw [hq]; exact nofun)
    exact nomatch hq.symm.trans hq'
  | wake b =>
    cases hgoes
    exact h.goto (by rw [hpoint]; rintro b n (hq | hq) <;> cases hq) (.of_none rfl nofun)
      (h.turn.handler (Or.inr ⟨⟨b, hpoint⟩, rfl⟩))
  | next =>
    cases hgoes
    exact sound_startNext h hpoint
  | intrLeave =>
    cases hgoes
    exact hgo rfl rfl (by rintro b n (hq | hq) <;> cases hq) (.of_none rfl nofun)

theorem wakes {s : IdeState τ B δ} (h : Sound disk s.data s.points) :
    Wakes (code handler) (fun b d => (d.buf b).synced = false) Pc.due s where
  sleep p pc c m k hmode hi := by
    cases pc <;> cases hi
    exact (h.stands p).wait _ _ (congrArg Mode.point hmode)
  act p pc f c hmode hi hc := by
    have hpoint : s.points p = pc := congrArg Mode.point hmode
    cases pc <;> cases hi
    case call b x =>
      have hserved := (h.stands p).called b x hpoint
      unfold lockBuf
      split
      · exact .inl hc
      · by_cases hcb : c = b
        · simp [hcb, hserved.1]
        · exact .inl (by simpa [hcb] using hc)
    case append b =>
      unfold append idestart
      dsimp only
      split <;> exact .inl hc
    case ready =>
      unfold finish
      split
      · exact .inl hc
      · dsimp only
        split <;> exact .inl hc
    case pop =>
      unfold pop
      split
      · exact .inl hc
      · next b rest _ =>
        by_cases hcb : c = b
        · exact .inr (congrArg Pc.wake hcb.symm)
        · exact .inl (by simpa [hcb] using hc)
    case next =>
      unfold startNext idestart
      split <;> exact .inl hc
    all_goals exact .inl hc

/-- What the driver owes to its callers, over the memory disk that serves the
requests one by one in queue order. -/
structure Refines (disk : Nat → δ) (s : IdeState τ B δ) : Prop where
  /-- a request is completed or in the queue -/
  queue : s.data.done ≤ s.data.reqs.length ∧ s.data.queue = (s.data.reqs.drop s.data.done).map Req.b
  /-- requests are started in order, each once and not before the last is completed -/
  started : ∃ n, s.data.done ≤ n ∧ n ≤ s.data.done + 1 ∧ n ≤ s.data.reqs.length ∧
    s.data.started = (s.data.reqs.take n).map Req.b
  /-- the device works on the head -/
  head : ∀ x, s.data.cmd = some x → ∃ r, s.data.reqs[s.data.done]? = some r ∧
    s.data.queue.head? = some r.b ∧ x = r.buf
  stored : ∃ n, s.data.done ≤ n ∧ n ≤ s.data.done + 1 ∧ s.data.disk = memRun disk (s.data.reqs.take n)
  /-- with requests in the queue the device works or a handler is on its way -/
  busy : s.data.cmd = none → (∀ p, (s.points p).active = false) →
    s.data.queue = [] ∧ s.data.disk = memRun disk s.data.reqs
  returns : ∀ p b n, s.points p = .ret b n → n < s.data.done ∧ (s.data.buf b).synced = true ∧
    some (s.data.buf b) = memResult disk s.data.reqs n ∧ ∃ r, s.data.reqs[n]? = some r ∧ r.b = b ∧
      (r.buf.dirty = false →
        (s.data.buf b).data = lastWritten disk (s.data.reqs.take n) r.buf.blockno)
  /-- a process in the loop whose request is not completed has it in the queue -/
  waits : ∀ p b n, s.points p = .test b n ∨ s.points p = .wait b n → s.data.done ≤ n →
    b ∈ s.data.queue
  sleeps : s.lock () = none → ∀ p b, s.SleepsOn p b → (s.data.buf b).synced = false

theorem started_of_act {p : τ} {pc : Pc B δ} {f : Ide τ B δ → Ide τ B δ × Pc B δ} {d : Ide τ B δ}
    (hi : code handler p pc = .act f) : (f d).1.started = d.started ∨
      ∃ b, (f d).1.queue.head? = some b ∧ (f d).1.started = d.started ++ [b] := by
  cases pc <;> cases hi
  case call b x =>
    unfold lockBuf
    split <;> exact .inl rfl
  case append b =>
    unfold append
    dsimp only
    split
    · next hhead => exact .inr ⟨b, hhead, rfl⟩
    · exact .inl rfl
  case ready =>
    unfold finish
    split
    · exact .inl rfl
    · dsimp only
      split <;> exact .inl rfl
  case pop =>
    unfold pop
    split <;> exact .inl rfl
  case next =>
    unfold startNext
    split
    · exact .inl rfl
    · next b rest hqueue => exact .inr ⟨b, congrArg List.head? hqueue, rfl⟩
  all_goals exact .inl rfl

variable [DecidableEq τ]

/-- The interrupt-driven driver serves its requests as the memory disk does, in
every run of processes and handlers. A step starts the device on the head of the queue or
not at all. -/
theorem ide_refines_memide {buf : B → Buf δ} {port : δ} {s : IdeState τ B δ}
    (hrun : ReflTransGen (State.Step (code handler)) (ideInit τ buf port disk) s) :
    Refines disk s ∧ ∀ t, State.Step (code handler) s t → t.data.started = s.data.started ∨
      ∃ b, t.data.queue.head? = some b ∧ t.data.started = s.data.started ++ [b] := by
  obtain ⟨hlocked, hsound, hnoloss⟩ := noLoss_of_run (disciplined handler) (signals handler)
    (Sound disk) (fun _ _ h => wakes h) (fun _ _ _ _ _ => Sound.step) rfl (sound_ideInit buf port)
    hrun
  refine ⟨⟨⟨hsound.le, hsound.queue⟩, hsound.started, fun x => hsound.head, hsound.stored,
    hsound.busy, fun p b n hp => ?_, fun p b n hp hn => ?_, fun hfree p b => ?_⟩, ?_⟩
  · have hlt := (hsound.stands p).returns b n (Or.inr hp)
    obtain ⟨r, hr, hrb, hres⟩ := (hsound.stands p).own b n (by rw [hp]; rfl)
    obtain ⟨hsynced, hread⟩ := memResult_eq hr (hres hlt)
    exact ⟨hlt, hsynced, hres hlt, r, hr, hrb, hread⟩
  · obtain ⟨r, hr, rfl, _⟩ :=
      (hsound.stands p).own b n (by rcases hp with hp | hp <;> rw [hp] <;> rfl)
    rw [hsound.queue]
    refine List.mem_map_of_mem (List.mem_of_getElem? (i := n - s.data.done) ?_)
    rw [List.getElem?_drop, Nat.add_sub_cancel' hn, hr]
  · exact hnoloss.reason (signals handler) hlocked hfree
  · rintro t ⟨p, hstep⟩
    rcases data_of_step hstep with hdata | ⟨pc, f, _, hi, rfl⟩
    · exact .inl (by rw [hdata])
    · exact started_of_act hi

/-- A process reads block 0 and sleeps until the handler has served it. -/
theorem ide_refines_memide_read : ∃ s : IdeState (Fin 2) Unit Nat,
    ReflTransGen (State.Step (code (fun p => p == 1)))
      (ideInit (Fin 2) (fun _ => ⟨false, false, 0, 0⟩) 0 (fun _ => 5)) s ∧
      s.points 0 = .ret () 0 ∧ Refines (fun _ => 5) s := by
  have hserved : Buf.Served (⟨false, false, 0, 0⟩ : Buf Nat) := ⟨rfl, by decide⟩
  have hrun : ReflTransGen (State.Step (code (fun p => p == 1)))
      (ideInit (Fin 2) (fun _ : Unit => (⟨false, false, 0, 0⟩ : Buf Nat)) 0 (fun _ => 5)) _ :=
    .head ⟨1, .choose rfl rfl rfl⟩ (.head ⟨0, .choose rfl rfl rfl⟩
    (.head ⟨0, .choose rfl rfl ⟨(), _, hserved, rfl⟩⟩ (.head ⟨0, .act rfl rfl⟩
    (.head ⟨0, .acquire rfl rfl rfl⟩ (.head ⟨0, .act rfl rfl⟩ (.head ⟨0, .act rfl rfl⟩
    (.head ⟨0, .sleep rfl rfl rfl⟩ (.head ⟨0, .handOver rfl⟩ (.head ⟨0, .doze rfl⟩
    (.head ⟨0, .sched rfl⟩ (.head ⟨1, .act rfl rfl⟩ (.head ⟨1, .acquire rfl rfl rfl⟩
    (.head ⟨1, .act rfl rfl⟩ (.head ⟨1, .wakeup rfl rfl rfl⟩ (.head ⟨1, .wake rfl⟩
    (.head ⟨1, .leave rfl⟩ (.head ⟨1, .act rfl rfl⟩ (.head ⟨1, .release rfl rfl⟩
    (.head ⟨0, .back rfl rfl rfl⟩ (.head ⟨0, .tidy rfl⟩ (.head ⟨0, .reacquire rfl rfl⟩
    (.head ⟨0, .act rfl rfl⟩ (.single ⟨0, .release rfl rfl⟩)))))))))))))))))))))))
  exact ⟨_, hrun, rfl, (ide_refines_memide hrun).1⟩

end

end Xv6.Disk

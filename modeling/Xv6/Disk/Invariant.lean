import Xv6.Disk.Ide

/-!
The invariant of the driver. Queue, device and buffers are compared with the
history of requests: those below `done` have been served as by the memory disk,
the others are in the queue, and `Turn` says who has to move for the first of
them to be served.
-/

namespace Xv6.Disk

open Function List

variable {τ B δ : Type*}

def Pc.onBuf : Pc B δ → Option B
  | .enter b | .append b | .test b _ | .wait b _ | .leave b _ | .ret b _ => some b
  | _ => none

def Pc.req : Pc B δ → Option (B × Nat)
  | .test b n | .wait b n | .leave b n | .ret b n => some (b, n)
  | _ => none

/-- A handler between the interrupt and the start of the next command. -/
def Pc.active : Pc B δ → Bool
  | .intr | .pop | .wake _ | .next => true
  | _ => false

/-- Who has to move next for the queue to advance: nobody, the device, or a
handler with the interrupt of a finished command or with the head removed. -/
inductive Turn (disk : Nat → δ) (d : Ide τ B δ) (pts : τ → Pc B δ) : Prop where
  | rest (hqueue : d.done = d.reqs.length) (hcmd : d.cmd = none)
      (hpts : ∀ p, (pts p).active = false) (hdisk : d.disk = memRun disk d.reqs)
      (hstarted : d.started = d.reqs.map Req.b)
  | device (r : Req B δ) (hr : d.reqs[d.done]? = some r) (hcmd : d.cmd = some r.buf)
      (hpts : ∀ p, (pts p).active = false) (hdisk : d.disk = memRun disk (d.reqs.take d.done))
      (hstarted : d.started = (d.reqs.take (d.done + 1)).map Req.b)
  | interrupt (r : Req B δ) (h : τ) (hr : d.reqs[d.done]? = some r) (hcmd : d.cmd = none)
      (hh : pts h = .intr ∨ pts h = .pop) (hpts : ∀ p, p ≠ h → (pts p).active = false)
      (hdisk : d.disk = memRun disk (d.reqs.take (d.done + 1)))
      (hport : r.buf.dirty = false → d.port = memRun disk (d.reqs.take d.done) r.buf.blockno)
      (hstarted : d.started = (d.reqs.take (d.done + 1)).map Req.b)
  | popped (h : τ) (hcmd : d.cmd = none) (hh : (∃ b, pts h = .wake b) ∨ pts h = .next)
      (hpts : ∀ p, p ≠ h → (pts p).active = false)
      (hdisk : d.disk = memRun disk (d.reqs.take d.done))
      (hstarted : d.started = (d.reqs.take d.done).map Req.b)

/-- What holds of a process or handler `p` at the point `pc`. -/
structure At (disk : Nat → δ) (d : Ide τ B δ) (p : τ) (pc : Pc B δ) : Prop where
  owner : ∀ b, pc.onBuf = some b → d.owner b = some p
  own : ∀ b n, pc.req = some (b, n) → ∃ r, d.reqs[n]? = some r ∧ r.b = b ∧
    (n < d.done → some (d.buf b) = memResult disk d.reqs n)
  called : ∀ b x, pc = .call b x → x.Served
  fresh : ∀ b, pc = .enter b ∨ pc = .append b → (d.buf b).Served
  wait : ∀ b n, pc = .wait b n → (d.buf b).synced = false
  returns : ∀ b n, pc = .leave b n ∨ pc = .ret b n → n < d.done

/-- Driver, device and processes agree with the history. -/
structure Sound (disk : Nat → δ) (d : Ide τ B δ) (pts : τ → Pc B δ) : Prop where
  le : d.done ≤ d.reqs.length
  queue : d.queue = (d.reqs.drop d.done).map Req.b
  served : ∀ r ∈ d.reqs, r.buf.Served
  pending : ∀ n r, d.done ≤ n → d.reqs[n]? = some r →
    d.buf r.b = r.buf ∧ ∃ p, pts p = .test r.b n ∨ pts p = .wait r.b n
  stands : ∀ p, At disk d p (pts p)
  turn : Turn disk d pts

variable {n : Nat}

theorem Pc.onBuf_of_req {pc : Pc B δ} {b : B} (h : pc.req = some (b, n)) : pc.onBuf = some b := by
  cases pc <;> cases h <;> rfl

section

variable {disk : Nat → δ} {d : Ide τ B δ} {pts : τ → Pc B δ}

theorem Sound.owner_unique (h : Sound disk d pts) {p q : τ} {b : B} (hp : (pts p).onBuf = some b)
    (hq : (pts q).onBuf = some b) : p = q :=
  Option.some.inj (((h.stands p).owner b hp).symm.trans ((h.stands q).owner b hq))

theorem Sound.req_of_pending (h : Sound disk d pts) {p : τ} {r : Req B δ}
    (hp : (pts p).onBuf = some r.b) (hn : d.done ≤ n) (hr : d.reqs[n]? = some r) :
    pts p = .test r.b n ∨ pts p = .wait r.b n := by
  obtain ⟨_, q, hq⟩ := h.pending n r hn hr
  have hpq : p = q := h.owner_unique hp (by rcases hq with hq | hq <;> rw [hq] <;> rfl)
  rwa [hpq]

theorem Sound.pending_inj (h : Sound disk d pts) {m : Nat} {r r' : Req B δ} (hn : d.done ≤ n)
    (hm : d.done ≤ m) (hr : d.reqs[n]? = some r) (hr' : d.reqs[m]? = some r') (hb : r.b = r'.b) :
    n = m := by
  obtain ⟨_, p, hp⟩ := h.pending n r hn hr
  have hq := h.req_of_pending (p := p) (by rcases hp with hp | hp <;> rw [hp, ← hb] <;> rfl) hm hr'
  rcases hp with hp | hp <;> rcases hq with hq | hq <;> rw [hp] at hq
  · exact (Pc.test.inj hq).2
  · exact nomatch hq
  · exact nomatch hq
  · exact (Pc.wait.inj hq).2

theorem Sound.step_to [DecidableEq τ] {d' : Ide τ B δ} {p : τ} {k : Pc B δ}
    (h : Sound disk d pts) (hle : d'.done ≤ d'.reqs.length)
    (hqueue : d'.queue = (d'.reqs.drop d'.done).map Req.b) (hserved : ∀ r ∈ d'.reqs, r.buf.Served)
    (hpending : ∀ n r, d'.done ≤ n → d'.reqs[n]? = some r → d'.buf r.b = r.buf ∧
      ((k = .test r.b n ∨ k = .wait r.b n) ∨ ∃ q, q ≠ p ∧ (pts q = .test r.b n ∨ pts q = .wait r.b n)))
    (hself : At disk d' p k) (hothers : ∀ q, q ≠ p → At disk d q (pts q) → At disk d' q (pts q))
    (hturn : Turn disk d' (update pts p k)) : Sound disk d' (update pts p k) where
  le := hle
  queue := hqueue
  served := hserved
  pending n r hn hr := by
    obtain ⟨hbuf, hk | ⟨q, hqp, hq⟩⟩ := hpending n r hn hr
    · refine ⟨hbuf, p, ?_⟩
      rwa [update_self]
    · refine ⟨hbuf, q, ?_⟩
      rwa [update_of_ne hqp]
  stands := by
    rw [Function.forall_update_iff pts fun q pc => At disk d' q pc]
    exact ⟨hself, fun q hq => hothers q hq (h.stands q)⟩
  turn := hturn

/-- A step that leaves the driver alone. A process that has queued a request
stays with it until it is served. -/
theorem Sound.goto [DecidableEq τ] (h : Sound disk d pts) {p : τ} {k : Pc B δ}
    (hstay : ∀ b n, pts p = .test b n ∨ pts p = .wait b n →
      k = .test b n ∨ k = .wait b n ∨ n < d.done)
    (hself : At disk d p k) (hturn : Turn disk d (update pts p k)) :
    Sound disk d (update pts p k) := by
  refine h.step_to h.le h.queue h.served (fun n r hn hr => ?_) hself (fun _ _ => id) hturn
  obtain ⟨hbuf, q, hq⟩ := h.pending n r hn hr
  refine ⟨hbuf, ?_⟩
  by_cases hqp : q = p
  · subst hqp
    rcases hstay r.b n hq with hk | hk | hlt
    · exact .inl (Or.inl hk)
    · exact .inl (Or.inr hk)
    · omega
  · exact .inr ⟨q, hqp, hq⟩

theorem Turn.inactive [DecidableEq τ] (h : Turn disk d pts) {p : τ} {k : Pc B δ}
    (hp : (pts p).active = false) (hk : k.active = false) :
    Turn disk d (update pts p k) := by
  have hpts (q : τ) (hq : (pts q).active = false) : (update pts p k q).active = false := by
    by_cases hqp : q = p
    · rw [hqp, update_self, hk]
    · rw [update_of_ne hqp, hq]
  have hne {q : τ} (hq : (pts q).active = true) : q ≠ p := by
    rintro rfl
    rw [hp] at hq
    cases hq
  cases h with
  | rest hqueue hcmd hall hdisk hstarted =>
    exact .rest hqueue hcmd (fun q => hpts q (hall q)) hdisk hstarted
  | device r hr hcmd hall hdisk hstarted =>
    exact .device r hr hcmd (fun q => hpts q (hall q)) hdisk hstarted
  | interrupt r h hr hcmd hh hall hdisk hport hstarted =>
    have hhp : h ≠ p := hne (by rcases hh with hh | hh <;> rw [hh] <;> rfl)
    refine .interrupt r h hr hcmd ?_ (fun q hq => hpts q (hall q hq)) hdisk hport hstarted
    rwa [update_of_ne hhp]
  | popped h hcmd hh hall hdisk hstarted =>
    have hhp : h ≠ p := hne (by rcases hh with ⟨b, hh⟩ | hh <;> rw [hh] <;> rfl)
    refine .popped h hcmd ?_ (fun q hq => hpts q (hall q hq)) hdisk hstarted
    rwa [update_of_ne hhp]

theorem Turn.frame (h : Turn disk d pts) (buf : B → Buf δ) (owner : B → Option τ) :
    Turn disk { d with buf := buf, owner := owner } pts := by
  cases h with
  | rest hqueue hcmd hall hdisk hstarted => exact .rest hqueue hcmd hall hdisk hstarted
  | device r hr hcmd hall hdisk hstarted => exact .device r hr hcmd hall hdisk hstarted
  | interrupt r h hr hcmd hh hall hdisk hport hstarted =>
    exact .interrupt r h hr hcmd hh hall hdisk hport hstarted
  | popped h hcmd hh hall hdisk hstarted => exact .popped h hcmd hh hall hdisk hstarted

theorem memResult_append {reqs : List (Req B δ)} (hn : n < reqs.length)
    (l : List (Req B δ)) : memResult disk (reqs ++ l) n = memResult disk reqs n := by
  unfold memResult
  rw [List.getElem?_append_left hn, take_append_of_le_length (Nat.le_of_lt hn)]

theorem memResult_eq {reqs : List (Req B δ)} {r : Req B δ} {x : Buf δ}
    (hr : reqs[n]? = some r) (hx : some x = memResult disk reqs n) :
    x.synced = true ∧
      (r.buf.dirty = false → x.data = lastWritten disk (reqs.take n) r.buf.blockno) := by
  rw [memResult, hr] at hx
  obtain rfl : x = (memIderw (memRun disk (reqs.take n)) r.buf).2 := Option.some.inj hx
  unfold memIderw
  split
  · next hdirty => exact ⟨rfl, fun hclean => nomatch hdirty.symm.trans hclean⟩
  · next hclean =>
    refine ⟨?_, fun _ => memRun_apply disk _ _⟩
    simpa [Buf.synced] using hclean

theorem lt_of_getElem? {reqs : List (Req B δ)} {r : Req B δ} (h : reqs[n]? = some r) :
    n < reqs.length := by
  obtain ⟨hn, _⟩ := List.getElem?_eq_some_iff.mp h
  exact hn

theorem take_succ_eq {reqs : List (Req B δ)} {r : Req B δ} (hr : reqs[n]? = some r) :
    reqs.take (n + 1) = reqs.take n ++ [r] := by
  rw [take_add_one, hr]
  rfl

theorem drop_eq_of_getElem? {reqs : List (Req B δ)} {r : Req B δ}
    (hr : reqs[n]? = some r) : reqs.drop n = r :: reqs.drop (n + 1) := by
  have hlt := lt_of_getElem? hr
  rw [drop_eq_getElem_cons hlt]
  rw [List.getElem?_eq_getElem hlt] at hr
  rw [Option.some.inj hr]

theorem At.frame {d' : Ide τ B δ} {p : τ} {pc : Pc B δ} (h : At disk d p pc)
    (hbuf : ∀ b, pc.onBuf = some b → d'.buf b = d.buf b ∧ d'.owner b = d.owner b)
    (hdone : d'.done = d.done) {l : List (Req B δ)} (hreqs : d'.reqs = d.reqs ++ l) :
    At disk d' p pc where
  owner b hb := (hbuf b hb).2.trans (h.owner b hb)
  own b n hb := by
    obtain ⟨r, hr, hrb, hres⟩ := h.own b n hb
    have hlt := lt_of_getElem? hr
    refine ⟨r, ?_, hrb, fun hn => ?_⟩
    · rw [hreqs, List.getElem?_append_left hlt, hr]
    · rw [hreqs, memResult_append hlt, (hbuf b (Pc.onBuf_of_req hb)).1]
      exact hres (hdone ▸ hn)
  called := h.called
  fresh b hb := by
    have honBuf : pc.onBuf = some b := by rcases hb with rfl | rfl <;> rfl
    rw [(hbuf b honBuf).1]
    exact h.fresh b hb
  wait b n hb := by
    rw [(hbuf b (by rw [hb]; rfl)).1]
    exact h.wait b n hb
  returns b n hb := by
    rw [hdone]
    exact h.returns b n hb

theorem At.pop [DecidableEq B] {q : τ} (hat : At disk d q (pts q)) (h : Sound disk d pts)
    {r : Req B δ} (hr : d.reqs[d.done]? = some r) (hnowait : ∀ b n, pts q ≠ .wait b n)
    {y : Buf δ} (hy : y = (memIderw (memRun disk (d.reqs.take d.done)) r.buf).2) {rest : List B} :
    At disk { d with queue := rest, done := d.done + 1, buf := update d.buf r.b y } q
      (pts q) where
  owner := hat.owner
  own b n hb := by
    obtain ⟨r', hr', hrb, hres⟩ := hat.own b n hb
    refine ⟨r', hr', hrb, fun hn => ?_⟩
    dsimp only at hn ⊢
    rcases Nat.lt_succ_iff_lt_or_eq.mp hn with hlt | rfl
    · have hne : b ≠ r.b := by
        rintro rfl
        have hq := h.req_of_pending (Pc.onBuf_of_req hb) (Nat.le_refl _) hr
        rcases hq with hq | hq <;> rw [hq] at hb <;> cases hb <;> omega
      rw [update_of_ne hne]
      exact hres hlt
    · cases Option.some.inj (hr'.symm.trans hr)
      rw [← hrb, update_self, hy, memResult, hr]
      rfl
  called := hat.called
  fresh b hb := by
    have hbuf : (pts q).onBuf = some b := by rcases hb with hb | hb <;> rw [hb] <;> rfl
    have hne : b ≠ r.b := by
      rintro rfl
      have hq := h.req_of_pending hbuf (Nat.le_refl _) hr
      rcases hq with hq | hq <;> rcases hb with hb | hb <;> rw [hq] at hb <;> cases hb
    dsimp only
    rw [update_of_ne hne]
    exact hat.fresh b hb
  wait b n hb := absurd hb (hnowait b n)
  returns b n hb := Nat.lt_succ_of_lt (hat.returns b n hb)

theorem At.of_none {p : τ} {k : Pc B δ} (hbuf : k.onBuf = none)
    (hcall : ∀ b x, k = .call b x → x.Served) : At disk d p k where
  owner b hb := nomatch hbuf.symm.trans hb
  own b n hb := nomatch hbuf.symm.trans (Pc.onBuf_of_req hb)
  called := hcall
  fresh b hb := by rcases hb with rfl | rfl <;> cases hbuf
  wait b n hb := by
    rw [hb] at hbuf
    cases hbuf
  returns b n hb := by rcases hb with rfl | rfl <;> cases hbuf

theorem At.req_to {p : τ} {pc k : Pc B δ} (h : At disk d p pc) {b : B}
    (hpc : pc.req = some (b, n)) (hk : k.req = some (b, n))
    (hwait : k = .wait b n → (d.buf b).synced = false)
    (hreturns : k = .leave b n ∨ k = .ret b n → n < d.done) : At disk d p k where
  owner b' hb' := by
    cases (Pc.onBuf_of_req hk).symm.trans hb'
    exact h.owner b (Pc.onBuf_of_req hpc)
  own b' n' hb' := by
    cases hk.symm.trans hb'
    exact h.own b n hpc
  called b' x hb' := by
    rw [hb'] at hk
    cases hk
  fresh b' hb' := by rcases hb' with rfl | rfl <;> cases hk
  wait b' n' hb' := by
    rw [hb'] at hk
    cases hk
    exact hwait hb'
  returns b' n' hb' := by
    have hreq : k.req = some (b', n') := by rcases hb' with rfl | rfl <;> rfl
    cases hk.symm.trans hreq
    exact hreturns hb'

theorem At.entered {p : τ} {b : B} (h : At disk d p (.enter b)) : At disk d p (.append b) where
  owner b' hb' := h.owner b' (by cases hb'; rfl)
  own b' n hb' := nomatch hb'
  called b' x hb' := nomatch hb'
  fresh b' hb' := by
    rcases hb' with hb' | hb' <;> cases hb'
    exact h.fresh b (Or.inl rfl)
  wait b' n hb' := nomatch hb'
  returns b' n hb' := by rcases hb' with hb' | hb' <;> cases hb'

theorem Sound.lt_done_of_synced (h : Sound disk d pts) {p : τ} {b : B}
    (hp : (pts p).req = some (b, n)) (hsynced : (d.buf b).synced = true) : n < d.done := by
  obtain ⟨r, hr, rfl, _⟩ := (h.stands p).own b n hp
  by_contra hge
  have hbuf := (h.pending n r (Nat.not_lt.mp hge) hr).1
  have hserved := (h.served r (mem_of_getElem? hr)).1
  rw [← hbuf, hsynced] at hserved
  cases hserved

theorem Sound.started (h : Sound disk d pts) :
    ∃ n, d.done ≤ n ∧ n ≤ d.done + 1 ∧ n ≤ d.reqs.length ∧ d.started = (d.reqs.take n).map Req.b := by
  cases h.turn with
  | rest hqueue _ _ _ hstarted =>
    exact ⟨d.reqs.length, by omega, by omega, Nat.le_refl _, by rw [hstarted, take_length]⟩
  | device r hr _ _ _ hstarted =>
    exact ⟨d.done + 1, by omega, Nat.le_refl _, lt_of_getElem? hr, hstarted⟩
  | interrupt r i hr _ _ _ _ _ hstarted =>
    exact ⟨d.done + 1, by omega, Nat.le_refl _, lt_of_getElem? hr, hstarted⟩
  | popped i _ _ _ _ hstarted => exact ⟨d.done, Nat.le_refl _, by omega, h.le, hstarted⟩

theorem Sound.stored (h : Sound disk d pts) :
    ∃ n, d.done ≤ n ∧ n ≤ d.done + 1 ∧ d.disk = memRun disk (d.reqs.take n) := by
  cases h.turn with
  | rest hqueue _ _ hdisk _ =>
    exact ⟨d.reqs.length, by omega, by omega, by rw [hdisk, take_length]⟩
  | device r _ _ _ hdisk _ => exact ⟨d.done, Nat.le_refl _, by omega, hdisk⟩
  | interrupt r i _ _ _ _ hdisk _ _ => exact ⟨d.done + 1, by omega, Nat.le_refl _, hdisk⟩
  | popped i _ _ _ hdisk _ => exact ⟨d.done, Nat.le_refl _, by omega, hdisk⟩

theorem Sound.head (h : Sound disk d pts) {x : Buf δ} (hx : d.cmd = some x) :
    ∃ r, d.reqs[d.done]? = some r ∧ d.queue.head? = some r.b ∧ x = r.buf := by
  cases h.turn with
  | rest _ hcmd => exact nomatch hx.symm.trans hcmd
  | interrupt _ _ _ hcmd => exact nomatch hx.symm.trans hcmd
  | popped _ hcmd => exact nomatch hx.symm.trans hcmd
  | device r hr hcmd =>
    refine ⟨r, hr, ?_, Option.some.inj (hx.symm.trans hcmd)⟩
    rw [h.queue, drop_eq_of_getElem? hr]
    rfl

theorem Sound.busy (h : Sound disk d pts)
    (hcmd : d.cmd = none) (hall : ∀ p, (pts p).active = false) :
    d.queue = [] ∧ d.disk = memRun disk d.reqs := by
  cases h.turn with
  | rest hqueue _ _ hdisk _ =>
    refine ⟨?_, hdisk⟩
    rw [h.queue, hqueue, drop_length]
    rfl
  | device r _ hcmd' => exact nomatch hcmd.symm.trans hcmd'
  | interrupt r i _ _ hi =>
    have hactive := hall i
    rcases hi with hi | hi <;> rw [hi] at hactive <;> cases hactive
  | popped i _ hi =>
    have hactive := hall i
    rcases hi with ⟨b, hi⟩ | hi <;> rw [hi] at hactive <;> cases hactive

theorem sound_ideInit (buf : B → Buf δ) (port : δ) :
    Sound disk (ideInit τ buf port disk).data fun _ => .init where
  le := Nat.le_refl _
  queue := rfl
  served _ hr := nomatch hr
  pending _ _ _ hr := nomatch hr
  stands _ := .of_none rfl nofun
  turn := .rest rfl rfl (fun _ => rfl) rfl rfl

section

variable [DecidableEq τ]

theorem Sound.keep {d' : Ide τ B δ} (h : Sound disk d pts) {p : τ} {k : Pc B δ}
    (hready : ∀ b n, pts p = .test b n ∨ pts p = .wait b n → n < d.done) (hself : At disk d' p k)
    (hbuf : d'.buf = d.buf) (howner : d'.owner = d.owner) (hqueue : d'.queue = d.queue)
    (hreqs : d'.reqs = d.reqs) (hdone : d'.done = d.done)
    (hturn : Turn disk d' (update pts p k)) : Sound disk d' (update pts p k) := by
  refine h.step_to (by rw [hdone, hreqs]; exact h.le) (by rw [hqueue, hdone, hreqs, h.queue])
    (by rw [hreqs]; exact h.served) (fun n r hn hr => ?_) hself
    (fun q _ hat => hat.frame (fun b _ => ⟨by rw [hbuf], by rw [howner]⟩) hdone
      (hreqs.trans (append_nil _).symm)) hturn
  rw [hdone] at hn
  rw [hreqs] at hr
  rw [hbuf]
  obtain ⟨hr', q, hq⟩ := h.pending n r hn hr
  refine ⟨hr', .inr ⟨q, ?_, hq⟩⟩
  rintro rfl
  exact absurd (hready r.b n hq) (Nat.not_lt.mpr hn)

theorem sound_lockBuf [DecidableEq B] (h : Sound disk d pts) {p : τ} {b : B} {x : Buf δ}
    (hp : pts p = .call b x) :
    Sound disk (lockBuf p b x d).1 (update pts p (lockBuf p b x d).2) := by
  have hserved := (h.stands p).called b x hp
  have hinactive : (pts p).active = false := by rw [hp]; rfl
  unfold lockBuf
  split
  · exact h.goto (by rw [hp]; rintro b n (h | h) <;> cases h) (.of_none rfl nofun)
      (h.turn.inactive hinactive rfl)
  · next hfree =>
    have hnone : d.owner b = none := by simpa using hfree
    have hother {q : τ} {b' : B} (hq : (pts q).onBuf = some b') : b' ≠ b := by
      rintro rfl
      exact nomatch ((h.stands q).owner b' hq).symm.trans hnone
    refine h.step_to h.le h.queue h.served (fun n r hn hr => ?_) ?_ (fun q hq hat => ?_)
      ((h.turn.inactive hinactive rfl).frame _ _)
    · obtain ⟨hbuf, q, hq⟩ := h.pending n r hn hr
      have hqp : q ≠ p := by
        rintro rfl
        rcases hq with hq | hq <;> rw [hp] at hq <;> cases hq
      have hb : r.b ≠ b := hother (q := q) (by rcases hq with hq | hq <;> rw [hq] <;> rfl)
      refine ⟨?_, .inr ⟨q, hqp, hq⟩⟩
      simpa [hb] using hbuf
    · refine ⟨fun b' hb' => ?_, nofun, nofun, fun b' hb' => ?_, nofun, fun b' n hb' => ?_⟩
      · cases hb'
        simp
      · rcases hb' with hb' | hb' <;> cases hb'
        simpa using hserved
      · rcases hb' with hb' | hb' <;> cases hb'
    · refine hat.frame (fun b' hb' => ?_) rfl (append_nil _).symm
      simp [hother hb']

theorem sound_ret [DecidableEq B] (h : Sound disk d pts) {p : τ} {b : B} (hp : pts p = .ret b n) :
    Sound disk { d with owner := update d.owner b none }
      (update pts p .idle) := by
  have hbuf : (pts p).onBuf = some b := by rw [hp]; rfl
  refine h.step_to h.le h.queue h.served (fun n r hn hr => ?_) (.of_none rfl nofun)
    (fun q hq hat => ?_) ((h.turn.inactive (by rw [hp]; rfl) rfl).frame _ _)
  · obtain ⟨hr', q, hq⟩ := h.pending n r hn hr
    refine ⟨hr', .inr ⟨q, ?_, hq⟩⟩
    rintro rfl
    rcases hq with hq | hq <;> rw [hp] at hq <;> cases hq
  · refine hat.frame (fun b' hb' => ⟨rfl, ?_⟩) rfl (append_nil _).symm
    have hne : b' ≠ b := by
      rintro rfl
      exact hq (h.owner_unique hb' hbuf)
    simp [hne]

theorem Sound.push {d' : Ide τ B δ} (h : Sound disk d pts) {p : τ} {b : B} (hp : pts p = .append b)
    (hqueue : d'.queue = d.queue ++ [b]) (hreqs : d'.reqs = d.reqs ++ [Req.mk b (d.buf b)])
    (hdone : d'.done = d.done) (hbuf : d'.buf = d.buf) (howner : d'.owner = d.owner)
    (hturn : Turn disk d' (update pts p (.test b d.reqs.length))) :
    Sound disk d' (update pts p (.test b d.reqs.length)) := by
  have hown : d.owner b = some p := (h.stands p).owner b (by rw [hp]; rfl)
  refine h.step_to ?_ ?_ (fun r hr => ?_) (fun n r hn hr => ?_) ?_ (fun q _ hat => ?_) hturn
  · rw [hdone, hreqs, length_append]
    exact Nat.le_trans h.le (Nat.le_add_right _ _)
  · rw [hqueue, hreqs, hdone, drop_append_of_le_length h.le, map_append, h.queue]
    rfl
  · rw [hreqs, mem_append, mem_singleton] at hr
    rcases hr with hr | rfl
    · exact h.served r hr
    · exact (h.stands p).fresh b (Or.inr hp)
  · rw [hreqs] at hr
    rw [hbuf]
    by_cases hlt : n < d.reqs.length
    · rw [List.getElem?_append_left hlt] at hr
      obtain ⟨hr', q, hq⟩ := h.pending n r (hdone ▸ hn) hr
      refine ⟨hr', .inr ⟨q, ?_, hq⟩⟩
      rintro rfl
      rcases hq with hq | hq <;> rw [hp] at hq <;> cases hq
    · have heq : n = d.reqs.length := by
        have := lt_of_getElem? hr
        rw [length_append, length_singleton] at this
        omega
      rw [heq, List.getElem?_concat_length] at hr
      cases hr
      exact ⟨rfl, .inl (Or.inl (by rw [heq]))⟩
  · refine ⟨fun b' hb' => ?_, fun b' n hb' => ?_, nofun, fun b' hb' => ?_, nofun, fun b' n hb' => ?_⟩
    · cases hb'
      rw [howner, hown]
    · cases hb'
      refine ⟨⟨b, d.buf b⟩, by rw [hreqs, List.getElem?_concat_length], rfl, fun hlt => ?_⟩
      have hle := h.le
      omega
    · rcases hb' with hb' | hb' <;> cases hb'
    · rcases hb' with hb' | hb' <;> cases hb'
  · exact hat.frame (fun b' _ => ⟨by rw [hbuf], by rw [howner]⟩) hdone hreqs

/-- A request is appended; no handler stands between the removal of the head and
the start of the next command. -/
theorem sound_append [DecidableEq B] (h : Sound disk d pts) {p : τ} {b : B} (hp : pts p = .append b)
    (hnext : ∀ q b', pts q ≠ .wake b' ∧ pts q ≠ .next) :
    Sound disk (append b d).1 (update pts p (append b d).2) := by
  have hbuf : (pts p).onBuf = some b := by rw [hp]; rfl
  have hinactive : (pts p).active = false := by rw [hp]; rfl
  have hturn := h.turn.inactive (k := .test b d.reqs.length) hinactive rfl
  -- the head of a queue that was not empty is another buffer
  have hhead {r : Req B δ} (hr : d.reqs[d.done]? = some r) :
      (d.queue ++ [b]).head? = some r.b ∧ r.b ≠ b := by
    refine ⟨by rw [h.queue, drop_eq_of_getElem? hr]; rfl, ?_⟩
    rintro rfl
    rcases h.req_of_pending hbuf (Nat.le_refl _) hr with hq | hq <;> rw [hp] at hq <;> cases hq
  have htake {n : Nat} (hn : n ≤ d.reqs.length) :
      (d.reqs ++ [Req.mk b (d.buf b)]).take n = d.reqs.take n := take_append_of_le_length hn
  have hget {n : Nat} {r : Req B δ} (hr : d.reqs[n]? = some r) :
      (d.reqs ++ [Req.mk b (d.buf b)])[n]? = some r := by
    rw [List.getElem?_append_left (lt_of_getElem? hr), hr]
  unfold append
  dsimp only
  cases hturn with
  | rest hqueue hcmd hall hdisk hstarted =>
    have hempty : d.queue = [] := by
      rw [h.queue, hqueue, drop_length]
      rfl
    rw [if_pos (by rw [hempty]; rfl)]
    refine h.push hp rfl rfl rfl rfl rfl (.device ⟨b, d.buf b⟩ ?_ rfl hall ?_ ?_)
    · change (d.reqs ++ [Req.mk b (d.buf b)])[d.done]? = _
      rw [hqueue, List.getElem?_concat_length]
    · change d.disk = memRun disk ((d.reqs ++ [Req.mk b (d.buf b)]).take d.done)
      rw [hqueue, htake (Nat.le_refl _), take_length, hdisk]
    · change d.started ++ [b] = ((d.reqs ++ [Req.mk b (d.buf b)]).take (d.done + 1)).map Req.b
      rw [hstarted, hqueue, take_of_length_le (by simp), map_append]
      rfl
  | device r hr hcmd hall hdisk hstarted =>
    have hlt := lt_of_getElem? hr
    obtain ⟨hh, hne⟩ := hhead hr
    rw [if_neg (by rw [hh]; simpa using hne)]
    refine h.push hp rfl rfl rfl rfl rfl (.device r (hget hr) hcmd hall ?_ ?_)
    · exact hdisk.trans (by rw [htake (Nat.le_of_lt hlt)])
    · exact hstarted.trans (by rw [htake hlt])
  | interrupt r i hr hcmd hi hall hdisk hport hstarted =>
    have hlt := lt_of_getElem? hr
    obtain ⟨hh, hne⟩ := hhead hr
    rw [if_neg (by rw [hh]; simpa using hne)]
    refine h.push hp rfl rfl rfl rfl rfl (.interrupt r i (hget hr) hcmd hi hall ?_ ?_ ?_)
    · exact hdisk.trans (by rw [htake hlt])
    · exact fun hdirty => (hport hdirty).trans (by rw [htake (Nat.le_of_lt hlt)])
    · exact hstarted.trans (by rw [htake hlt])
  | popped i hcmd hi hall hdisk hstarted =>
    exfalso
    have hip : i ≠ p := by
      rintro rfl
      rw [update_self] at hi
      rcases hi with ⟨_, hi⟩ | hi <;> cases hi
    rw [update_of_ne hip] at hi
    rcases hi with ⟨b', hi⟩ | hi
    · exact (hnext i b').1 hi
    · exact (hnext i b).2 hi

theorem sound_finish (h : Sound disk d pts) {p : τ} (hp : pts p = .ready) :
    Sound disk (finish d).1 (update pts p (finish d).2) := by
  have hinactive : (pts p).active = false := by rw [hp]; rfl
  have hready : ∀ b n, pts p = .test b n ∨ pts p = .wait b n → n < d.done := by
    rw [hp]
    rintro b n (hq | hq) <;> cases hq
  unfold finish
  split
  · exact h.goto (fun b n hq => .inr (Or.inr (hready b n hq))) (.of_none rfl nofun)
      (h.turn.inactive hinactive rfl)
  · next x hcmd =>
    cases h.turn with
    | rest _ hcmd' => exact nomatch hcmd.symm.trans hcmd'
    | interrupt _ _ _ hcmd' => exact nomatch hcmd.symm.trans hcmd'
    | popped _ hcmd' => exact nomatch hcmd.symm.trans hcmd'
    | device r hr hcmd' hall hdisk hstarted =>
      cases Option.some.inj (hcmd'.symm.trans hcmd)
      have hself : update pts p .intr p = (.intr : Pc B δ) := update_self _ _ _
      have hothers (q : τ) (hq : q ≠ p) : (update pts p .intr q).active = false := by
        rw [update_of_ne hq]
        exact hall q
      have hnext : memRun disk (d.reqs.take (d.done + 1)) = (memIderw d.disk r.buf).1 := by
        rw [take_succ_eq hr, memRun_append, hdisk]
      split
      · next hdirty =>
        refine h.keep hready (.of_none rfl nofun) rfl rfl rfl rfl rfl
          (.interrupt r p hr rfl (Or.inl hself) hothers ?_ ?_ hstarted)
        · rw [hnext]
          simp [memIderw, hdirty]
        · intro hclean
          exact nomatch hdirty.symm.trans hclean
      · next hclean =>
        refine h.keep hready (.of_none rfl nofun) rfl rfl rfl rfl rfl
          (.interrupt r p hr rfl (Or.inl hself) hothers ?_ ?_ hstarted)
        · rw [hnext]
          simp [memIderw, hclean]
        · intro _
          exact congrFun hdisk r.buf.blockno

/-- The handler removes the head: the buffer gets what the memory disk would
have left in it. -/
theorem sound_pop [DecidableEq B] (h : Sound disk d pts) {p : τ} (hp : pts p = .pop)
    (hnowait : ∀ q b n, pts q ≠ .wait b n) :
    Sound disk (pop d).1 (update pts p (pop d).2) := by
  have hactive : (pts p).active = true := by rw [hp]; rfl
  have hnot (q : τ) (hq : (pts q).active = false) : p ≠ q := by
    rintro rfl
    exact nomatch hactive.symm.trans hq
  cases h.turn with
  | rest _ _ hall => exact absurd rfl (hnot p (hall p))
  | device _ _ _ hall => exact absurd rfl (hnot p (hall p))
  | popped i _ hi hall =>
    by_cases hip : p = i
    · subst hip
      rcases hi with ⟨_, hi⟩ | hi <;> rw [hp] at hi <;> cases hi
    · exact absurd rfl (hnot p (hall p hip))
  | interrupt r i hr hcmd hi hall hdisk hport hstarted =>
    have hip : i = p := by
      by_contra hne
      exact hnot p (hall p (Ne.symm hne)) rfl
    subst hip
    have hlt := lt_of_getElem? hr
    have hqueue : d.queue = r.b :: (d.reqs.drop (d.done + 1)).map Req.b := by
      rw [h.queue, drop_eq_of_getElem? hr, map_cons]
    have hbuf : d.buf r.b = r.buf := (h.pending d.done r (Nat.le_refl _) hr).1
    have hresult : { (if r.buf.dirty then r.buf else { r.buf with data := d.port }) with
        valid := true, dirty := false } = (memIderw (memRun disk (d.reqs.take d.done)) r.buf).2 := by
      unfold memIderw
      split
      · rfl
      · next hclean =>
        have hclean' : r.buf.dirty = false := by simpa using hclean
        rw [hport hclean', hclean']
    have hlater {n : Nat} {r' : Req B δ} (hn : d.done + 1 ≤ n) (hr' : d.reqs[n]? = some r') :
        r'.b ≠ r.b := fun hb => by
      have heq := h.pending_inj (Nat.le_of_succ_le hn) (Nat.le_refl _) hr' hr hb
      omega
    unfold pop
    rw [hqueue]
    dsimp only
    rw [hbuf, hresult]
    refine h.step_to hlt rfl h.served (fun n r' hn hr' => ?_) (.of_none rfl nofun)
      (fun q hq hat => ?_) ?_
    · obtain ⟨hr'', q, hq⟩ := h.pending n r' (Nat.le_of_succ_le hn) hr'
      refine ⟨?_, .inr ⟨q, ?_, hq⟩⟩
      · dsimp only
        rw [update_of_ne (hlater hn hr'), hr'']
      · rintro rfl
        rcases hq with hq | hq <;> rw [hp] at hq <;> cases hq
    · exact hat.pop h hr (hnowait q) rfl
    · refine .popped i hcmd (Or.inl ⟨r.b, update_self _ _ _⟩) (fun q hq => ?_) hdisk hstarted
      rw [update_of_ne hq]
      exact hall q hq

theorem sound_startNext (h : Sound disk d pts) {p : τ} (hp : pts p = .next) :
    Sound disk (startNext d).1 (update pts p (startNext d).2) := by
  have hactive : (pts p).active = true := by rw [hp]; rfl
  have hnot (q : τ) (hq : (pts q).active = false) : p ≠ q := by
    rintro rfl
    exact nomatch hactive.symm.trans hq
  have hstay : ∀ b n, pts p = .test b n ∨ pts p = .wait b n → n < d.done := by
    rw [hp]
    rintro b n (hq | hq) <;> cases hq
  cases h.turn with
  | rest _ _ hall => exact absurd rfl (hnot p (hall p))
  | device _ _ _ hall => exact absurd rfl (hnot p (hall p))
  | interrupt _ i _ _ hi hall =>
    by_cases hip : p = i
    · subst hip
      rcases hi with hi | hi <;> rw [hp] at hi <;> cases hi
    · exact absurd rfl (hnot p (hall p hip))
  | popped i hcmd hi hall hdisk hstarted =>
    have hip : i = p := by
      by_contra hne
      exact hnot p (hall p (Ne.symm hne)) rfl
    subst hip
    have hall' (q : τ) : (update pts i .intrLeave q).active = false := by
      by_cases hq : q = i
      · rw [hq, update_self]
        rfl
      · rw [update_of_ne hq]
        exact hall q hq
    unfold startNext
    split
    · next hempty =>
      have hlen : d.done = d.reqs.length := by
        rw [h.queue, map_eq_nil_iff, drop_eq_nil_iff] at hempty
        exact Nat.le_antisymm h.le hempty
      refine h.keep hstay (.of_none rfl nofun) rfl rfl rfl rfl rfl (.rest hlen hcmd hall' ?_ ?_)
      · rw [hdisk, hlen, take_length]
      · rw [hstarted, hlen, take_length]
    · next b rest hcons =>
      have hlt : d.done < d.reqs.length := by
        by_contra hge
        rw [h.queue, drop_eq_nil_of_le (Nat.not_lt.mp hge)] at hcons
        cases hcons
      have hr := List.getElem?_eq_getElem hlt
      have hb : d.reqs[d.done].b = b := by
        rw [h.queue, drop_eq_of_getElem? hr] at hcons
        exact (List.cons.inj hcons).1
      refine h.keep hstay (.of_none rfl nofun) rfl rfl rfl rfl rfl
        (.device d.reqs[d.done] hr ?_ hall' hdisk ?_)
      · exact congrArg some (hb ▸ (h.pending d.done _ (Nat.le_refl _) hr).1)
      · change d.started ++ [b] = (d.reqs.take (d.done + 1)).map Req.b
        rw [hstarted, take_succ_eq hr, map_append, ← hb]
        rfl

theorem Turn.handler (h : Turn disk d pts) {p : τ} {k : Pc B δ}
    (hstep : pts p = .intr ∧ k = .pop ∨ (∃ b, pts p = .wake b) ∧ k = .next) :
    Turn disk d (update pts p k) := by
  have hactive : (pts p).active = true := by
    rcases hstep with ⟨hp, _⟩ | ⟨⟨b, hp⟩, _⟩ <;> rw [hp] <;> rfl
  have hnot (hq : (pts p).active = false) : False := nomatch hactive.symm.trans hq
  have hothers {i : τ} (hall : ∀ q, q ≠ i → (pts q).active = false) :
      i = p ∧ ∀ q, q ≠ i → (update pts p k q).active = false := by
    have hip : i = p := by
      by_contra hne
      exact hnot (hall p (Ne.symm hne))
    refine ⟨hip, fun q hq => ?_⟩
    rw [update_of_ne (hip ▸ hq)]
    exact hall q hq
  cases h with
  | rest _ _ hall => exact (hnot (hall p)).elim
  | device _ _ _ hall => exact (hnot (hall p)).elim
  | interrupt r i hr hcmd hi hall hdisk hport hstarted =>
    obtain ⟨rfl, hall'⟩ := hothers hall
    refine .interrupt r i hr hcmd (Or.inr ?_) hall' hdisk hport hstarted
    rcases hstep with ⟨_, rfl⟩ | ⟨⟨b, hp⟩, _⟩
    · exact update_self _ _ _
    · rcases hi with hi | hi <;> rw [hp] at hi <;> cases hi
  | popped i hcmd hi hall hdisk hstarted =>
    obtain ⟨rfl, hall'⟩ := hothers hall
    refine .popped i hcmd (Or.inr ?_) hall' hdisk hstarted
    rcases hstep with ⟨hp, _⟩ | ⟨_, rfl⟩
    · rcases hi with ⟨_, hi⟩ | hi <;> rw [hp] at hi <;> cases hi
    · exact update_self _ _ _

end

end

end Xv6.Disk

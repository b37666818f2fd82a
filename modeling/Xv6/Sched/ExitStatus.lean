import Xv6.Sched.System

/-!
Delivery of exit statuses. What processes see of each other is a history of
events; the invariant ties it to the slots. From it follows what `wait`
returns: the pid and status of a process that has called `exit` with that
status, has become a zombie and was not waited for before, to the process that
forked it or, once that one is dead, to init.

The status crosses two encodings, that of the kernel (`Death.status`) and the
macros of the user library.
-/

namespace Xv6.Sched

open List Option

def WIFEXITED (status : BitVec 32) : Bool := status &&& 0x7f == 0

def WEXITSTATUS (status : BitVec 32) : BitVec 32 := (status &&& 0xff00) >>> 8

def WIFSIGNALED (status : BitVec 32) : Bool := status &&& 0x7f != 0

def WEXITTRAP (status : BitVec 32) : BitVec 32 := (status &&& 0x7f) - 1

/-- How the parent should see a death: by the low byte of the status that the
user passed to `exit`, or by the trap. -/
def Death.Seen (d : Death) (status : BitVec 32) : Prop :=
  match d with
  | .call s => WIFEXITED status = true ∧ (WEXITSTATUS status).toNat = s.toNat % 256
  | .killed => True
  | .trap t => t < 127 → WIFSIGNALED status = true ∧ (WEXITTRAP status).toNat = t

theorem toNat_and_7f (x : BitVec 32) : (x &&& 0x7f).toNat = x.toNat % 128 := by
  rw [BitVec.toNat_and]
  exact Nat.and_two_pow_sub_one_eq_mod x.toNat 7

theorem toNat_WEXITSTATUS (x : BitVec 32) : (WEXITSTATUS x).toNat = x.toNat / 256 % 256 := by
  unfold WEXITSTATUS
  have hshift : (x &&& 0xff00) >>> 8 = (x >>> 8) &&& 0xff := by
    rw [BitVec.ushiftRight_and_distrib]
    rfl
  rw [hshift, BitVec.toNat_and, BitVec.toNat_ushiftRight, Nat.shiftRight_eq_div_pow]
  exact Nat.and_two_pow_sub_one_eq_mod (x.toNat / 2 ^ 8) 8

/-- Decoding undoes encoding. -/
theorem Death.seen_status (d : Death) : d.Seen d.status := by
  have hone : (1 : BitVec 32).toNat = 1 := rfl
  cases d with
  | call s =>
    have hstatus : (Death.call s).status.toNat = s.toNat * 256 % 2 ^ 32 := by
      simp [Death.status, Nat.shiftLeft_eq]
    refine ⟨?_, ?_⟩
    · unfold WIFEXITED
      rw [beq_iff_eq, ← BitVec.toNat_inj, toNat_and_7f, hstatus]
      show _ = 0
      omega
    · rw [toNat_WEXITSTATUS, hstatus]
      omega
  | killed => trivial
  | trap t =>
    intro ht
    have hstatus : (Death.trap t).status.toNat = t + 1 := by
      simp only [Death.status, BitVec.toNat_add, BitVec.toNat_ofNat, hone]
      omega
    have hlow : ((Death.trap t).status &&& 0x7f).toNat = t + 1 := by
      rw [toNat_and_7f, hstatus]
      omega
    refine ⟨?_, ?_⟩
    · unfold WIFSIGNALED
      rw [bne_iff_ne]
      intro heq
      rw [heq] at hlow
      cases hlow
    · unfold WEXITTRAP
      rw [BitVec.toNat_sub, hlow, hone]
      omega

def Event.subject : Event → Option Int
  | .fork _ child => some child
  | .exit pid _ => some pid
  | .dead pid => some pid
  | .reaped _ child _ => some child
  | .failed _ => none

/-- What the history says of the process in a slot. -/
structure SlotHistory (tr : List Event) (l : Life) : Prop where
  exited : l.phase = .alive ∧ l.exiting = true ∨ l.phase = .zombie →
    ∃ d, .exit l.pid d ∈ tr ∧ l.exitStatus = d.status.toInt
  noExit : l.phase = .embryo ∨ l.phase = .alive ∧ l.exiting = false → ∀ d, .exit l.pid d ∉ tr
  fresh : l.phase = .embryo → l.exiting = false
  dead : l.phase = .zombie → .dead l.pid ∈ tr
  notDead : l.phase = .embryo ∨ l.phase = .alive → .dead l.pid ∉ tr
  notReaped : l.phase ≠ .free → ∀ w status, .reaped w l.pid status ∉ tr
  young : l.phase = .embryo → l.stage ≠ .ready → ∀ f, .fork f l.pid ∉ tr

/-- `r` is the parent that the history gives to the process `pid`. -/
def Forked (init : Slot) (tr : List Event) (pid : Int) (r : Slot) (rpid : Int) : Prop :=
  ∃ f, .fork f pid ∈ tr ∧ (.dead f ∈ tr → r = init) ∧ (.dead f ∉ tr → rpid = f)

/-- What `wait` returned to `w` after the history `tr`: the process `pid`
called `exit` once and is dead, the status is what it passed to `exit` and is
seen for what it is, nobody has waited for it before, and `w` is the process
that forked it or, when that one is dead, init. -/
def Delivered (tr : List Event) (w pid status : Int) : Prop :=
  (∃ d, .exit pid d ∈ tr ∧ (∀ d', .exit pid d' ∈ tr → d' = d) ∧ status = d.status.toInt ∧
    d.Seen (BitVec.ofInt 32 status)) ∧
  .dead pid ∈ tr ∧ (∀ w' status', .reaped w' pid status' ∉ tr) ∧
  ∃ f, .fork f pid ∈ tr ∧ (∀ f', .fork f' pid ∈ tr → f' = f) ∧ w = if .dead f ∈ tr then 1 else f

structure History (init : Slot) (tr : List Event) (v : View) : Prop where
  slot : ∀ q, SlotHistory tr (v.life q)
  forked : ∀ q r, (v.life q).parent = some r → Forked init tr (v.life q).pid r (v.life r).pid
  past : ∀ e ∈ tr, ∀ pid, e.subject = some pid → pid < v.nextpid
  exitOnce : ∀ pid d d', .exit pid d ∈ tr → .exit pid d' ∈ tr → d' = d
  forkOnce : ∀ pid f f', .fork f pid ∈ tr → .fork f' pid ∈ tr → f' = f
  delivered : ∀ tr1 w pid status tr2, tr = tr1 ++ .reaped w pid status :: tr2 →
    Delivered tr1 w pid status

theorem SlotHistory.append {tr : List Event} {l : Life} (h : SlotHistory tr l) {e : Event}
    (he : l.phase ≠ .free → e.subject ≠ some l.pid) : SlotHistory (tr ++ [e]) l := by
  have hmem (e' : Event) (hbusy : l.phase ≠ .free) (hs : e'.subject = some l.pid) :
      e' ∈ tr ++ [e] ↔ e' ∈ tr := by
    rw [mem_append, mem_singleton, or_iff_left]
    rintro rfl
    exact he hbusy hs
  have hembryo (hp : l.phase = .embryo) : l.phase ≠ .free := by simp [hp]
  have halive (hp : l.phase = .alive) : l.phase ≠ .free := by simp [hp]
  have hzombie (hp : l.phase = .zombie) : l.phase ≠ .free := by simp [hp]
  refine ⟨fun hp => ?_, fun hp d => ?_, h.fresh, fun hp => ?_, fun hp => ?_, fun hp w status => ?_,
    fun hp hstage f => ?_⟩
  · obtain ⟨d, hd, hstatus⟩ := h.exited hp
    exact ⟨d, mem_append_left _ hd, hstatus⟩
  · rw [hmem _ (hp.elim hembryo fun hp => halive hp.1) rfl]
    exact h.noExit hp d
  · exact mem_append_left _ (h.dead hp)
  · rw [hmem _ (hp.elim hembryo halive) rfl]
    exact h.notDead hp
  · rw [hmem _ hp rfl]
    exact h.notReaped hp w status
  · rw [hmem _ (hembryo hp) rfl]
    exact h.young hp hstage f

variable {p init : Slot} {v : View} {m : Frames}

theorem Forked.append {tr : List Event} {pid rpid : Int} {r : Slot}
    (h : Forked init tr pid r rpid) {e : Event} (he : ∀ x, e ≠ .dead x) :
    Forked init (tr ++ [e]) pid r rpid := by
  obtain ⟨f, hf, hdead, halive⟩ := h
  have hmem : Event.dead f ∈ tr ++ [e] ↔ Event.dead f ∈ tr := by
    rw [mem_append, mem_singleton, or_iff_left]
    exact fun heq => he f heq.symm
  exact ⟨f, mem_append_left _ hf, fun h => hdead (hmem.mp h), fun h => halive fun h' =>
    h (hmem.mpr h')⟩

theorem split_last {α : Type*} {tr tr1 tr2 : List α} {e x : α} (h : tr ++ [e] = tr1 ++ x :: tr2) :
    (tr = tr1 ∧ e = x) ∨ ∃ tr3, tr = tr1 ++ x :: tr3 := by
  rcases eq_nil_or_concat tr2 with rfl | ⟨tr3, y, rfl⟩
  · exact .inl (by simpa using append_inj' h rfl)
  · refine .inr ⟨tr3, ?_⟩
    have hcons : tr ++ [e] = (tr1 ++ x :: tr3) ++ [y] := by simpa using h
    exact (append_inj' hcons rfl).1

theorem delivered_append {tr : List Event} {e : Event}
    (h : ∀ tr1 w pid status tr2, tr = tr1 ++ .reaped w pid status :: tr2 →
      Delivered tr1 w pid status)
    (he : ∀ w pid status, e = .reaped w pid status → Delivered tr w pid status)
    (tr1 : List Event) (w pid status : Int) (tr2 : List Event)
    (hsplit : tr ++ [e] = tr1 ++ .reaped w pid status :: tr2) : Delivered tr1 w pid status := by
  rcases split_last hsplit with ⟨rfl, heq⟩ | ⟨tr3, heq⟩
  · exact he w pid status heq
  · exact h tr1 w pid status tr3 heq

namespace View

theorem history_set {tr : List Event} {l : Life} {n : Int}
    (hslot : ∀ q, q ≠ p → SlotHistory tr (v.life q)) (hl : SlotHistory tr l)
    (hforked : ∀ q r, q ≠ p → (v.life q).parent = some r →
      Forked init tr (v.life q).pid r (v.life r).pid)
    (hself : ∀ r, l.parent = some r → Forked init tr l.pid r (v.life r).pid ∧ r ≠ p)
    (hchild : ∀ q, (v.life q).parent = some p → l.pid = (v.life p).pid)
    (hpast : ∀ e ∈ tr, ∀ pid, e.subject = some pid → pid < n)
    (hexit : ∀ pid d d', .exit pid d ∈ tr → .exit pid d' ∈ tr → d' = d)
    (hfork : ∀ pid f f', .fork f pid ∈ tr → .fork f' pid ∈ tr → f' = f)
    (hdelivered : ∀ tr1 w pid status tr2, tr = tr1 ++ .reaped w pid status :: tr2 →
      Delivered tr1 w pid status) : History init tr { v.set p l with nextpid := n, mem := m } where
  slot q := by
    show SlotHistory tr ((v.set p l).life q)
    rw [set_life]
    split
    · exact hl
    · next hne => exact hslot q hne
  forked q r hr := by
    change ((v.set p l).life q).parent = some r at hr
    show Forked init tr ((v.set p l).life q).pid r ((v.set p l).life r).pid
    rcases eq_or_ne q p with rfl | hq
    · rw [set_self] at hr ⊢
      obtain ⟨hf, hne⟩ := hself r hr
      rw [set_of_ne v l hne]
      exact hf
    · rw [set_of_ne v l hq] at hr ⊢
      rcases eq_or_ne r p with rfl | hrp
      · rw [set_self, hchild q hr]
        exact hforked q r hq hr
      · rw [set_of_ne v l hrp]
        exact hforked q r hq hr
  past := hpast
  exitOnce := hexit
  forkOnce := hfork
  delivered := hdelivered

theorem history_quiet {tr : List Event} (hI : Inv init v)
    (h : History init tr v) {l : Life} {n : Int} (hn : v.nextpid ≤ n)
    (hl : SlotHistory tr l) (hparent : l.parent = (v.life p).parent)
    (hpid : l.pid = (v.life p).pid ∨ (v.life p).phase = .free) :
    History init tr { v.set p l with nextpid := n, mem := m } := by
  refine history_set (fun q _ => h.slot q) hl (fun q r _ => h.forked q r) ?_ ?_
    (fun e he pid hs => lt_of_lt_of_le (h.past e he pid hs) hn) h.exitOnce h.forkOnce h.delivered
  · intro r hr
    rw [hparent] at hr
    rcases hpid with hpid | hfree
    · rw [hpid]
      exact ⟨h.forked p r hr, (hI.parentAlive p r hr).2⟩
    · rw [hI.freeParent p hfree] at hr
      cases hr
  · intro q hq
    rcases hpid with hpid | hfree
    · exact hpid
    · have halive := (hI.parentAlive q p hq).1
      rw [hfree] at halive
      cases halive

theorem history_event {tr : List Event} (hI : Inv init v)
    (h : History init tr v) {l : Life} {e : Event}
    (hsubject : e.subject = some (v.life p).pid)
    (hdead : ∀ x, e ≠ .dead x) (hl : SlotHistory (tr ++ [e]) l)
    (hself : ∀ r, l.parent = some r → Forked init (tr ++ [e]) l.pid r (v.life r).pid ∧ r ≠ p)
    (hchild : ∀ q, (v.life q).parent = some p → l.pid = (v.life p).pid)
    (hexit : ∀ pid d d', .exit pid d ∈ tr ++ [e] → .exit pid d' ∈ tr ++ [e] → d' = d)
    (hfork : ∀ pid f f', .fork f pid ∈ tr ++ [e] → .fork f' pid ∈ tr ++ [e] → f' = f)
    (hreaped : ∀ w pid status, e = .reaped w pid status → Delivered tr w pid status) :
    History init (tr ++ [e]) { v.set p l with mem := m } := by
  refine history_set (fun q hq => (h.slot q).append fun hqbusy heq => ?_) hl
    (fun q r _ hr => (h.forked q r hr).append hdead) hself hchild ?_ hexit hfork
    (delivered_append h.delivered hreaped)
  · rw [hsubject] at heq
    exact hq (hI.pidInj q p hqbusy (Option.some.inj heq).symm)
  · intro e' he' pid hpid
    rcases mem_append.mp he' with hold | hnew
    · exact h.past e' hold pid hpid
    · rw [mem_singleton.mp hnew, hsubject] at hpid
      cases hpid
      exact hI.pidLt p

theorem history_mem {tr : List Event} (h : History init tr v)
    (m : Frames) : History init tr { v with mem := m } :=
  ⟨h.slot, h.forked, h.past, h.exitOnce, h.forkOnce, h.delivered⟩

theorem history_alloc {tr : List Event} (hI : Inv init v)
    (h : History init tr v) {np : Slot} (hfree : (v.life np).phase = .free) :
    History init tr { v.set np { v.life np with
      phase := .embryo, pid := v.nextpid, exiting := false, stage := .proc } with
      nextpid := v.nextpid + 1 } := by
  have hnew (e : Event) (he : e.subject = some v.nextpid) : e ∉ tr := fun hmem =>
    lt_irrefl _ (h.past e hmem _ he)
  refine history_quiet hI h (by omega) ?_ rfl (Or.inr hfree)
  exact ⟨by simp, fun _ d => hnew _ rfl, fun _ => rfl, by simp, fun _ => hnew _ rfl,
    fun _ _ _ => hnew _ rfl, fun _ _ _ => hnew _ rfl⟩

theorem history_exitBegin {tr : List Event} (hI : Inv init v)
    (h : History init tr v) {d : Death} (halive : (v.life p).phase = .alive)
    (hfirst : (v.life p).exiting = false) : History init (tr ++ [.exit (v.life p).pid d])
      (v.set p { v.life p with exitStatus := d.status.toInt, exiting := true }) := by
  have hp := h.slot p
  have hnone := hp.noExit (Or.inr ⟨halive, hfirst⟩)
  refine history_event hI h rfl (by simp) ?_ ?_ (fun _ _ => rfl) ?_ ?_ (by simp)
  · refine ⟨fun _ => ⟨d, by simp, rfl⟩, by simp [halive], by simp [halive], by simp [halive], ?_, ?_,
      by simp [halive]⟩
    · intro _
      simpa using hp.notDead (Or.inr halive)
    · intro hbusy w status
      simpa using hp.notReaped hbusy w status
  · intro r hr
    exact ⟨(h.forked p r hr).append (by simp), (hI.parentAlive p r hr).2⟩
  · intro pid d1 d2 h1 h2
    simp only [mem_append, mem_singleton, Event.exit.injEq] at h1 h2
    rcases h1 with h1 | ⟨rfl, rfl⟩
    · rcases h2 with h2 | ⟨rfl, rfl⟩
      · exact h.exitOnce pid d1 d2 h1 h2
      · exact absurd h1 (hnone d1)
    · rcases h2 with h2 | ⟨_, rfl⟩
      · exact absurd h2 (hnone d2)
      · rfl
  · intro pid f f' h1 h2
    simp only [mem_append, mem_singleton, reduceCtorEq, or_false] at h1 h2
    exact h.forkOnce pid f f' h1 h2

theorem history_reap {tr : List Event} (hI : Inv init v)
    (h : History init tr v) {q : Slot} (hzombie : (v.life q).phase = .zombie)
    (hparent : (v.life q).parent = some p) :
    History init (tr ++ [.reaped (v.life p).pid (v.life q).pid (v.life q).exitStatus])
      { v.set q { v.life q with phase := .free, pid := 0, parent := none } with
        mem := v.mem.reap q } := by
  have hq := h.slot q
  refine history_event hI h rfl (by simp)
    ⟨by simp, by simp, by simp, by simp, by simp, by simp, by simp⟩ (by simp) ?_ ?_ ?_ ?_
  · intro r hr
    have halive := (hI.parentAlive r q hr).1
    rw [hzombie] at halive
    cases halive
  · intro pid d d' h1 h2
    simp only [mem_append, mem_singleton, reduceCtorEq, or_false] at h1 h2
    exact h.exitOnce pid d d' h1 h2
  · intro pid f f' h1 h2
    simp only [mem_append, mem_singleton, reduceCtorEq, or_false] at h1 h2
    exact h.forkOnce pid f f' h1 h2
  · intro w pid status heq
    cases heq
    obtain ⟨d, hd, hstatus⟩ := hq.exited (Or.inr hzombie)
    obtain ⟨f, hf, hdead, halive⟩ := h.forked q p hparent
    refine ⟨⟨d, hd, fun d' => h.exitOnce _ d d' hd, hstatus, ?_⟩, hq.dead hzombie,
      hq.notReaped (by simp [hzombie]), f, hf, fun f' => h.forkOnce _ f f' hf, ?_⟩
    · rw [hstatus, BitVec.ofInt_toInt]
      exact d.seen_status
    · split
      · next hdf =>
        rw [hdead hdf]
        exact hI.initPid
      · next hdf => exact halive hdf

theorem history_parent {tr : List Event} (hI : Inv init v)
    (h : History init tr v) {np : Slot} (halive : (v.life p).phase = .alive)
    (hembryo : (v.life np).phase = .embryo) (hstage : (v.life np).stage = .copied) :
    History init (tr ++ [.fork (v.life p).pid (v.life np).pid])
      (v.set np { v.life np with parent := some p, stage := .ready }) := by
  have hnp := h.slot np
  have hnone := hnp.young hembryo (by simp [hstage])
  have hne : p ≠ np := by
    rintro rfl
    rw [halive] at hembryo
    cases hembryo
  refine history_event hI h rfl (by simp) ?_ ?_ (fun _ _ => rfl) ?_ ?_ (by simp)
  · refine ⟨by simp [hembryo], ?_, hnp.fresh, by simp [hembryo], ?_, ?_, by simp⟩
    · intro _ d
      simpa using hnp.noExit (Or.inl hembryo) d
    · intro _
      simpa using hnp.notDead (Or.inl hembryo)
    · intro hbusy w status
      simpa using hnp.notReaped hbusy w status
  · intro r hr
    cases hr
    refine ⟨⟨_, mem_append_right _ (mem_singleton.mpr rfl), ?_, fun _ => rfl⟩, hne⟩
    intro hdead
    simp only [mem_append, mem_singleton, reduceCtorEq, or_false] at hdead
    exact absurd hdead ((h.slot p).notDead (Or.inr halive))
  · intro pid d d' h1 h2
    simp only [mem_append, mem_singleton, reduceCtorEq, or_false] at h1 h2
    exact h.exitOnce pid d d' h1 h2
  · intro pid f f' h1 h2
    simp only [mem_append, mem_singleton, Event.fork.injEq] at h1 h2
    rcases h1 with h1 | ⟨rfl, rfl⟩
    · rcases h2 with h2 | ⟨rfl, rfl⟩
      · exact h.forkOnce pid f f' h1 h2
      · exact absurd h1 (hnone f)
    · rcases h2 with h2 | ⟨rfl, _⟩
      · exact absurd h2 (hnone f')
      · rfl

theorem history_exitEnd {tr : List Event} (hI : Inv init v)
    (h : History init tr v) (halive : (v.life p).phase = .alive)
    (hexiting : (v.life p).exiting = true) (hne : p ≠ init) :
    History init (tr ++ [.dead (v.life p).pid]) (v.exit init p) where
  slot q := by
    rcases eq_or_ne q p with rfl | hq
    · have hself := h.slot q
      have hphase : ((v.exit init q).life q).phase = .zombie := if_pos rfl
      refine ⟨fun _ => ?_, by simp [hphase], by simp [hphase], fun _ => by simp [exit],
        by simp [hphase], fun _ w status => ?_, by simp [hphase]⟩
      · obtain ⟨d, hd, hstatus⟩ := hself.exited (Or.inl ⟨halive, hexiting⟩)
        exact ⟨d, mem_append_left _ hd, hstatus⟩
      · have hpid : ((v.exit init q).life q).pid = (v.life q).pid := rfl
        rw [hpid]
        simpa using hself.notReaped (by simp [halive]) w status
    · have hphase : ((v.exit init p).life q).phase = (v.life q).phase := if_neg hq
      have hold := (h.slot q).append (e := .dead (v.life p).pid) fun hbusy heq =>
        hq (hI.pidInj q p hbusy (Option.some.inj heq).symm)
      refine ⟨?_, ?_, ?_, ?_, ?_, ?_, ?_⟩
      all_goals rw [hphase]
      · exact hold.exited
      · exact hold.noExit
      · exact hold.fresh
      · exact hold.dead
      · exact hold.notDead
      · exact hold.notReaped
      · exact hold.young
  forked q r hr := by
    have hmem (f : Int) : Event.dead f ∈ tr ++ [.dead (v.life p).pid] ↔
        Event.dead f ∈ tr ∨ f = (v.life p).pid := by simp
    show Forked init _ (v.life q).pid r (v.life r).pid
    simp only [exit] at hr
    split at hr
    · next hchild =>
      cases hr
      obtain ⟨f, hf, hdead, hpid⟩ := h.forked q p hchild
      refine ⟨f, mem_append_left _ hf, fun _ => rfl, fun hnot => ?_⟩
      rw [hmem] at hnot
      push Not at hnot
      exact absurd (hpid hnot.1).symm hnot.2
    · next hother =>
      obtain ⟨f, hf, hdead, hpid⟩ := h.forked q r hr
      have hr' := (hI.parentAlive q r hr).1
      refine ⟨f, mem_append_left _ hf, fun hin => ?_, fun hnot => ?_⟩
      · by_cases hold : Event.dead f ∈ tr
        · exact hdead hold
        · -- then `f` is `p` itself, whose children are those with `p` as parent
          have hfp : f = (v.life p).pid := ((hmem f).mp hin).resolve_left hold
          have hrp := hI.pidInj r p (by simp [hr']) ((hpid hold).trans hfp)
          rw [hrp] at hr
          exact absurd hr hother
      · rw [hmem] at hnot
        push Not at hnot
        exact hpid hnot.1
  past e he pid hpid := by
    rcases mem_append.mp he with hold | hnew
    · exact h.past e hold pid hpid
    · rw [mem_singleton.mp hnew] at hpid
      cases hpid
      exact hI.pidLt p
  exitOnce pid d d' h1 h2 := by
    simp only [mem_append, mem_singleton, reduceCtorEq, or_false] at h1 h2
    exact h.exitOnce pid d d' h1 h2
  forkOnce pid f f' h1 h2 := by
    simp only [mem_append, mem_singleton, reduceCtorEq, or_false] at h1 h2
    exact h.forkOnce pid f f' h1 h2
  delivered := delivered_append h.delivered (by simp)

theorem Effect.history {v' : View} {ev tr : List Event}
    (he : Effect init v ev v') (hI : Inv init v) (h : History init tr v) :
    History init (tr ++ ev) v' := by
  have hgone (np : Slot) : SlotHistory tr { v.life np with phase := .free } :=
    ⟨by simp, by simp, by simp, by simp, by simp, by simp, by simp⟩
  have hlater (np : Slot) (stage : ForkStage) (hembryo : (v.life np).phase = .embryo)
      (hold : (v.life np).stage ≠ .ready) : SlotHistory tr { v.life np with stage := stage } := by
    have hnp := h.slot np
    exact ⟨hnp.exited, hnp.noExit, hnp.fresh, hnp.dead, hnp.notDead, hnp.notReaped,
      fun _ _ => hnp.young hembryo hold⟩
  cases he with
  | quiet =>
    rw [append_nil]
    exact h
  | failed pid =>
    refine ⟨fun q => (h.slot q).append (by simp [Event.subject]), fun q r hr =>
      (h.forked q r hr).append (by simp), ?_, ?_, ?_, delivered_append h.delivered (by simp)⟩
    · intro e he pid hpid
      rcases mem_append.mp he with hold | hnew
      · exact h.past e hold pid hpid
      · rw [mem_singleton.mp hnew] at hpid
        cases hpid
    · simpa using h.exitOnce
    · simpa using h.forkOnce
  | exitBegin p d halive hfirst => exact history_exitBegin hI h halive hfirst
  | exitEnd p halive hexiting hinit => exact history_exitEnd hI h halive hexiting hinit
  | reap p q hzombie hparent => exact history_reap hI h hzombie hparent
  | alloc np hfree =>
    rw [append_nil]
    exact history_alloc hI h hfree
  | stack np f rest hembryo hstage hf =>
    rw [append_nil]
    exact history_quiet hI h le_rfl (hlater np _ hembryo (by simp [hstage])) rfl (Or.inl rfl)
  | noStack np hembryo hstage =>
    rw [append_nil]
    exact history_quiet hI h le_rfl (hgone np) rfl (Or.inl rfl)
  | dir np f rest hembryo hstage hf =>
    rw [append_nil]
    exact history_quiet hI h le_rfl (hlater np _ hembryo (by simp [hstage])) rfl (Or.inl rfl)
  | noDir np hembryo hstage =>
    rw [append_nil]
    exact history_quiet hI h le_rfl (hgone np) rfl (Or.inl rfl)
  | parent p np halive hembryo hstage => exact history_parent hI h halive hembryo hstage
  | done np hembryo hstage =>
    rw [append_nil]
    have hnp := h.slot np
    have hfresh := hnp.fresh hembryo
    refine history_quiet hI h le_rfl ?_ rfl (Or.inl rfl)
    exact ⟨by simp [hfresh], fun _ => hnp.noExit (Or.inl hembryo), by simp, by simp,
      fun _ => hnp.notDead (Or.inl hembryo), fun _ => hnp.notReaped (by simp [hembryo]), by simp⟩
  | exec p f halive hf =>
    rw [append_nil]
    exact history_mem h _
  | kalloc f rest hf =>
    rw [append_nil]
    exact history_mem h _
  | kfree f hf =>
    rw [append_nil]
    exact history_mem h _

end View

namespace System

theorem boot_history (n : Nat) : History Kernel.boot.initproc [] (boot n).view where
  slot q := by
    have hcore := boot_life n q
    have hphase : ((boot n).view.life q).phase ≠ .zombie := by
      rw [hcore]
      split <;> exact nofun
    have hexiting : ((boot n).view.life q).exiting = false := rfl
    exact ⟨fun hq => absurd hq (by simp [hphase, hexiting]), by simp, fun _ => rfl,
      fun hq => absurd hq hphase, by simp, by simp, by simp⟩
  forked q r hr := by
    rw [boot_life n q] at hr
    split at hr <;> cases hr
  past := nofun
  exitOnce := nofun
  forkOnce := nofun
  delivered := by simp

theorem failed_of_waitEvents {t : Table} {w : Int} (h : Event.failed w ∈ waitEvents t p) :
    (t p).pid = w ∧ ((∀ q, (t q).parent ≠ some p) ∨ (t p).killed = true) := by
  unfold waitEvents at h
  rcases t.wait_cases p with ⟨q, _, _, _, heq⟩ | ⟨_, heq, hwhy⟩ | ⟨_, heq⟩
  · simp [heq] at h
  · simp only [heq, mem_singleton, Event.failed.injEq] at h
    exact ⟨h.symm, hwhy⟩
  · simp [heq] at h

/-- `wait` returns -1 only to a process without children or to a killed one. -/
theorem failed_of_step {s s' : System} {a : Act} (h : s.step a = some s') {w : Int}
    (hev : Event.failed w ∈ s.emits a) : ∃ c p, s.k.running c = some p ∧ (s.k.table p).pid = w ∧
      ((∀ q, (s.k.table q).parent ≠ some p) ∨ (s.k.table p).killed = true) := by
  cases a
  case unlock c =>
    obtain ⟨p, hrun, _⟩ := bind_eq_some_iff.mp h
    simp only [emits, hrun, elim_some] at hev
    split at hev
    · have hparent (q : Slot) : (s.woken p q).parent = (s.k.table q).parent :=
        congrArg Core.parent (Table.core_set rfl q)
      obtain ⟨hpid, hwhy⟩ := failed_of_waitEvents hev
      simp only [hparent] at hwhy
      exact ⟨c, p, hrun, by simpa [woken] using hpid, by simpa [woken] using hwhy⟩
    · cases hev
  case wait c =>
    obtain ⟨p, hrun, _⟩ := bind_eq_some_iff.mp h
    simp only [emits, hrun, elim_some] at hev
    exact ⟨c, p, hrun, failed_of_waitEvents hev⟩
  case exitBegin c d =>
    obtain ⟨p, hrun, _⟩ := bind_eq_some_iff.mp h
    simp [emits, hrun] at hev
  case exitEnd c =>
    obtain ⟨p, hrun, _⟩ := bind_eq_some_iff.mp h
    simp [emits, hrun] at hev
  case forkParent c =>
    obtain ⟨p, hrun, h⟩ := bind_eq_some_iff.mp h
    obtain ⟨np, hnp, _⟩ := bind_eq_some_iff.mp h
    simp [emits, hrun, hnp] at hev
  all_goals cases hev

/-- Exit status delivery. In every run each return from `wait` delivers as
above, so that a process is reaped at most once; and `wait` returns -1 only
to a process that has no child or is killed. -/
theorem exit_status_delivered {n : Nat} {tr : List Event} {s : System} (h : Run (boot n) tr s) :
    (∀ tr1 w pid status tr2, tr = tr1 ++ .reaped w pid status :: tr2 → Delivered tr1 w pid status) ∧
    ∀ a s' w, s.step a = some s' → Event.failed w ∈ s.emits a →
      ∃ c p, s.k.running c = some p ∧ (s.k.table p).pid = w ∧
        ((∀ q, (s.k.table q).parent ≠ some p) ∨ (s.k.table p).killed = true) := by
  have hhistory := (h.induct (fun tr s => History Kernel.boot.initproc tr s.view) (boot_history n)
    fun tr s a s' hI hH hstep => by
      have heffect := step_effect hI.kernel hstep
      have hview := hI.view
      rw [hI.init] at heffect hview
      exact heffect.history hview hH).2
  exact ⟨hhistory.delivered, fun a s' w hstep hev => failed_of_step hstep hev⟩

/-- Init forks on processor 0, the child runs on processor 1 and calls `exit(3)`. -/
def exitActs : List Act := List.flatten
  [.acquire 0 :: List.replicate 66 (.scan 0),
    [.unlock 0, .forkAlloc 0, .forkStack 0, .forkDir 0 true, .forkParent 0, .forkDone 0],
    .acquire 1 :: List.replicate 67 (.scan 1), [.unlock 1, .exitBegin 1 (.call 3)]]

/-- The state before the child becomes a zombie. -/
def exiting3 : System := (((boot 2).runActs exitActs).map Prod.snd).getD (boot 2)

theorem run_exiting3 : Run (boot 2) [.fork 1 2, .exit 2 (.call 3)] exiting3 := by
  obtain ⟨⟨tr, s⟩, hrun⟩ := isSome_iff_exists.mp
    (show ((boot 2).runActs exitActs).isSome = true by decide +kernel)
  have htrace : ((boot 2).runActs exitActs).map Prod.fst =
      some [.fork 1 2, .exit 2 (.call 3)] := by decide +kernel
  have hstate : exiting3 = s := by
    unfold exiting3
    rw [hrun]
    rfl
  rw [hrun] at htrace
  cases htrace
  rw [hstate]
  exact run_of_acts hrun

/-- Process `p` on processor `c`, child of `parent` and without children, has
become a zombie; the processor is still on its stack. -/
def bury (s : System) (c : Nat) (p parent : Slot) : System :=
  { s with
    k := { s.k with
      table := (s.k.table.wakeup1 (.proc parent)).set p fun q =>
        { q with state := .ZOMBIE } }.resume c }

theorem step_bury {s : System} {c : Nat} {parent : Slot} (hrun : s.k.running c = some p)
    (hexiting : s.exiting p = true) (hlock : s.k.lock = none)
    (hembryo : (s.k.thread p).embryo = none) (hinit : p ≠ s.k.initproc)
    (hparent : (s.k.table p).parent = some parent) (hnone : ∀ q, (s.k.table q).parent ≠ some p) :
    s.step (.exitEnd c) = some (s.bury c p parent) := by
  have hexit : (s.k.table.set p fun q => { q with exitStatus := (s.k.table p).exitStatus }).exit
      p s.k.initproc = (s.k.table.wakeup1 (.proc parent)).set p fun q =>
        { q with state := .ZOMBIE } := by
    rw [Table.set_exitStatus_self, Table.exit_of_childless hparent hnone]
  simp only [step, Kernel.step, hrun, bind_eq_bind, bind_some, hexiting, if_true,
    hlock, hembryo, hinit, ne_eq, not_false_eq_true, and_self, hexit, map_some, bury]

def dead3 : System := exiting3.bury 1 ⟨1, by decide⟩ ⟨0, NPROC_pos⟩

theorem run_dead3 : Run (boot 2) [.fork 1 2, .exit 2 (.call 3), .dead 2] dead3 := by
  have hstep : exiting3.step (.exitEnd 1) = some dead3 :=
    step_bury (by decide +kernel) (by decide +kernel) (by decide +kernel) (by decide +kernel)
      (by decide +kernel) (by decide +kernel) (by decide +kernel)
  have hemits : exiting3.emits (.exitEnd 1) = [.dead 2] := by decide +kernel
  have hrun := run_exiting3.tail (.exitEnd 1) hstep
  rw [hemits] at hrun
  exact hrun

theorem exit_status_delivered_call : Delivered [.fork 1 2, .exit 2 (.call 3), .dead 2] 1 2 768 := by
  obtain ⟨⟨tr, s⟩, hacts⟩ := isSome_iff_exists.mp
    (show (dead3.runActs [.switchkvm 1, .scan 1, .wait 0]).isSome = true by decide +kernel)
  have htrace : (dead3.runActs [.switchkvm 1, .scan 1, .wait 0]).map Prod.fst =
      some [.reaped 1 2 768] := by decide +kernel
  rw [hacts] at htrace
  cases htrace
  exact (exit_status_delivered (run_dead3.append (run_of_acts hacts))).1 _ _ _ _ [] rfl

end System

end Xv6.Sched

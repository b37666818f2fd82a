import Mathlib.Data.Set.Insert
import Xv6.Lib.Monitor

/-!
The sleep locks of `sleeplock.c`: any number of processes and of locks, every
interleaving of the acquisitions of `lk->lk` and `ptable.lock`, with `kill` at
any time. Each lock is its own channel. A program point carries the locks that
the process is inside of, from the return of `acquiresleep` to the call of
`releasesleep`.
-/

namespace Xv6.Sync

open Lib Lib.Monitor Relation Function

/-- `struct sleeplock` without its spin lock; `pid` is 0, here `none`, while the
lock is free. -/
structure Sleeplock (ι : Type*) where
  locked : Bool
  pid : Option ι

/-- Program points, with the set of locks the process was inside of when it made
the call. -/
inductive Pc (ι Λ : Type*) where
  | idle (inside : Set Λ)
  /-- `acquiresleep`: before `acquire(&lk->lk)` -/
  | enter (inside : Set Λ) (l : Λ)
  /-- the test of the loop -/
  | test (inside : Set Λ) (l : Λ)
  /-- before `sleep(lk, &lk->lk)` -/
  | wait (inside : Set Λ) (l : Λ)
  /-- before `release(&lk->lk)` -/
  | entered (inside : Set Λ) (l : Λ)
  /-- `releasesleep`: before `acquire(&lk->lk)` -/
  | exit (inside : Set Λ) (l : Λ)
  /-- before `lk->locked = 0; lk->pid = 0` -/
  | clear (inside : Set Λ) (l : Λ)
  /-- before `wakeup(lk)` -/
  | wake (inside : Set Λ) (l : Λ)
  /-- before `release(&lk->lk)` -/
  | exited (inside : Set Λ) (l : Λ)
  /-- `holdingsleep`: before `acquire(&lk->lk)` -/
  | ask (inside : Set Λ) (l : Λ)
  /-- before `r` is computed -/
  | look (inside : Set Λ) (l : Λ)
  /-- before `release(&lk->lk)`, with `r` -/
  | looked (inside : Set Λ) (l : Λ) (r : Bool)
  /-- before `kill` of a process -/
  | kill (inside : Set Λ) (q : ι)

variable {ι Λ : Type*}

abbrev Locks (ι Λ : Type*) := Λ → Sleeplock ι

/-- What an idle process can call. `releasesleep` is for a lock it is inside of. -/
inductive Callable (inside : Set Λ) : Pc ι Λ → Prop where
  | acquiresleep (l : Λ) : Callable inside (.enter inside l)
  | releasesleep (l : Λ) (hl : l ∈ inside) : Callable inside (.exit inside l)
  | holdingsleep (l : Λ) : Callable inside (.ask inside l)
  | kill (q : ι) : Callable inside (.kill inside q)

section

variable [DecidableEq ι] [DecidableEq Λ]

/-- The test of `acquiresleep` and what follows it under `lk->lk`. -/
def tryLock (p : ι) (inside : Set Λ) (l : Λ) (d : Locks ι Λ) : Locks ι Λ × Pc ι Λ :=
  if (d l).locked then (d, .wait inside l)
  else (update d l ⟨true, some p⟩, .entered inside l)

def unlock (inside : Set Λ) (l : Λ) (d : Locks ι Λ) : Locks ι Λ × Pc ι Λ :=
  (update d l ⟨false, none⟩, .wake (inside \ {l}) l)

def holding (p : ι) (l : Λ) (d : Locks ι Λ) : Bool := (d l).locked && (d l).pid == some p

/-- `sleeplock.c` -/
def sleeplock (p : ι) : Pc ι Λ → Instr ι Λ Λ (Locks ι Λ) (Pc ι Λ)
  | .idle inside => .choose fun _ k => Callable inside k
  | .enter inside l => .acquire l (.test inside l)
  | .test inside l => .act (tryLock p inside l)
  | .wait inside l => .sleep l l (.test inside l)
  | .entered inside l => .release l (.idle (insert l inside))
  | .exit inside l => .acquire l (.clear inside l)
  | .clear inside l => .act (unlock inside l)
  | .wake inside l => .wakeup l (.exited inside l)
  | .exited inside l => .release l (.idle inside)
  | .ask inside l => .acquire l (.look inside l)
  | .look inside l => .act fun d => (d, .looked inside l (holding p l d))
  | .looked inside l _ => .release l (.idle inside)
  | .kill inside q => .kill q (.idle inside)

end

/-- The lock `lk->lk` that is held at a point. -/
def Pc.spin : Pc ι Λ → Option Λ
  | .test _ l | .wait _ l | .entered _ l | .clear _ l | .wake _ l | .exited _ l | .look _ l
  | .looked _ l _ => some l
  | .idle _ | .enter _ _ | .exit _ _ | .ask _ _ | .kill _ _ => none

/-- `wakeup(lk)` is next. -/
def Pc.due : Pc ι Λ → Λ → Prop
  | .wake _ l, c => c = l
  | _, _ => False

theorem disciplined [DecidableEq ι] [DecidableEq Λ] :
    Disciplined (sleeplock (ι := ι) (Λ := Λ)) Pc.spin where
  acquire p pc m k h := by cases pc <;> cases h <;> exact ⟨rfl, rfl⟩
  release p pc m k h := by cases pc <;> cases h <;> exact ⟨rfl, rfl⟩
  act p pc f h d := by
    cases pc <;> cases h
    case test inside l =>
      unfold tryLock
      split <;> rfl
    all_goals rfl
  choose p pc allowed h d k hk := by
    cases pc <;> cases h
    cases hk <;> rfl
  sleep p pc c m k h := by
    cases pc <;> cases h
    exact ⟨rfl, rfl⟩
  wakeup p pc c k h := by
    cases pc <;> cases h
    rfl
  kill p pc q k h := by
    cases pc <;> cases h
    rfl

theorem signals [DecidableEq ι] [DecidableEq Λ] :
    Signals (sleeplock (ι := ι) (Λ := Λ)) Pc.spin id Pc.due where
  wakeup p pc c k h := by
    cases pc <;> cases h
    rfl
  due pc c h p := by
    cases pc
    case wake inside l =>
      cases h
      exact ⟨_, rfl⟩
    all_goals exact h.elim

/-- The locks a process is inside of, from the return of `acquiresleep` to the
call of `releasesleep`. -/
def Pc.inside : Pc ι Λ → Set Λ
  | .exit i l | .clear i l => i \ {l}
  | .idle i | .enter i _ | .test i _ | .wait i _ | .entered i _ | .wake i _ | .exited i _ | .ask i _
  | .look i _ | .looked i _ _ | .kill i _ => i

/-- The locks that a process has taken and not yet given back. -/
def Pc.owns : Pc ι Λ → Set Λ
  | .entered i l | .exit i l | .clear i l => insert l i
  | .idle i | .enter i _ | .test i _ | .wait i _ | .wake i _ | .exited i _ | .ask i _ | .look i _
  | .looked i _ _ | .kill i _ => i

theorem Pc.inside_subset (pc : Pc ι Λ) : pc.inside ⊆ pc.owns := by
  cases pc with
  | entered i l => exact Set.subset_insert l i
  | exit i l | clear i l => exact fun _ h => Set.mem_insert_of_mem l h.1
  | _ => exact subset_rfl

/-- A lock that a process owns is taken in its name, and one it is about to
sleep for is taken. -/
structure Owned (d : Locks ι Λ) (pts : ι → Pc ι Λ) : Prop where
  owns : ∀ p l, l ∈ (pts p).owns → d l = ⟨true, some p⟩
  wait : ∀ p i l, pts p = .wait i l → (d l).locked = true

theorem callable_owns {i : Set Λ} {k : Pc ι Λ} (h : Callable i k) : k.owns = i := by
  cases h with
  | acquiresleep l => rfl
  | releasesleep l hl => exact Set.insert_eq_of_mem hl
  | holdingsleep l => rfl
  | kill q => rfl

theorem callable_ne_wait {i i' : Set Λ} {l : Λ} {k : Pc ι Λ} (h : Callable i k) :
    k ≠ .wait i' l := by
  cases h <;> nofun

theorem Owned.goto [DecidableEq ι] {d : Locks ι Λ} {pts : ι → Pc ι Λ} (h : Owned d pts)
    {p : ι} {k : Pc ι Λ}
    (howns : k.owns ⊆ (pts p).owns) (hwait : ∀ i l, k = .wait i l → (d l).locked = true) :
    Owned d (update pts p k) where
  owns q l hl := by
    by_cases hq : q = p
    · subst hq
      rw [update_self] at hl
      exact h.owns q l (howns hl)
    · rw [update_of_ne hq] at hl
      exact h.owns q l hl
  wait q i l hl := by
    by_cases hq : q = p
    · subst hq
      rw [update_self] at hl
      exact hwait i l hl
    · rw [update_of_ne hq] at hl
      exact h.wait q i l hl

/-- The holder of `lk->lk` writes the lock: `l` is owned by nobody else, and
nobody else is about to sleep for it. -/
theorem Owned.set [DecidableEq ι] [DecidableEq Λ] {d : Locks ι Λ} {pts : ι → Pc ι Λ}
    (h : Owned d pts) {p : ι} {k : Pc ι Λ} {l : Λ}
    {x : Sleeplock ι} (hfree : ∀ q, q ≠ p → l ∉ (pts q).owns)
    (hnowait : ∀ q i, q ≠ p → pts q ≠ .wait i l)
    (howns : ∀ l' ∈ k.owns, if l' = l then x = ⟨true, some p⟩ else l' ∈ (pts p).owns)
    (hwait : ∀ i l', k ≠ .wait i l') :
    Owned (update d l x) (update pts p k) where
  owns q l' hl := by
    by_cases hq : q = p
    · subst hq
      rw [update_self] at hl
      have hl' := howns l' hl
      split at hl'
      · next heq => rw [heq, update_self, hl']
      · next hne =>
        rw [update_of_ne hne]
        exact h.owns q l' hl'
    · rw [update_of_ne hq] at hl
      have hne : l' ≠ l := by
        rintro rfl
        exact hfree q hq hl
      rw [update_of_ne hne]
      exact h.owns q l' hl
  wait q i l' hl := by
    by_cases hq : q = p
    · subst hq
      rw [update_self] at hl
      exact absurd hl (hwait i l')
    · rw [update_of_ne hq] at hl
      have hne : l' ≠ l := by
        rintro rfl
        exact hnowait q i hq hl
      rw [update_of_ne hne]
      exact h.wait q i l' hl

abbrev SleeplockState (ι Λ : Type*) := State ι Λ Λ (Locks ι Λ) (Pc ι Λ)

section

variable [DecidableEq ι] [DecidableEq Λ]

/-- Only one process stands at a point where `lk->lk` is held; a process about
to sleep is at such a point. -/
theorem not_wait_of_spin {s : SleeplockState ι Λ} (h : Locked sleeplock Pc.spin s) {p q : ι} {l : Λ}
    (hp : (s.thread p).mode.holds Pc.spin = some l) (hq : q ≠ p) (i : Set Λ) :
    s.points q ≠ .wait i l := by
  intro hpoint
  refine hq (h.eq_of_points hp (by rw [hpoint]; rfl) fun pc c m hi => ?_)
  rw [hpoint] at hi
  cases pc <;> cases hi

theorem Owned.step {s : SleeplockState ι Λ} {p : ι} {pc k : Pc ι Λ} {d : Locks ι Λ}
    (hlocked : Locked sleeplock Pc.spin s) (h : Owned s.data s.points)
    (hmode : (s.thread p).mode = .run pc) (hgoes : Goes s.data (sleeplock p pc) d k) :
    Owned d (update s.points p k) := by
  have hpoint : s.points p = pc := congrArg Mode.point hmode
  cases pc with
  | test i l =>
    cases hgoes
    unfold tryLock
    split
    · next htaken =>
      refine h.goto (by rw [hpoint]; rfl) fun i' l' hk => ?_
      cases hk
      exact htaken
    · next hfree =>
      have hspin : (s.thread p).mode.holds Pc.spin = some l := by
        rw [hmode]
        rfl
      refine h.set (fun q hq hl => hfree (by rw [h.owns q l hl]))
        (fun q i' hq => not_wait_of_spin hlocked hspin hq i') (fun l' hl' => ?_) nofun
      split
      · rfl
      · next hne =>
        rw [hpoint]
        exact (Set.mem_insert_iff.mp hl').resolve_left hne
  | clear i l =>
    cases hgoes
    have hspin : (s.thread p).mode.holds Pc.spin = some l := by
      rw [hmode]
      rfl
    have hown : s.data l = ⟨true, some p⟩ := by
      refine h.owns p l ?_
      rw [hpoint]
      exact Set.mem_insert l i
    refine h.set (fun q hq hl => ?_) (fun q i' hq => not_wait_of_spin hlocked hspin hq i')
      (fun l' hl' => ?_) nofun
    · rw [h.owns q l hl, Sleeplock.mk.injEq, Option.some.injEq] at hown
      exact hq hown.2
    · rw [if_neg (show l' ≠ l from hl'.2), hpoint]
      exact Set.mem_insert_of_mem l hl'.1
  | idle i =>
    cases hgoes with
    | choose hk =>
      refine h.goto ?_ fun i' l hl => absurd hl (callable_ne_wait hk)
      rw [callable_owns hk, hpoint]
      exact subset_rfl
  | _ =>
    cases hgoes
    exact h.goto (by rw [hpoint]; exact subset_rfl) nofun

/-- A lock ends to be taken where its `wakeup` is next. -/
theorem wakes {s : SleeplockState ι Λ} (h : Owned s.data s.points) :
    Wakes sleeplock (fun l d => (d l).locked = true) Pc.due s where
  sleep p pc c m k hmode hi := by
    cases pc <;> cases hi
    exact h.wait p _ _ (congrArg Mode.point hmode)
  act p pc f c hmode hi hc := by
    cases pc <;> cases hi
    case test i l =>
      unfold tryLock
      split
      · exact .inl hc
      · by_cases hcl : c = l
        · simp [hcl]
        · exact .inl (by simpa [hcl] using hc)
    case clear i l =>
      by_cases hcl : c = l
      · exact .inr hcl
      · exact .inl (by simpa [unlock, hcl] using hc)
    case look i l => exact .inl hc

/-- All locks free and every process outside. -/
def sleeplockInit (ι Λ : Type*) : SleeplockState ι Λ := State.start (fun _ => ⟨false, none⟩)
    (.idle ∅)

/-- Process `p` is between `acquiresleep` and `releasesleep` of `l`. -/
def Inside (s : SleeplockState ι Λ) (p : ι) (l : Λ) : Prop := l ∈ (s.points p).inside

/-- Mutual exclusion, and nobody sleeps for a lock that is free. -/
theorem sleeplock_correct {s : SleeplockState ι Λ}
    (hrun : ReflTransGen (State.Step sleeplock) (sleeplockInit ι Λ) s) (l : Λ) :
    (∀ p q, Inside s p l → Inside s q l → p = q) ∧
      (s.lock l = none → s.ptable = none → (s.data l).locked = false → ∀ p, ¬ s.SleepsOn p l) := by
  obtain ⟨hlocked, howned, hnoloss⟩ := noLoss_of_run disciplined signals Owned
    (fun _ _ h => wakes h) (fun _ _ _ _ _ => Owned.step) rfl
    ⟨fun _ _ h => absurd h (Set.notMem_empty _), nofun⟩ hrun
  constructor
  · intro p q hp hq
    have hp' := howned.owns p l ((s.points p).inside_subset hp)
    have hq' := howned.owns q l ((s.points q).inside_subset hq)
    rw [hp', Sleeplock.mk.injEq, Option.some.injEq] at hq'
    exact hq'.2
  · intro hfree _ hunlocked p hsleeps
    have htaken := hnoloss.reason signals hlocked hfree hsleeps
    rw [hunlocked] at htaken
    cases htaken

/-- Of two processes the first has taken a lock. -/
theorem sleeplock_correct_first : ∃ s : SleeplockState (Fin 2) Unit,
    ReflTransGen (State.Step sleeplock) (sleeplockInit (Fin 2) Unit) s ∧ Inside s 0 () ∧
      ∀ q, Inside s q () → q = 0 := by
  have hrun : ReflTransGen (State.Step sleeplock) (sleeplockInit (Fin 2) Unit) _ :=
    .head ⟨0, .choose rfl rfl (.acquiresleep ())⟩ (.head ⟨0, .acquire rfl rfl rfl⟩
      (.head ⟨0, .act rfl rfl⟩ (.single ⟨0, .release rfl rfl⟩)))
  refine ⟨_, hrun, Set.mem_insert () ∅, fun q hq => ?_⟩
  exact (sleeplock_correct hrun ()).1 q 0 hq (Set.mem_insert () ∅)

end

end Xv6.Sync

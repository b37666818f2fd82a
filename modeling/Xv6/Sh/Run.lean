import Mathlib.Data.List.Induction
import Xv6.Sh.Print

/-!
Running the redirections of a command. `parseredirs` wraps every redirection around the
command and those before it, and `runcmd` goes through the tree from outside, so the
redirections are done from the last one to the first.
-/

namespace Xv6.Sh

open Lib Function List Option

variable {σ φ : Type}

/-- `ofile` of the process. -/
abbrev Fds (φ : Type) := Fin NOFILE → Option φ

def stdin : Fin NOFILE := ⟨0, by decide⟩

def stdout : Fin NOFILE := ⟨1, by decide⟩

def fdalloc (fds : Fds φ) (f : φ) : Option (Fin NOFILE × Fds φ) :=
  match (List.finRange NOFILE).find? fun fd => (fds fd).isNone with
  | none => none
  | some fd => some (fd, update fds fd (some f))

/-- `close(fd)`, also where `fd` is not open. -/
def close (fds : Fds φ) (fd : Nat) : Fds φ := fun i => if i.val = fd then none else fds i

/-- `open`. The file of a path and mode is what `namei` or `create` give. -/
def sysOpen (find : σ → Nat → Option φ) (fds : Fds φ) (path : σ) (omode : Nat) :
    Option (Fds φ) := do
  let f ← find path omode
  let (_, fds) ← fdalloc fds f
  some fds

/-- The descriptors at the `n`-th nested call of `runcmd`, the calls up to there being those
for redirections. -/
def runcmd (find : σ → Nat → Option φ) : Nat → Cmd σ → Fds φ → Option (Cmd σ × Fds φ)
  | 0, cmd, fds => some (cmd, fds)
  | n + 1, .redir cmd r, fds => do
      -- exit(0) when the file is not opened
      let fds ← sysOpen find (close fds r.fd) r.file r.mode
      runcmd find n cmd fds
  | _ + 1, _, _ => none

def Redir.opened (find : σ → Nat → Option φ) (r : Redir σ) : Option φ := find r.file r.mode

/-- The redirections of a descriptor, in the order in which they are written. -/
def redirsOf (rs : List (Redir σ)) (fd : Nat) : List (Redir σ) := rs.filter (·.fd = fd)

/-- Every descriptor on the file of its first redirection. -/
def onFirst (find : σ → Nat → Option φ) (rs : List (Redir σ)) (fds : Fds φ) : Fds φ := fun i =>
  match (redirsOf rs i).head? with
  | none => fds i
  | some r => r.opened find

/-- Every descriptor on the file of its last redirection. -/
def onLast (find : σ → Nat → Option φ) (rs : List (Redir σ)) (fds : Fds φ) : Fds φ := fun i =>
  match (redirsOf rs i).getLast? with
  | none => fds i
  | some r => r.opened find

/-- The tokens of a command with its redirections. -/
inductive Redirected : List Lexeme → Tree → List (Redir (List UInt8)) → Prop where
  | exec {ts ts' args rs rs'} (hredirs : Redirs ts rs) (hwords : Words ts' args rs')
      (hargs : args.length ≤ MAXARGS - 1) : Redirected (ts ++ ts') (.exec args) (rs ++ rs')
  | block {ts ts' c rs} (h : Derives .line ts c) (hredirs : Redirs ts' rs) :
      Redirected (.lparen :: (ts ++ .rparen :: ts')) c rs

theorem Derives.redirected {ts : List Lexeme} {t : Tree} (h : Derives .exec ts t) :
    ∃ cmd rs, Redirected ts cmd rs ∧ t = cmd.wrap rs := by
  cases h with
  | exec hredirs hwords hargs => exact ⟨_, _, Redirected.exec hredirs hwords hargs, rfl⟩
  | execBlock h =>
    cases h with
    | block hline hredirs => exact ⟨_, _, Redirected.block hline hredirs, rfl⟩

theorem Redirected.written {ts : List Lexeme} {cmd : Tree} {rs : List (Redir (List UInt8))}
    (h : Redirected ts cmd rs) : ∀ r ∈ rs, r.Written := by
  cases h with
  | exec hredirs hwords =>
    intro r hr
    rcases mem_append.mp hr with hr | hr
    · exact hredirs.written r hr
    · exact hwords.written r hr
  | block _ hredirs => exact hredirs.written

section

variable {find : σ → Nat → Option φ} {fds : Fds φ} {r : Redir σ} {f : φ}

theorem Redir.Written.fd_eq (h : r.Written) : r.fd = 0 ∨ r.fd = 1 := by
  rcases h with ⟨_, h⟩ | ⟨_, h⟩
  · exact .inl h
  · exact .inr h

theorem fdalloc_closed (h0 : (fds stdin).isSome) {fd : Fin NOFILE}
    (hfd : fd = stdin ∨ fd = stdout) (f : φ) :
    fdalloc (close fds fd) f = some (fd, update (close fds fd) fd (some f)) := by
  have hsearch : (List.finRange NOFILE).find? (fun i => (close fds fd i).isNone) = some fd := by
    have hrange : List.finRange NOFILE =
        stdin :: stdout :: (List.finRange NOFILE).drop 2 := by decide
    rw [hrange]
    rcases hfd with rfl | rfl
    · rfl
    · rw [List.find?_cons_of_neg, List.find?_cons_of_pos]
      · rfl
      · change ¬ (fds stdin).isNone
        rw [isNone_iff_eq_none]
        intro hnone
        rw [hnone] at h0
        cases h0
  unfold fdalloc
  rw [hsearch]

theorem sysOpen_closed (h0 : (fds stdin).isSome) {fd : Fin NOFILE} (hfd : fd = stdin ∨ fd = stdout)
    {path : σ} {omode : Nat} (hf : find path omode = some f) :
    sysOpen find (close fds fd) path omode = some (update fds fd (some f)) := by
  have hfds : update (close fds fd) fd (some f) = update fds fd (some f) := by
    funext i
    by_cases hi : i = fd
    · rw [hi, update_self, update_self]
    · rw [update_of_ne hi, update_of_ne hi]
      exact if_neg fun heq => hi (Fin.ext heq)
  unfold sysOpen
  rw [hf, bind_eq_bind, bind_some, fdalloc_closed h0 hfd]
  exact congrArg some hfds

theorem wrap_concat (cmd : Cmd σ) (rs : List (Redir σ)) (r : Redir σ) :
    cmd.wrap (rs ++ [r]) = .redir (cmd.wrap rs) r := by
  unfold Cmd.wrap
  rw [foldl_append]
  rfl

/-- What the last redirection does first is lost if there is another one before it. -/
theorem onFirst_concat (rs : List (Redir σ)) {fd : Fin NOFILE} (hfd : r.fd = fd)
    (hf : r.opened find = some f) :
    onFirst find rs (update fds fd (some f)) = onFirst find (rs ++ [r]) fds := by
  funext i
  unfold onFirst redirsOf
  rw [filter_append, List.head?_append]
  cases (rs.filter (·.fd = i.val)).head? with
  | some r' => rfl
  | none =>
    by_cases hi : i = fd
    · have heq : decide (r.fd = i.val) = true := by rw [hfd, hi, decide_eq_true_eq]
      rw [filter_cons_of_pos (a := r) (l := []) heq, hi]
      exact (update_self fd (some f) fds).trans hf.symm
    · have hne : ¬ decide (r.fd = i.val) = true := by
        rw [decide_eq_true_eq, hfd]
        exact fun heq => hi (Fin.ext heq.symm)
      rw [filter_cons_of_neg (a := r) (l := []) hne]
      exact update_of_ne hi (some f) fds

theorem runcmd_wrap (h0 : (fds stdin).isSome) (cmd : Cmd σ) {rs : List (Redir σ)}
    (hrs : ∀ r ∈ rs, r.Written) (hopen : ∀ r ∈ rs, (r.opened find).isSome) :
    runcmd find rs.length (cmd.wrap rs) fds = some (cmd, onFirst find rs fds) := by
  -- from the last redirection, which is the outermost node
  induction rs using List.reverseRecOn generalizing fds with
  | nil => rfl
  | append_singleton rs r ih =>
    have hr : r ∈ rs ++ [r] := mem_append_right _ mem_cons_self
    have hfd := (hrs r hr).fd_eq
    have hlt : r.fd < NOFILE := by
      rcases hfd with hfd | hfd <;> rw [hfd] <;> decide
    obtain ⟨f, hf⟩ := isSome_iff_exists.mp (hopen r hr)
    have hstep : sysOpen find (close fds r.fd) r.file r.mode =
        some (update fds ⟨r.fd, hlt⟩ (some f)) := by
      have hstd : (⟨r.fd, hlt⟩ : Fin NOFILE) = stdin ∨ ⟨r.fd, hlt⟩ = stdout := by
        rcases hfd with hfd | hfd
        · exact .inl (Fin.ext hfd)
        · exact .inr (Fin.ext hfd)
      exact sysOpen_closed h0 hstd hf
    have h0' : (update fds ⟨r.fd, hlt⟩ (some f) stdin).isSome := by
      rw [update_apply]
      split
      · rfl
      · exact h0
    rw [wrap_concat, length_append, length_singleton, runcmd, hstep, bind_eq_bind, bind_some,
      ih h0' (fun r' hr' => hrs r' (mem_append_left _ hr'))
        (fun r' hr' => hopen r' (mem_append_left _ hr')),
      onFirst_concat rs rfl hf]

/-- The redirections around a simple command can be read back from the tree. -/
theorem wrap_exec_inj {args args' : List σ} {rs rs' : List (Redir σ)}
    (h : (Cmd.exec args).wrap rs = (Cmd.exec args').wrap rs') : args = args' ∧ rs = rs' := by
  induction rs using List.reverseRecOn generalizing rs' with
  | nil =>
    cases rs' using List.reverseRecOn with
    | nil =>
      cases h
      exact ⟨rfl, rfl⟩
    | append_singleton rs' r' =>
      rw [wrap_concat] at h
      cases h
  | append_singleton rs r ih =>
    cases rs' using List.reverseRecOn with
    | nil =>
      rw [wrap_concat] at h
      cases h
    | append_singleton rs' r' =>
      rw [wrap_concat, wrap_concat] at h
      injection h with hwrap hr
      obtain ⟨hargs, hrs⟩ := ih hwrap
      exact ⟨hargs, by rw [hrs, hr]⟩

theorem redirsOf_of_written {rs : List (Redir σ)} (hrs : ∀ r ∈ rs, r.Written) {fd : Nat}
    (hfd : 2 ≤ fd) : redirsOf rs fd = [] := by
  apply filter_eq_nil_iff.mpr
  intro r hr
  have := (hrs r hr).fd_eq
  rw [decide_eq_true_eq]
  omega

theorem onFirst_eq_onLast_at {rs : List (Redir σ)} (i : Fin NOFILE) :
    onFirst find rs fds i = onLast find rs fds i ↔ ((redirsOf rs i).map (Redir.opened find)).head? =
        ((redirsOf rs i).map (Redir.opened find)).getLast? := by
  unfold onFirst onLast
  rw [List.head?_map, List.getLast?_map]
  cases hrs : redirsOf rs i with
  | nil => simp
  | cons r rest => simp [List.getLast?_cons]

end

/-- The redirections of a command take effect in the written order exactly where the first
and the last redirection of standard input, and those of standard output, are to the same
file: it is the first one that stays. -/
theorem redirections_last_iff {n : Nat} {s s' : Ptr} {t : Cmd Span}
    (hparse : parseexec n s = .ok (t, s')) (find : List UInt8 → Nat → Option φ) (fds : Fds φ)
    (h0 : (fds stdin).isSome) :
    ∃ ts cmd rs, tokens s = ts ++ tokens s' ∧ Redirected ts cmd rs ∧ t.text = cmd.wrap rs ∧
      ((∀ r ∈ rs, (r.opened find).isSome) →
        ∃ fds', runcmd find rs.length t.text fds = some (cmd, fds') ∧ (fds' = onLast find rs fds ↔
            ∀ fd, fd = 0 ∨ fd = 1 → ((redirsOf rs fd).map (Redir.opened find)).head? =
                ((redirsOf rs fd).map (Redir.opened find)).getLast?)) := by
  obtain ⟨ts, hts, hparsed⟩ := parse_sound n .exec _ _ _ hparse
  obtain ⟨cmd, rs, hredirected, htext⟩ := hts.redirected
  refine ⟨ts, cmd, rs, hparsed.tokens, hredirected, htext, fun hopen => ?_⟩
  have hwritten := hredirected.written
  refine ⟨_, by rw [htext]; exact runcmd_wrap h0 cmd hwritten hopen, ?_⟩
  constructor
  · rintro heq fd hfd
    have hlt : fd < NOFILE := by
      rcases hfd with rfl | rfl <;> decide
    exact (onFirst_eq_onLast_at ⟨fd, hlt⟩).mp (congrFun heq _)
  · intro hsame
    funext i
    rw [onFirst_eq_onLast_at]
    by_cases hi : i.val < 2
    · exact hsame i (by omega)
    · rw [redirsOf_of_written hwritten (by omega)]
      rfl

/-- `c<a>b` reads from `a` and writes to `b`. -/
theorem redirections_last_both :
    ∃ t, parseexec 8 [99, 60, 97, 62, 98] = .ok (t, []) ∧
      runcmd (fun path _ => some path) 2 t.text (fun _ => some []) = some (.exec [[99]],
        onLast (fun path _ => some path) [⟨[97], 0, 0⟩, ⟨[98], 513, 1⟩] fun _ => some []) := by
  refine ⟨_, rfl, ?_⟩
  obtain ⟨ts, cmd, rs, hts, hredirected, htext, hrun⟩ :=
    redirections_last_iff (n := 8) (s := [99, 60, 97, 62, 98]) rfl (fun path _ => some path)
      (fun _ => some []) rfl
  have hexec : ∃ args, cmd = .exec args := by
    cases hredirected with
    | exec => exact ⟨_, rfl⟩
    | block =>
      have hword : (gettoken [99, 60, 97, 62, 98]).lexeme = some (.word [99]) := rfl
      cases hword.symm.trans (tokens_cons hts).1
  obtain ⟨args, rfl⟩ := hexec
  obtain ⟨rfl, rfl⟩ := wrap_exec_inj (htext.symm.trans
    (show _ = Cmd.wrap (.exec [[99]]) [⟨[97], 0, 0⟩, ⟨[98], 513, 1⟩] from rfl))
  obtain ⟨fds', hfds', hiff⟩ := hrun fun _ _ => rfl
  have hlast := hiff.mpr (by rintro _ (rfl | rfl) <;> rfl)
  rw [hlast] at hfds'
  exact hfds'

/-- `c>a>b` writes to `a`. -/
theorem redirections_first : ∃ t, parseexec 8 [99, 62, 97, 62, 98] = .ok (t, []) ∧
      t.text = Cmd.wrap (.exec [[99]]) [⟨[97], 513, 1⟩, ⟨[98], 513, 1⟩] ∧
      (runcmd (fun path _ => some path) 2 t.text (fun _ => some [])).map
        (fun state => (state.1, state.2 stdout)) = some (.exec [[99]], some [97]) ∧
      onLast (fun path _ => some path) [⟨[97], 513, 1⟩, ⟨[98], 513, 1⟩] (fun _ => some []) stdout =
        some [98] := by
  refine ⟨_, rfl, rfl, rfl, rfl⟩

end Xv6.Sh

import Os132.Shell.Words

/-!
# Descriptors of commands

`runcmd` on a tree: the processes it forks, with their tables of descriptors, up to the `EXEC` branch. It closes a
descriptor and relies on the next `open` or `dup` to take the same place, and it closes the ends of a pipe once for
each process that has them. `plan` says what a tree means in terms of standard input, output and error only, and
`runcmd_plumbs` that both agree: no process runs or waits with a descriptor besides these three, so that the reader of
a pipe sees its end when the writers are gone.
-/

namespace Os132.Shell

namespace Plumbing

def NOFILE : ℕ := 16

/-- An open file: what the shell was started with, a file that was opened, or an end of the pipe that the command at
this position of the tree has made. -/
inductive File (W : Type) where
  | inherited (fd : ℕ)
  | named (file : W) (mode : ℕ)
  | readEnd (pipe : List Bool)
  | writeEnd (pipe : List Bool)

/-- `proc->ofile` -/
abbrev Table (W : Type) := ℕ → Option (File W)

/-- What `open`, `pipe` and `fork` come to at each position. -/
structure Env (W : Type) where
  opens : List Bool → W → ℕ → Bool
  pipes : List Bool → Bool
  forks : List Bool → Bool

/-- A process up to its end. Where it executes a program or waits, `q` is the position of the command and `fds` what the
process has open. -/
inductive Run (W τ : Type) where
  | exit
  | panic
  | exec (q : List Bool) (argv : List W) (fds : τ)
  | fork (child rest : Run W τ)
  | wait (q : List Bool) (fds : τ) (rest : Run W τ)

def Run.map {W τ υ : Type} (f : τ → υ) : Run W τ → Run W υ
  | .exit => .exit
  | .panic => .panic
  | .exec q argv fds => .exec q argv (f fds)
  | .fork child rest => .fork (child.map f) (rest.map f)
  | .wait q fds rest => .wait q (f fds) (rest.map f)

/-- What the processes of a run have open when they execute programs and wait. -/
def Run.tables {W τ : Type} : Run W τ → List (List Bool × τ)
  | .exit => []
  | .panic => []
  | .exec q _ fds => [(q, fds)]
  | .fork child rest => child.tables ++ rest.tables
  | .wait q fds rest => (q, fds) :: rest.tables

variable {W : Type}

namespace Table

def close (t : Table W) (fd : ℕ) : Table W := Function.update t fd none

/-- `fdalloc` takes the lowest free descriptor. -/
def fdalloc (t : Table W) (f : File W) : Option (ℕ × Table W) :=
  ((List.range NOFILE).find? fun fd => (t fd).isNone).map fun fd => (fd, Function.update t fd (some f))

/-- The descriptor that `dup` returns is not looked at. -/
def dup (t : Table W) (fd : ℕ) : Table W :=
  match (t fd).bind t.fdalloc with
  | some r => r.2
  | none => t

/-- The two descriptors of a new pipe. -/
def pipe (t : Table W) (q : List Bool) : Option (ℕ × ℕ × Table W) :=
  (t.fdalloc (.readEnd q)).bind fun r => (r.2.fdalloc (.writeEnd q)).map fun w => (r.1, w.1, w.2)

end Table

/-- `runcmd` at a position of the tree; `fork1` panics where `fork` fails. -/
def runcmd (env : Env W) : List Bool → Cmd W → Table W → Run W (Table W)
  | _, .exec [], _ => .exit
  | q, .exec (w :: argv), t => .exec q (w :: argv) t
  | q, .redir cmd file mode fd, t =>
    match if env.opens q file mode then (t.close fd).fdalloc (.named file mode) else none with
    | some r => runcmd env (true :: q) cmd r.2
    | none => .exit
  | q, .list left right, t =>
    if env.forks (true :: q) then .fork (runcmd env (true :: q) left t) (.wait q t (runcmd env (false :: q) right t)) else .panic
  | q, .pipe left right, t =>
    match if env.pipes q then t.pipe q else none with
    | none => .panic
    | some (p0, p1, t) =>
      if env.forks (true :: q) then
        .fork (runcmd env (true :: q) left ((((t.close 1).dup p1).close p0).close p1))
          (if env.forks (false :: q) then
            .fork (runcmd env (false :: q) right ((((t.close 0).dup p0).close p0).close p1))
              (.wait q ((t.close p0).close p1) (.wait q ((t.close p0).close p1) .exit))
          else .panic)
      else .panic
  | q, .back cmd, t => if env.forks (true :: q) then .fork (runcmd env (true :: q) cmd t) .exit else .panic

/-! ### What a tree means -/

structure Stdio (W : Type) where
  input : File W
  output : File W
  error : File W

namespace Stdio

def table (io : Stdio W) : Table W
  | 0 => some io.input
  | 1 => some io.output
  | 2 => some io.error
  | _ => none

def set (io : Stdio W) (fd : ℕ) (f : File W) : Stdio W :=
  match fd with
  | 0 => { io with input := f }
  | 1 => { io with output := f }
  | _ => { io with error := f }

def Has (io : Stdio W) (f : File W) : Prop := io.input = f ∨ io.output = f ∨ io.error = f

end Stdio

/-- The shell's own descriptors. -/
def shell : Stdio W := ⟨.inherited 0, .inherited 1, .inherited 2⟩

def plan (env : Env W) : List Bool → Cmd W → Stdio W → Run W (Stdio W)
  | _, .exec [], _ => .exit
  | q, .exec (w :: argv), io => .exec q (w :: argv) io
  | q, .redir cmd file mode fd, io => if env.opens q file mode then plan env (true :: q) cmd (io.set fd (.named file mode)) else .exit
  | q, .list left right, io =>
    if env.forks (true :: q) then .fork (plan env (true :: q) left io) (.wait q io (plan env (false :: q) right io)) else .panic
  | q, .pipe left right, io =>
    if env.pipes q ∧ env.forks (true :: q) then
      .fork (plan env (true :: q) left { io with output := .writeEnd q })
        (if env.forks (false :: q) then
          .fork (plan env (false :: q) right { io with input := .readEnd q }) (.wait q io (.wait q io .exit))
        else .panic)
    else .panic
  | q, .back cmd, io => if env.forks (true :: q) then .fork (plan env (true :: q) cmd io) .exit else .panic

/-- Redirections are of the three standard descriptors. -/
def Standard : Cmd W → Prop
  | .exec _ => True
  | .redir cmd _ _ fd => fd ≤ 2 ∧ Standard cmd
  | .pipe left right => Standard left ∧ Standard right
  | .list left right => Standard left ∧ Standard right
  | .back cmd => Standard cmd

variable {env : Env W} {io : Stdio W} {q : List Bool} {f : File W} {cmd : Cmd W} {fd : ℕ}

lemma table_ext {t u : Table W} (h0 : t 0 = u 0) (h1 : t 1 = u 1) (h2 : t 2 = u 2) (h3 : t 3 = u 3) (h4 : t 4 = u 4)
    (h : ∀ fd, 5 ≤ fd → t fd = u fd) : t = u := by
  funext fd
  match fd with
  | 0 => exact h0
  | 1 => exact h1
  | 2 => exact h2
  | 3 => exact h3
  | 4 => exact h4
  | fd + 5 => exact h _ (by omega)

/-- The descriptor that was closed is the one that is taken. -/
lemma fdalloc_closed (hfd : fd ≤ 2) : (io.table.close fd).fdalloc f = some (fd, (io.set fd f).table) := by
  have htable : Function.update (Table.close io.table fd) fd (some f) = (io.set fd f).table := by
    obtain rfl | rfl | rfl : fd = 0 ∨ fd = 1 ∨ fd = 2 := by omega
    all_goals
      refine table_ext rfl rfl rfl rfl rfl fun n hn => ?_
      match n, hn with
      | n + 5, _ => rfl
  have hfind : (List.range NOFILE).find? (fun n => (Table.close io.table fd n).isNone) = some fd := by
    obtain rfl | rfl | rfl : fd = 0 ∨ fd = 1 ∨ fd = 2 := by omega
    all_goals rfl
  rw [Table.fdalloc, hfind, Option.map_some, htable]

/-- The table with a pipe at the lowest free descriptors. -/
def withPipe (io : Stdio W) (q : List Bool) : Table W :=
  Function.update (Function.update io.table 3 (some (.readEnd q))) 4 (some (.writeEnd q))

lemma pipe_table : io.table.pipe q = some (3, 4, withPipe io q) := rfl

lemma close_pipe : ((withPipe io q).close 3).close 4 = io.table := by
  refine table_ext rfl rfl rfl rfl rfl fun n hn => ?_
  match n, hn with
  | n + 5, _ => rfl

lemma left_pipe : ((((withPipe io q).close 1).dup 4).close 3).close 4 = Stdio.table { io with output := .writeEnd q } := by
  refine table_ext rfl rfl rfl rfl rfl fun n hn => ?_
  match n, hn with
  | n + 5, _ => rfl

lemma right_pipe : ((((withPipe io q).close 0).dup 3).close 3).close 4 = Stdio.table { io with input := .readEnd q } := by
  refine table_ext rfl rfl rfl rfl rfl fun n hn => ?_
  match n, hn with
  | n + 5, _ => rfl

/-- The descriptors of the processes are those that the tree means, and nothing else is open. -/
lemma runcmd_plumbs (h : Standard cmd) : runcmd env q cmd io.table = (plan env q cmd io).map Stdio.table := by
  induction cmd generalizing q io with
  | exec argv => cases argv <;> rfl
  | redir cmd file mode fd ih =>
    rw [runcmd, plan]
    by_cases ho : env.opens q file mode = true
    · rw [if_pos ho, if_pos ho, fdalloc_closed h.1]
      exact ih h.2
    · rw [if_neg ho, if_neg ho]
      rfl
  | list left right ihl ihr =>
    rw [runcmd, plan]
    split_ifs
    · rw [ihl h.1, ihr h.2]
      rfl
    · rfl
  | back cmd ih =>
    rw [runcmd, plan]
    split_ifs
    · rw [ih h]
      rfl
    · rfl
  | pipe left right ihl ihr =>
    rw [runcmd, plan]
    by_cases hp : env.pipes q = true
    · rw [if_pos hp, pipe_table]
      dsimp only
      rw [close_pipe, left_pipe, right_pipe, ihl h.1, ihr h.2]
      split_ifs <;> first
        | rfl
        | simp_all
    · rw [if_neg hp, if_neg fun hc => hp hc.1]
      rfl

/-! ### The ends of pipes -/

variable {q' p : List Bool} {io' : Stdio W} {b : Bool}

/-- Commands run below their position. -/
lemma plan_position (h : (q', io') ∈ (plan env q cmd io).tables) : q <:+ q' := by
  induction cmd generalizing q io with
  | exec argv =>
    cases argv with
    | nil => simp [plan, Run.tables] at h
    | cons w argv =>
      obtain ⟨rfl, -⟩ : q' = q ∧ io' = io := by simpa [plan, Run.tables] using h
      exact List.suffix_rfl
  | redir cmd file mode fd ih =>
    rw [plan] at h
    split_ifs at h
    · exact (List.suffix_cons _ _).trans (ih h)
    · simp [Run.tables] at h
  | list left right ihl ihr =>
    rw [plan] at h
    split_ifs at h
    · simp only [Run.tables, List.mem_append, List.mem_cons, Prod.mk.injEq] at h
      rcases h with h | ⟨rfl, -⟩ | h
      · exact (List.suffix_cons _ _).trans (ihl h)
      · exact List.suffix_rfl
      · exact (List.suffix_cons _ _).trans (ihr h)
    · simp [Run.tables] at h
  | back cmd ih =>
    rw [plan] at h
    split_ifs at h
    · simp only [Run.tables, List.append_nil] at h
      exact (List.suffix_cons _ _).trans (ih h)
    · simp [Run.tables] at h
  | pipe left right ihl ihr =>
    rw [plan] at h
    split_ifs at h
    · simp only [Run.tables, List.mem_append, List.mem_cons, List.not_mem_nil, or_false, Prod.mk.injEq] at h
      rcases h with h | h | ⟨rfl, -⟩ | ⟨rfl, -⟩
      · exact (List.suffix_cons _ _).trans (ihl h)
      · exact (List.suffix_cons _ _).trans (ihr h)
      · exact List.suffix_rfl
      · exact List.suffix_rfl
    · simp only [Run.tables, List.append_nil] at h
      exact (List.suffix_cons _ _).trans (ihl h)
    · simp [Run.tables] at h

/-- The end of the pipe at `p` that its left command, for true, or its right command gets. -/
def pipeEnd (p : List Bool) : Bool → File W
  | true => .writeEnd p
  | false => .readEnd p

lemma has_set {mode : ℕ} {file : W} (h : (io.set fd (.named file mode)).Has (pipeEnd p b)) : io.Has (pipeEnd p b) := by
  unfold Stdio.set at h
  split at h <;> cases b <;> simp only [Stdio.Has, pipeEnd, reduceCtorEq, false_or, or_false] at h ⊢ <;> tauto

/-- An end of a pipe is held by the commands of its side only, unless it was there at the start. -/
lemma plan_end (h : (q', io') ∈ (plan env q cmd io).tables) (hhas : io'.Has (pipeEnd p b)) :
    io.Has (pipeEnd p b) ∨ (b :: p) <:+ q' := by
  induction cmd generalizing q io with
  | exec argv =>
    cases argv with
    | nil => simp [plan, Run.tables] at h
    | cons w argv =>
      obtain ⟨-, rfl⟩ : q' = q ∧ io' = io := by simpa [plan, Run.tables] using h
      exact .inl hhas
  | redir cmd file mode fd ih =>
    rw [plan] at h
    split_ifs at h
    · exact (ih h).imp_left has_set
    · simp [Run.tables] at h
  | list left right ihl ihr =>
    rw [plan] at h
    split_ifs at h
    · simp only [Run.tables, List.mem_append, List.mem_cons, Prod.mk.injEq] at h
      rcases h with h | ⟨-, rfl⟩ | h
      · exact ihl h
      · exact .inl hhas
      · exact ihr h
    · simp [Run.tables] at h
  | back cmd ih =>
    rw [plan] at h
    split_ifs at h
    · simp only [Run.tables, List.append_nil] at h
      exact ih h
    · simp [Run.tables] at h
  | pipe left right ihl ihr =>
    have hleft (hl : (q', io') ∈ (plan env (true :: q) left { io with output := .writeEnd q }).tables) :
        io.Has (pipeEnd p b) ∨ (b :: p) <:+ q' := by
      rcases ihl hl with (hin | hout | herr) | hsuf
      · exact .inl (.inl hin)
      · cases b with
        | true =>
          obtain rfl : q = p := by simpa [pipeEnd] using hout
          exact .inr (plan_position hl)
        | false => cases hout
      · exact .inl (.inr (.inr herr))
      · exact .inr hsuf
    have hright (hr : (q', io') ∈ (plan env (false :: q) right { io with input := .readEnd q }).tables) :
        io.Has (pipeEnd p b) ∨ (b :: p) <:+ q' := by
      rcases ihr hr with (hin | hout | herr) | hsuf
      · cases b with
        | true => cases hin
        | false =>
          obtain rfl : q = p := by simpa [pipeEnd] using hin
          exact .inr (plan_position hr)
      · exact .inl (.inr (.inl hout))
      · exact .inl (.inr (.inr herr))
      · exact .inr hsuf
    rw [plan] at h
    split_ifs at h
    · simp only [Run.tables, List.mem_append, List.mem_cons, List.not_mem_nil, or_false, Prod.mk.injEq] at h
      rcases h with h | h | ⟨-, rfl⟩ | ⟨-, rfl⟩
      · exact hleft h
      · exact hright h
      · exact .inl hhas
      · exact .inl hhas
    · simp only [Run.tables, List.append_nil] at h
      exact hleft h
    · simp [Run.tables] at h

/-! ### Lines -/

lemma standard_redirs {rs : List Redirection} {c : Cmd Word} (h : Standard c) : Standard (redirs rs c) := by
  induction rs generalizing c with
  | nil => exact h
  | cons r rs ih =>
    refine ih ?_
    cases r <;> exact ⟨by decide, h⟩

lemma standard_backs {c : Cmd Word} (k : ℕ) (h : Standard c) : Standard (Cmd.back^[k] c) := by
  induction k generalizing c with
  | zero => exact h
  | succ k ih => exact ih (c := .back c) h

lemma standard_of_derives {x : Nonterminal} {ts : List Token} {c : Cmd Word} (h : Derives x ts c) : Standard c := by
  induction h with
  | block rs _ ih => exact standard_redirs ih
  | simple rs args _ => exact standard_redirs trivial
  | single _ ih => exact ih
  | piped _ _ ihc ihd => exact ⟨ihc, ihd⟩
  | plain k _ ih => exact standard_backs k ih
  | listed k _ _ ihc ihd => exact ⟨standard_backs k ihc, ihd⟩

/-- **The shell connects the commands of a line as the line says**: for every line that it parses, whatever `open`,
`pipe` and `fork` come to, each process executes its program and waits with standard input, output and error as the
tree means them and no other descriptor, and only the commands on the left of a pipe hold its write end, only those
on the right its read end. -/
theorem line_plumbs (buf line : List Char) (tree : Cmd Word) (fuel : ℕ) (env : Env Word)
    (hfuel : 4 * (tokens (cstring buf)).length + 5 ≤ fuel) (h : parsecmd fuel buf = .ok (tree, line)) :
    runcmd env [] tree shell.table = (plan env [] tree shell).map Stdio.table ∧
      ∀ q io, (q, io) ∈ (plan env [] tree shell).tables → ∀ p b, io.Has (pipeEnd p b) → (b :: p) <:+ q := by
  refine ⟨runcmd_plumbs (standard_of_derives (parsecmd_ok hfuel h).1), fun q io hmem p b hhas => ?_⟩
  refine (plan_end hmem hhas).resolve_left ?_
  cases b <;> simp [shell, Stdio.Has, pipeEnd]

/-- Two commands with a pipe between them. -/
def pipeline : List Char := ['a', '|', 'b', '\n', NUL]

def allWell : Env Word := ⟨fun _ _ _ => true, fun _ => true, fun _ => true⟩

theorem line_plumbs_pipeline : ∃ tree line, parsecmd 40 pipeline = .ok (tree, line) ∧
    runcmd allWell [] tree shell.table = (plan allWell [] tree shell).map Stdio.table ∧
    (plan allWell [] tree shell).tables.map Prod.fst = [[true], [false], [], []] := by
  refine ⟨.pipe (.exec [(['a', '|', 'b', '\n'], ['|', 'b', '\n'])]) (.exec [(['b', '\n'], ['\n'])]), _, rfl, ?_, rfl⟩
  have htokens : (tokens (cstring pipeline)).length = 3 := by
    rw [tokens_of_ne (by decide), tokens_of_ne (by decide), tokens_of_ne (by decide), tokens_of_nil (by decide)]
    rfl
  exact (line_plumbs pipeline _ _ 40 allWell (by rw [htokens]; decide) rfl).1

end Plumbing

end Os132.Shell

import Os132.Shell.Tokens
import Mathlib.Logic.Function.Iterate

/-!
# The grammar of command lines

`Derives` is the grammar over the tokens of a line, with the tree that a derivation stands for:
line = pipe {'&'} [';' line], pipe = exec ['|' pipe], and exec is a line in brackets with
redirections behind it or fewer than `MAXARGS` words with redirections before and between them.
-/

namespace Os132.Shell

inductive Redirection where
  | input (file : Word)
  | output (file : Word)
  | append (file : Word)

def Redirection.tokens : Redirection → List Token
  | .input file => [.sym '<', .word file]
  | .output file => [.sym '>', .word file]
  | .append file => [.sym '+', .word file]

/-- The node for a redirection of `cmd`. -/
def Redirection.around (cmd : Cmd Word) : Redirection → Cmd Word
  | .input file => .redir cmd file O_RDONLY 0
  | .output file => .redir cmd file (O_WRONLY ||| O_CREATE) 1
  | .append file => .redir cmd file (O_WRONLY ||| O_CREATE) 1

def redirTokens (rs : List Redirection) : List Token := rs.flatMap Redirection.tokens

@[simp] lemma redirTokens_cons (r : Redirection) (rs : List Redirection) :
    redirTokens (r :: rs) = r.tokens ++ redirTokens rs := rfl

/-- The redirections `rs` of `cmd`, the last one outermost. -/
def redirs (rs : List Redirection) (cmd : Cmd Word) : Cmd Word := rs.foldl Redirection.around cmd

/-- The words of a command, each with the redirections behind it. -/
abbrev Args := List (Word × List Redirection)

def argTokens (args : Args) : List Token := args.flatMap fun a => .word a.1 :: redirTokens a.2

def argRedirs (args : Args) : List Redirection := args.flatMap fun a => a.2

inductive Nonterminal where
  | line
  | pipe
  | exec

inductive Derives : Nonterminal → List Token → Cmd Word → Prop where
  | block {ts : List Token} {c : Cmd Word} (rs : List Redirection) :
      Derives .line ts c → Derives .exec (.sym '(' :: (ts ++ .sym ')' :: redirTokens rs)) (redirs rs c)
  | simple (rs : List Redirection) (args : Args) :
      args.length < MAXARGS →
      Derives .exec (redirTokens rs ++ argTokens args) (redirs (rs ++ argRedirs args) (.exec (args.map Prod.fst)))
  | single {ts : List Token} {c : Cmd Word} : Derives .exec ts c → Derives .pipe ts c
  | piped {ts us : List Token} {c d : Cmd Word} :
      Derives .exec ts c → Derives .pipe us d → Derives .pipe (ts ++ .sym '|' :: us) (.pipe c d)
  | plain {ts : List Token} {c : Cmd Word} (k : ℕ) :
      Derives .pipe ts c → Derives .line (ts ++ List.replicate k (.sym '&')) (Cmd.back^[k] c)
  | listed {ts us : List Token} {c d : Cmd Word} (k : ℕ) :
      Derives .pipe ts c → Derives .line us d →
      Derives .line (ts ++ (List.replicate k (.sym '&') ++ .sym ';' :: us)) (.list (Cmd.back^[k] c) d)

variable {rs rs' : List Redirection} {cmd : Cmd Word} {w : Word} {s : List Char} {fuel : ℕ}

lemma redirs_append : redirs (rs ++ rs') cmd = redirs rs' (redirs rs cmd) := by
  simp [redirs]

lemma push_redirs : (redirs rs cmd).push w = redirs rs (cmd.push w) := by
  induction rs generalizing cmd with
  | nil => rfl
  | cons r rs ih =>
    have hr : (Redirection.around cmd r).push w = Redirection.around (cmd.push w) r := by
      cases r <;> rfl
    change (redirs rs (Redirection.around cmd r)).push w = redirs rs (Redirection.around (cmd.push w) r)
    rw [ih, hr]

/-- An outcome with enough fuel: what it has used of the line stands for its value. -/
def Sound (P : List Token → Cmd Word → Prop) (s : List Char) : Outcome (Cmd Word × List Char) → Prop
  | .fuel => False
  | .panic _ => True
  | .ok r => ∃ used, tokens s = used ++ tokens r.2 ∧ P used r.1

/-- The outcome is `cmd` with `rest` still to be read, unless the fuel has run out. -/
def Yields (cmd : Cmd Word) (rest : List Token) (o : Outcome (Cmd Word × List Char)) : Prop :=
  o = .fuel ∨ ∃ t, o = .ok (cmd, t) ∧ tokens t = rest

/-- The next token begins with one of `toks`. -/
def Starts (toks : List Char) (ts : List Token) : Prop := ts.head?.any (Token.starts toks) = true

lemma peek_iff {toks : List Char} (hsub : toks.all (· ∈ symbols) = true) :
    (peek s toks).1 = true ↔ Starts toks (tokens s) := by
  rw [peek_eq hsub, Starts]

lemma redirection_of_starts {ts : List Token} (h : Starts ['<', '>'] ts) :
    ∃ c us, ts = .sym c :: us ∧ (c = '<' ∨ c = '>' ∨ c = '+') := by
  cases ts with
  | nil => simp [Starts] at h
  | cons t us =>
    cases t with
    | word w => simp [Starts, Token.starts] at h
    | sym c =>
      refine ⟨c, us, rfl, ?_⟩
      simp only [Starts, Token.starts, List.head?_cons, Option.any_some, decide_eq_true_eq] at h
      split at h
      · tauto
      · simp at h
        tauto

lemma sym_of_starts {c : Char} {ts : List Token} (hc : c ≠ '>') (h : Starts [c] ts) : ∃ us, ts = .sym c :: us := by
  cases ts with
  | nil => simp [Starts] at h
  | cons t us =>
    cases t with
    | word w => simp [Starts, Token.starts] at h
    | sym d =>
      simp only [Starts, Token.starts, List.head?_cons, Option.any_some, decide_eq_true_eq, List.mem_singleton] at h
      split at h
      · exact absurd h.symm hc
      · exact ⟨us, by rw [h]⟩

lemma redircmd_eq (cmd : Cmd Word) {c : Char} (hc : c = '<' ∨ c = '>' ∨ c = '+') (file : Word) :
    ∃ r : Redirection, r.tokens = [.sym c, .word file] ∧ redircmd c cmd file = r.around cmd := by
  rcases hc with rfl | rfl | rfl
  · exact ⟨.input file, rfl, rfl⟩
  · exact ⟨.output file, rfl, rfl⟩
  · exact ⟨.append file, rfl, rfl⟩

/-- The loop of `parseredirs` reads redirections as long as there are any. -/
lemma parseredirs_sound (hf : (tokens s).length < fuel) :
    Sound (fun used c => ∃ rs, used = redirTokens rs ∧ c = redirs rs cmd) s (parseredirs fuel cmd s) := by
  induction fuel generalizing cmd s with
  | zero => omega
  | succ fuel ih =>
    rw [parseredirs]
    by_cases hp : (peek s ['<', '>']).1 = true
    · obtain ⟨c, us, hs, hc⟩ := redirection_of_starts ((peek_iff (by decide)).1 hp)
      obtain ⟨hret, hrest⟩ := gettoken_sym hs
      simp only [if_pos hp, gettoken_peek]
      split
      · trivial
      · rename_i hfile
        have hfile : (gettoken (gettoken s).rest).ret = 'a' := by simpa using hfile
        rcases tokens_cases (gettoken s).rest with ⟨-, he, -⟩ | ⟨d, -, he, hd, -⟩ | ⟨hus, -⟩
        · rw [he] at hfile
          exact absurd hfile (by decide)
        · exact absurd (he.symm.trans hfile) hd
        · rw [hret]
          obtain ⟨r, hr, hcmd⟩ := redircmd_eq cmd hc (gettoken (gettoken s).rest).word
          rw [hcmd]
          have hlen : (tokens (gettoken (gettoken s).rest).rest).length < fuel := by
            rw [hs, ← hrest, hus] at hf
            simp only [List.length_cons] at hf
            omega
          have hloop : Sound (fun used d => ∃ rs, used = redirTokens rs ∧ d = redirs rs (r.around cmd)) _
              (parseredirs fuel (r.around cmd) (gettoken (gettoken s).rest).rest) := ih hlen
          cases ho : parseredirs fuel (r.around cmd) (gettoken (gettoken s).rest).rest with
          | fuel => rw [ho] at hloop; exact hloop
          | panic msg => trivial
          | ok a =>
            rw [ho] at hloop
            obtain ⟨used, hused, rs, rfl, hcs⟩ := hloop
            refine ⟨_, ?_, r :: rs, rfl, hcs⟩
            rw [hs, ← hrest, hus, hused, redirTokens_cons, hr]
            rfl
    · rw [if_neg hp]
      exact ⟨[], by simp, [], rfl, rfl⟩

lemma parseredirs_yields {rest : List Token} (hs : tokens s = redirTokens rs ++ rest) (hn : ¬Starts ['<', '>'] rest) :
    Yields (redirs rs cmd) rest (parseredirs fuel cmd s) := by
  induction fuel generalizing cmd s rs with
  | zero => exact Or.inl rfl
  | succ fuel ih =>
    rw [parseredirs]
    cases rs with
    | nil =>
      have hs' : tokens s = rest := hs
      have hp : ¬(peek s ['<', '>']).1 = true := by
        rwa [peek_iff (by decide), hs']
      rw [if_neg hp]
      exact Or.inr ⟨_, rfl, by simpa using hs'⟩
    | cons r rs =>
      obtain ⟨c, file, hc, hr, hcmd⟩ : ∃ c file, (c = '<' ∨ c = '>' ∨ c = '+') ∧
          r.tokens = [.sym c, .word file] ∧ redircmd c cmd file = r.around cmd := by
        cases r with
        | input file => exact ⟨'<', file, by simp, rfl, rfl⟩
        | output file => exact ⟨'>', file, by simp, rfl, rfl⟩
        | append file => exact ⟨'+', file, by simp, rfl, rfl⟩
      have hs' : tokens s = .sym c :: .word file :: (redirTokens rs ++ rest) := by
        rw [hs, redirTokens_cons, hr]
        rfl
      have hp : (peek s ['<', '>']).1 = true := by
        rw [peek_iff (by decide), hs']
        rcases hc with rfl | rfl | rfl <;> rfl
      obtain ⟨hret, hrest⟩ := gettoken_sym hs'
      obtain ⟨hret', hword, hrest'⟩ := gettoken_word hrest
      simp only [if_pos hp, gettoken_peek, hret', hret, hword, hcmd]
      exact ih hrest'

end Os132.Shell

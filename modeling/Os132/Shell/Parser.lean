import Mathlib.Data.List.Basic
import Mathlib.Data.Nat.Notation

/-!
# The parser of the shell

A pointer into the line is kept as the text from it up to `es`, the end of the line. The five
functions of the grammar call each other and loop, so they take fuel, and `fuel` among the
outcomes is a call that has not come to its end. A pointer `cmd` into a tree is the node it leads
to: `push` stores a word in the command whose redirections surround it.
-/

namespace Os132.Shell

def NUL : Char := Char.ofNat 0

def whitespace : List Char := [' ', '\t', '\r', '\n', Char.ofNat 11]

def symbols : List Char := ['<', '|', '>', '&', ';', '(', ')']

def MAXARGS : ℕ := 10

def O_RDONLY : ℕ := 0x000

def O_WRONLY : ℕ := 0x001

def O_CREATE : ℕ := 0x200

/-- A word in the line: the pointers to its begin and its end. -/
abbrev Word := List Char × List Char

/-- Command trees over words of type `W`. -/
inductive Cmd (W : Type) where
  | exec (argv : List W)
  | redir (cmd : Cmd W) (file : W) (mode fd : ℕ)
  | pipe (left right : Cmd W)
  | list (left right : Cmd W)
  | back (cmd : Cmd W)

/-- How a call ends: out of fuel, through `panic`, or with a value. -/
inductive Outcome (α : Type) where
  | fuel
  | panic (msg : String)
  | ok (a : α)

def Outcome.bind {α β : Type} : Outcome α → (α → Outcome β) → Outcome β
  | .fuel, _ => .fuel
  | .panic msg, _ => .panic msg
  | .ok a, f => f a

/-- `while(s < es && strchr(whitespace, *s)) s++`. -/
def skip (s : List Char) : List Char := s.dropWhile (· ∈ whitespace)

/-- A character that goes on with a word. -/
def wordChar (c : Char) : Bool := c ∉ whitespace ∧ c ∉ symbols

/-- What `gettoken` returns, the pointers it stores in `q` and `eq`, and where it leaves `ps`. -/
structure Lexed where
  ret : Char
  word : Word
  rest : List Char

def gettoken (s : List Char) : Lexed :=
  let s := skip s
  match s with
  | [] => ⟨NUL, (s, s), s⟩
  | c :: t =>
    if c = '|' ∨ c = '(' ∨ c = ')' ∨ c = ';' ∨ c = '&' ∨ c = '<' then ⟨c, (s, t), skip t⟩
    else if c = '>' then
      if t.head? = some '>' then ⟨'+', (s, t.tail), skip t.tail⟩ else ⟨c, (s, t), skip t⟩
    else ⟨'a', (s, s.dropWhile wordChar), skip (s.dropWhile wordChar)⟩

/-- Whether the next character is one of `toks`, and where `peek` leaves `ps`. -/
def peek (s toks : List Char) : Bool × List Char :=
  ((skip s).head?.any (· ∈ toks), skip s)

/-- `cmd->argv[argc] = q` for the command `cmd` within its redirections. -/
def Cmd.push {W : Type} : Cmd W → W → Cmd W
  | .exec argv, w => .exec (argv ++ [w])
  | .redir cmd file mode fd, w => .redir (cmd.push w) file mode fd
  | .pipe left right, _ => .pipe left right
  | .list left right, _ => .list left right
  | .back cmd, _ => .back cmd

/-- The node that `parseredirs` makes for the token `tok`. -/
def redircmd {W : Type} (tok : Char) (cmd : Cmd W) (file : W) : Cmd W :=
  if tok = '<' then .redir cmd file O_RDONLY 0
  else if tok = '>' then .redir cmd file (O_WRONLY ||| O_CREATE) 1
  else if tok = '+' then .redir cmd file (O_WRONLY ||| O_CREATE) 1
  else cmd

def parseredirs : ℕ → Cmd Word → List Char → Outcome (Cmd Word × List Char)
  | 0, _, _ => .fuel
  | fuel + 1, cmd, s =>
    if (peek s ['<', '>']).1 then
      let tok := gettoken (peek s ['<', '>']).2
      let file := gettoken tok.rest
      if file.ret ≠ 'a' then .panic "missing file for redirection"
      else parseredirs fuel (redircmd tok.ret cmd file.word) file.rest
    else .ok (cmd, (peek s ['<', '>']).2)

/-- The loop of `parseexec`. -/
def parseargs : ℕ → ℕ → Cmd Word → List Char → Outcome (Cmd Word × List Char)
  | 0, _, _, _ => .fuel
  | fuel + 1, argc, ret, s =>
    if (peek s ['|', ')', '&', ';']).1 then .ok (ret, (peek s ['|', ')', '&', ';']).2)
    else
      let tok := gettoken (peek s ['|', ')', '&', ';']).2
      if tok.ret = NUL then .ok (ret, tok.rest)
      else if tok.ret ≠ 'a' then .panic "syntax"
      else if argc + 1 ≥ MAXARGS then .panic "too many args"
      else (parseredirs fuel (ret.push tok.word) tok.rest).bind fun r => parseargs fuel (argc + 1) r.1 r.2

/-- The loop of `parseline`. -/
def parsebacks : ℕ → Cmd Word → List Char → Outcome (Cmd Word × List Char)
  | 0, _, _ => .fuel
  | fuel + 1, cmd, s =>
    if (peek s ['&']).1 then parsebacks fuel (.back cmd) (gettoken (peek s ['&']).2).rest
    else .ok (cmd, (peek s ['&']).2)

mutual

def parseline : ℕ → List Char → Outcome (Cmd Word × List Char)
  | 0, _ => .fuel
  | fuel + 1, s =>
    (parsepipe fuel s).bind fun r => (parsebacks fuel r.1 r.2).bind fun r =>
      if (peek r.2 [';']).1 then
        (parseline fuel (gettoken (peek r.2 [';']).2).rest).bind fun right => .ok (.list r.1 right.1, right.2)
      else .ok (r.1, (peek r.2 [';']).2)

def parsepipe : ℕ → List Char → Outcome (Cmd Word × List Char)
  | 0, _ => .fuel
  | fuel + 1, s =>
    (parseexec fuel s).bind fun r =>
      if (peek r.2 ['|']).1 then
        (parsepipe fuel (gettoken (peek r.2 ['|']).2).rest).bind fun right => .ok (.pipe r.1 right.1, right.2)
      else .ok (r.1, (peek r.2 ['|']).2)

def parseblock : ℕ → List Char → Outcome (Cmd Word × List Char)
  | 0, _ => .fuel
  | fuel + 1, s =>
    if (peek s ['(']).1 then
      (parseline fuel (gettoken (peek s ['(']).2).rest).bind fun r =>
        if (peek r.2 [')']).1 then parseredirs fuel r.1 (gettoken (peek r.2 [')']).2).rest
        else .panic "syntax - missing )"
    else .panic "parseblock"

def parseexec : ℕ → List Char → Outcome (Cmd Word × List Char)
  | 0, _ => .fuel
  | fuel + 1, s =>
    if (peek s ['(']).1 then parseblock fuel (peek s ['(']).2
    else (parseredirs fuel (.exec []) (peek s ['(']).2).bind fun r => parseargs fuel 0 r.1 r.2

end

/-- `*p = 0`, where `p` points into the line that `buf` holds. -/
def terminate (buf p : List Char) : List Char := buf.set (buf.length - p.length) NUL

def nulterminate : Cmd Word → List Char → List Char
  | .exec argv, buf => argv.foldl (fun buf w => terminate buf w.2) buf
  | .redir cmd file _ _, buf => terminate (nulterminate cmd buf) file.2
  | .pipe left right, buf => nulterminate right (nulterminate left buf)
  | .list left right, buf => nulterminate right (nulterminate left buf)
  | .back cmd, buf => nulterminate cmd buf

/-- The string that begins at the head of `s`; `strlen` is its length. -/
def cstring (s : List Char) : List Char := s.takeWhile (· ≠ NUL)

/-- The tree and the line as `nulterminate` leaves it. -/
def parsecmd (fuel : ℕ) (buf : List Char) : Outcome (Cmd Word × List Char) :=
  let s := cstring buf
  (parseline fuel s).bind fun r =>
    if (peek r.2 []).2 ≠ [] then .panic "syntax" else .ok (r.1, nulterminate r.1 s)

end Os132.Shell

import Os132.Shell.Parser
import Mathlib.Tactic.Common

/-!
# The tokens of a line

`gettoken`, called again and again, cuts the line into tokens; `tokens` is the list of them. What
the parser sees of the line through `gettoken` and `peek` is said here in terms of that list.
-/

namespace Os132.Shell

/-- A word, or the symbol that `gettoken` returns, `+` for two `>` in a row. -/
inductive Token where
  | sym (c : Char)
  | word (w : Word)

def Lexed.token (l : Lexed) : Token := if l.ret = 'a' then .word l.word else .sym l.ret

variable {s t toks : List Char} {c : Char}

lemma skip_length_le (s : List Char) : (skip s).length ≤ s.length :=
  (List.dropWhile_suffix _).length_le

lemma skip_head (h : skip s = c :: t) : c ∉ whitespace := by
  intro hc
  have := List.head?_dropWhile_not (fun c => decide (c ∈ whitespace)) s
  rw [show s.dropWhile (fun c => decide (c ∈ whitespace)) = c :: t from h] at this
  simp [hc] at this

@[simp] lemma skip_skip (s : List Char) : skip (skip s) = skip s := by
  cases hs : skip s with
  | nil => rfl
  | cons c t => exact List.dropWhile_cons_of_neg (by simpa using skip_head hs)

@[simp] lemma gettoken_skip (s : List Char) : gettoken (skip s) = gettoken s := by
  simp [gettoken]

/-- The three kinds of tokens. -/
lemma gettoken_cases (h : skip s = c :: t) :
    (c ∈ symbols ∧ c ≠ '>' ∧ gettoken s = ⟨c, (c :: t, t), skip t⟩) ∨
    (c = '>' ∧ ((∃ u, t = '>' :: u ∧ gettoken s = ⟨'+', (c :: t, u), skip u⟩) ∨
      gettoken s = ⟨'>', (c :: t, t), skip t⟩)) ∨
    (wordChar c = true ∧
      gettoken s = ⟨'a', (c :: t, t.dropWhile wordChar), skip (t.dropWhile wordChar)⟩) := by
  have hws := skip_head h
  by_cases hsym : c = '|' ∨ c = '(' ∨ c = ')' ∨ c = ';' ∨ c = '&' ∨ c = '<'
  · left
    refine ⟨by simp [symbols]; tauto, ?_, by simp only [gettoken, h, if_pos hsym]⟩
    rintro rfl
    simp at hsym
  · by_cases hgt : c = '>'
    · right
      left
      refine ⟨hgt, ?_⟩
      cases t with
      | nil => exact Or.inr (by simp [gettoken, h, hgt])
      | cons d u =>
        by_cases hd : d = '>'
        · exact Or.inl ⟨u, by rw [hd], by simp [gettoken, h, hgt, hd]⟩
        · exact Or.inr (by simp [gettoken, h, hgt, hd])
    · right
      right
      have hw : wordChar c = true := by
        simp only [wordChar, symbols, List.mem_cons, List.not_mem_nil, or_false, decide_eq_true_eq]
        tauto
      refine ⟨hw, ?_⟩
      simp only [gettoken, h, if_neg hsym, if_neg hgt, List.dropWhile_cons_of_pos hw]

/-- Every call of `gettoken` before the end of the line moves on. -/
lemma gettoken_lt (h : skip s ≠ []) : (gettoken s).rest.length < s.length := by
  have hle := skip_length_le s
  obtain ⟨c, t, hs⟩ := List.exists_cons_of_ne_nil h
  have ht : t.length < s.length := by
    rw [hs, List.length_cons] at hle
    omega
  rcases gettoken_cases hs with ⟨-, -, he⟩ | ⟨-, ⟨u, rfl, he⟩ | he⟩ | ⟨-, he⟩
  · rw [he]
    exact Nat.lt_of_le_of_lt (skip_length_le t) ht
  · rw [he]
    rw [List.length_cons] at ht
    exact Nat.lt_of_le_of_lt (skip_length_le u) (by omega)
  · rw [he]
    exact Nat.lt_of_le_of_lt (skip_length_le t) ht
  · rw [he]
    have := (List.dropWhile_suffix (l := t) wordChar).length_le
    exact Nat.lt_of_le_of_lt (skip_length_le _) (by omega)

def tokens (s : List Char) : List Token :=
  if _h : skip s = [] then [] else (gettoken s).token :: tokens (gettoken s).rest
termination_by s.length
decreasing_by exact gettoken_lt _h

lemma tokens_of_nil (h : skip s = []) : tokens s = [] := by
  rw [tokens, dif_pos h]

lemma tokens_of_ne (h : skip s ≠ []) : tokens s = (gettoken s).token :: tokens (gettoken s).rest := by
  rw [tokens, dif_neg h]

@[simp] lemma tokens_skip (s : List Char) : tokens (skip s) = tokens s := by
  by_cases h : skip s = []
  · rw [tokens_of_nil h, tokens_of_nil (by simpa using h)]
  · rw [tokens_of_ne h, tokens_of_ne (by simpa using h), gettoken_skip]

@[simp] lemma tokens_peek (s toks : List Char) : tokens (peek s toks).2 = tokens s :=
  tokens_skip s

@[simp] lemma gettoken_peek (s toks : List Char) : gettoken (peek s toks).2 = gettoken s :=
  gettoken_skip s

lemma tokens_eq_nil : tokens s = [] ↔ skip s = [] := by
  constructor
  · intro h
    by_contra hne
    simp [tokens_of_ne hne] at h
  · exact tokens_of_nil

/-- What `gettoken` returns at the end of the line, before a symbol and before a word. -/
lemma tokens_cases (s : List Char) :
    (tokens s = [] ∧ (gettoken s).ret = NUL ∧ tokens (gettoken s).rest = []) ∨
    (∃ c, tokens s = .sym c :: tokens (gettoken s).rest ∧ (gettoken s).ret = c ∧ c ≠ 'a' ∧ c ≠ NUL) ∨
    (tokens s = .word (gettoken s).word :: tokens (gettoken s).rest ∧ (gettoken s).ret = 'a') := by
  cases hs : skip s with
  | nil =>
    left
    have he : gettoken s = ⟨NUL, ([], []), []⟩ := by simp only [gettoken, hs]
    exact ⟨tokens_of_nil hs, by rw [he], by rw [he]; exact tokens_of_nil rfl⟩
  | cons c t =>
    right
    have htok := tokens_of_ne (s := s) (by simp [hs])
    rcases gettoken_cases hs with ⟨hc, -, he⟩ | ⟨rfl, ⟨u, -, he⟩ | he⟩ | ⟨hc, he⟩
    · have h1 : c ≠ 'a' := by
        rintro rfl
        exact absurd hc (by decide)
      have h2 : c ≠ NUL := by
        rintro rfl
        exact absurd hc (by decide)
      left
      refine ⟨c, ?_, by rw [he], h1, h2⟩
      rw [htok, he]
      simp [Lexed.token, h1]
    · left
      refine ⟨'+', ?_, by rw [he], by decide, by decide⟩
      rw [htok, he]
      simp [Lexed.token]
    · left
      refine ⟨'>', ?_, by rw [he], by decide, by decide⟩
      rw [htok, he]
      simp [Lexed.token]
    · right
      refine ⟨?_, by rw [he]⟩
      rw [htok, he]
      simp [Lexed.token]

lemma gettoken_sym {ts : List Token} (h : tokens s = .sym c :: ts) :
    (gettoken s).ret = c ∧ tokens (gettoken s).rest = ts := by
  rcases tokens_cases s with ⟨hs, -⟩ | ⟨d, hs, hret, -⟩ | ⟨hs, -⟩
  · simp [hs] at h
  · rw [hs] at h
    injection h with h1 h2
    injection h1 with h1
    exact ⟨hret.trans h1, h2⟩
  · simp [hs] at h

lemma gettoken_word {w : Word} {ts : List Token} (h : tokens s = .word w :: ts) :
    (gettoken s).ret = 'a' ∧ (gettoken s).word = w ∧ tokens (gettoken s).rest = ts := by
  rcases tokens_cases s with ⟨hs, -⟩ | ⟨d, hs, -⟩ | ⟨hs, hret⟩
  · simp [hs] at h
  · simp [hs] at h
  · rw [hs] at h
    injection h with h1 h2
    injection h1 with h1
    exact ⟨hret, h1, h2⟩

/-- A token whose first character is one of `toks`. -/
def Token.starts (toks : List Char) : Token → Bool
  | .sym c => (if c = '+' then '>' else c) ∈ toks
  | .word _ => false

lemma peek_eq (hsub : toks.all (· ∈ symbols) = true) :
    (peek s toks).1 = (tokens s).head?.any (Token.starts toks) := by
  cases hs : skip s with
  | nil => simp [peek, hs, tokens_of_nil hs]
  | cons c t =>
    rw [tokens_of_ne (by simp [hs]), List.head?_cons, Option.any_some]
    have hpeek : (peek s toks).1 = decide (c ∈ toks) := by simp [peek, hs]
    rw [hpeek]
    rcases gettoken_cases hs with ⟨hc, -, he⟩ | ⟨rfl, ⟨u, -, he⟩ | he⟩ | ⟨hc, he⟩
    · have h1 : c ≠ 'a' := by
        rintro rfl
        exact absurd hc (by decide)
      have h2 : c ≠ '+' := by
        rintro rfl
        exact absurd hc (by decide)
      simp [he, Lexed.token, Token.starts, h1, h2]
    · simp [he, Lexed.token, Token.starts]
    · simp [he, Lexed.token, Token.starts]
    · have hnot : c ∉ toks := by
        intro hm
        have hsym : c ∈ symbols := by simpa using List.all_eq_true.1 hsub c hm
        simp [wordChar, hsym] at hc
      simp [he, Lexed.token, Token.starts, hnot]

end Os132.Shell

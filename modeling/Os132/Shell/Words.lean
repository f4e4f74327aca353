import Os132.Shell.Correct
import Mathlib.Data.List.TakeWhile

/-!
# The words of a tree

`nulterminate` writes a null behind every word of the tree. No word goes on where another one ends,
so afterwards the string at each pointer to a word is the word itself.
-/

namespace Os132.Shell

def Cmd.words {W : Type} : Cmd W → List W
  | .exec argv => argv
  | .redir cmd file _ _ => cmd.words ++ [file]
  | .pipe left right => left.words ++ right.words
  | .list left right => left.words ++ right.words
  | .back cmd => cmd.words

/-- The pointers `w` enclose the word `text` of the line `s`. -/
structure IsWord (s : List Char) (w : Word) (text : List Char) : Prop where
  eq : w.1 = text ++ w.2
  nonempty : text ≠ []
  chars : ∀ c ∈ text, wordChar c = true
  ends : ∀ c ∈ w.2.head?, ¬wordChar c = true
  suffix : w.1 <:+ s

variable {s t : List Char} {w : Word} {ts : List Token} {c cmd : Cmd Word} {n : Nonterminal} {i : ℕ}

lemma skip_suffix (s : List Char) : skip s <:+ s := List.dropWhile_suffix _

lemma gettoken_suffix (s : List Char) : (gettoken s).rest <:+ s := by
  cases hs : skip s with
  | nil =>
    have he : gettoken s = ⟨NUL, ([], []), []⟩ := by simp only [gettoken, hs]
    rw [he]
    exact List.nil_suffix
  | cons c t =>
    have ht : t <:+ s := (List.suffix_cons c t).trans (hs ▸ skip_suffix s)
    rcases gettoken_cases hs with ⟨-, -, he⟩ | ⟨-, ⟨u, rfl, he⟩ | he⟩ | ⟨-, he⟩
    · rw [he]
      exact (skip_suffix t).trans ht
    · rw [he]
      exact (skip_suffix u).trans ((List.suffix_cons _ u).trans ht)
    · rw [he]
      exact (skip_suffix t).trans ht
    · rw [he]
      exact (skip_suffix _).trans ((List.dropWhile_suffix _).trans ht)

lemma IsWord.of_suffix {text : List Char} (h : IsWord t w text) (ht : t <:+ s) : IsWord s w text :=
  ⟨h.eq, h.nonempty, h.chars, h.ends, h.suffix.trans ht⟩

/-- The word that `gettoken` finds. -/
lemma isWord_gettoken (h : (gettoken s).ret = 'a') : ∃ text, IsWord s (gettoken s).word text := by
  cases hs : skip s with
  | nil =>
    have he : gettoken s = ⟨NUL, ([], []), []⟩ := by simp only [gettoken, hs]
    rw [he] at h
    exact absurd h (by decide)
  | cons c t =>
    rcases gettoken_cases hs with ⟨hc, -, he⟩ | ⟨-, ⟨u, -, he⟩ | he⟩ | ⟨hc, he⟩
    · rw [he] at h
      change c = 'a' at h
      rw [h] at hc
      exact absurd hc (by decide)
    · rw [he] at h
      simp at h
    · rw [he] at h
      simp at h
    · rw [he]
      refine ⟨c :: t.takeWhile wordChar, ?_, by simp, ?_, ?_, hs ▸ skip_suffix s⟩
      · simp
      · intro d hd
        rcases List.mem_cons.1 hd with rfl | hd
        · exact hc
        · exact List.mem_takeWhile_imp hd
      · intro d hd
        have := List.head?_dropWhile_not wordChar t
        simp only [Option.mem_def] at hd
        rw [hd] at this
        simpa using this

lemma isWord_of_mem_tokens (h : .word w ∈ tokens s) : ∃ text, IsWord s w text := by
  fun_induction tokens s with
  | case1 s hs => simp at h
  | case2 s hs ih =>
    rcases List.mem_cons.1 h with h | h
    · rw [Lexed.token] at h
      split at h
      · rename_i hret
        injection h with h
        rw [h]
        exact isWord_gettoken hret
      · exact absurd h (by simp)
    · obtain ⟨text, htext⟩ := ih h
      exact ⟨text, htext.of_suffix (gettoken_suffix s)⟩

lemma mem_words_redirs {rs : List Redirection} (h : w ∈ (redirs rs cmd).words) :
    w ∈ cmd.words ∨ .word w ∈ redirTokens rs := by
  induction rs generalizing cmd with
  | nil => exact Or.inl h
  | cons r rs ih =>
    rw [redirTokens_cons, List.mem_append]
    have hrest : w ∈ (redirs rs (Redirection.around cmd r)).words := h
    rcases ih hrest with h | h
    · cases r <;> simp [Redirection.around, Cmd.words, Redirection.tokens] at h ⊢ <;> tauto
    · exact Or.inr (Or.inr h)

lemma mem_words_back {k : ℕ} (h : w ∈ (Cmd.back^[k] cmd).words) : w ∈ cmd.words := by
  induction k generalizing cmd with
  | zero => exact h
  | succ k ih =>
    have hrest : w ∈ (Cmd.back^[k] (.back cmd)).words := h
    have hin : w ∈ (Cmd.back cmd).words := ih hrest
    exact hin

lemma redirTokens_append (rs rs' : List Redirection) :
    redirTokens (rs ++ rs') = redirTokens rs ++ redirTokens rs' :=
  List.flatMap_append

lemma mem_argTokens {args : Args} (h : w ∈ args.map Prod.fst ∨ .word w ∈ redirTokens (argRedirs args)) :
    .word w ∈ argTokens args := by
  induction args with
  | nil => simp [argRedirs, redirTokens] at h
  | cons a args ih =>
    rw [argTokens, List.flatMap_cons]
    rw [argRedirs, List.flatMap_cons, redirTokens_append, List.map_cons] at h
    simp only [List.mem_cons, List.mem_append] at h ⊢
    rcases h with (rfl | h) | h | h
    · simp
    · exact Or.inr (ih (Or.inl h))
    · simp [h]
    · exact Or.inr (ih (Or.inr h))

/-- The words of a tree are words of the line. -/
lemma mem_of_derives (h : Derives n ts c) (hw : w ∈ c.words) : .word w ∈ ts := by
  induction h with
  | block rs hline ih =>
    rcases mem_words_redirs hw with hw | hw
    · simp [ih hw]
    · simp [hw]
  | simple rs args hmax =>
    rcases mem_words_redirs hw with hw | hw
    · exact List.mem_append_right _ (mem_argTokens (Or.inl hw))
    · rw [redirTokens_append, List.mem_append] at hw
      rcases hw with hw | hw
      · exact List.mem_append_left _ hw
      · exact List.mem_append_right _ (mem_argTokens (Or.inr hw))
  | single hexec ih => exact ih hw
  | piped hexec hpipe ihe ihp =>
    rcases List.mem_append.1 hw with hw | hw
    · simp [ihe hw]
    · simp [ihp hw]
  | plain k hpipe ih => exact List.mem_append_left _ (ih (mem_words_back hw))
  | listed k hpipe hline ihp ihl =>
    rcases List.mem_append.1 hw with hw | hw
    · exact List.mem_append_left _ (ihp (mem_words_back hw))
    · simp [ihl hw]

lemma nulterminate_eq (c : Cmd Word) (buf : List Char) :
    nulterminate c buf = c.words.foldl (fun buf w => terminate buf w.2) buf := by
  induction c generalizing buf with
  | exec argv => rfl
  | redir cmd file mode fd ih => simp [nulterminate, Cmd.words, ih]
  | pipe left right ihl ihr => simp [nulterminate, Cmd.words, ihl, ihr]
  | list left right ihl ihr => simp [nulterminate, Cmd.words, ihl, ihr]
  | back cmd ih => simp [nulterminate, Cmd.words, ih]

lemma terminate_length (buf p : List Char) : (terminate buf p).length = buf.length := by
  simp [terminate]

lemma foldl_terminate_length (ws : List Word) (buf : List Char) :
    (ws.foldl (fun buf w => terminate buf w.2) buf).length = buf.length := by
  induction ws generalizing buf with
  | nil => rfl
  | cons w ws ih => rw [List.foldl_cons, ih, terminate_length]

/-- A null stands where some word ends, and every other character is as it was. -/
lemma foldl_terminate (ws : List Word) (buf : List Char) (hi : i < buf.length) :
    (ws.foldl (fun buf w => terminate buf w.2) buf)[i]? =
      if ∃ w ∈ ws, i = buf.length - w.2.length then some NUL else buf[i]? := by
  induction ws generalizing buf with
  | nil => simp
  | cons w ws ih =>
    rw [List.foldl_cons, ih _ (by rwa [terminate_length]), terminate_length]
    by_cases hws : ∃ v ∈ ws, i = buf.length - v.2.length
    · rw [if_pos hws, if_pos (by obtain ⟨v, hv, he⟩ := hws; exact ⟨v, by simp [hv], he⟩)]
    · rw [if_neg hws, terminate, List.getElem?_set]
      by_cases hw : buf.length - w.2.length = i
      · rw [if_pos hw, if_pos (by omega), if_pos ⟨w, by simp, hw.symm⟩]
      · rw [if_neg hw, if_neg]
        rintro ⟨v, hv, he⟩
        rcases List.mem_cons.1 hv with rfl | hv
        · exact hw he.symm
        · exact hws ⟨v, hv, he⟩

lemma cstring_eq {m : List Char} (text : List Char) (ht : ∀ c ∈ text, c ≠ NUL)
    (hm : m.take text.length = text) (hend : ∀ d ∈ (m.drop text.length).head?, d = NUL) : cstring m = text := by
  rw [← List.take_append_drop text.length m, hm, cstring, List.takeWhile_append_of_pos (by simpa using ht)]
  have htail : (m.drop text.length).takeWhile (fun c => decide (c ≠ NUL)) = [] := by
    cases hd : m.drop text.length with
    | nil => rfl
    | cons d u =>
      rw [hd] at hend
      have := hend d rfl
      simp [this]
  rw [htail, List.append_nil]

/-- No word ends inside another one. -/
lemma IsWord.not_inside {v : Word} {text u : List Char} {j : ℕ} (hw : IsWord s w text) (hv : IsWord s v u)
    (hj : j < text.length) : s.length - w.1.length + j ≠ s.length - v.2.length := by
  intro he
  have hstart : w.1 = s.drop (s.length - w.1.length) := List.suffix_iff_eq_drop.1 hw.suffix
  have hsuf : v.2 <:+ s := (hv.eq ▸ List.suffix_append u v.2).trans hv.suffix
  have hdrop : v.2 = w.1.drop j := by
    rw [hstart, List.drop_drop, he]
    exact List.suffix_iff_eq_drop.1 hsuf
  have hhead : v.2.head? = some (text[j]) := by
    rw [hdrop, List.head?_drop, hw.eq, List.getElem?_append_left hj, List.getElem?_eq_getElem hj]
  exact hv.ends _ hhead (hw.chars _ (List.getElem_mem hj))

/-- After `nulterminate` the string at the begin of a word is the word. -/
theorem read_word {text : List Char} (hs : ∀ d ∈ s, d ≠ NUL) (hall : ∀ v ∈ c.words, ∃ u, IsWord s v u)
    (hw : w ∈ c.words) (hword : IsWord s w text) :
    cstring ((nulterminate c s).drop (s.length - w.1.length)) = text := by
  obtain ⟨p, hp⟩ := hword.suffix
  have hline : s = p ++ (text ++ w.2) := by rw [← hp, hword.eq]
  have hplen : s.length - w.1.length = p.length := by
    rw [← hp, List.length_append]
    omega
  have hlen : s.length = p.length + text.length + w.2.length := by
    rw [hline]
    simp [Nat.add_assoc]
  have hkeep : ∀ j, j < text.length → ¬∃ v ∈ c.words, p.length + j = s.length - v.2.length := by
    rintro j hj ⟨v, hv, he⟩
    obtain ⟨u, hu⟩ := hall v hv
    exact hword.not_inside hu hj (by rw [hplen, he])
  rw [hplen, nulterminate_eq]
  apply cstring_eq text
  · intro d hd
    exact hs d (by rw [hline]; simp [hd])
  · apply List.ext_getElem?
    intro j
    by_cases hj : j < text.length
    · rw [List.getElem?_take_of_lt hj, List.getElem?_drop, foldl_terminate _ _ (by omega), if_neg (hkeep j hj),
        hline, List.getElem?_append_right (by omega), Nat.add_sub_cancel_left, List.getElem?_append_left hj]
    · rw [List.getElem?_eq_none (by simp; omega), List.getElem?_eq_none (by omega)]
  · intro d hd
    rw [List.drop_drop, List.head?_drop] at hd
    by_cases hlt : p.length + text.length < s.length
    · rw [foldl_terminate _ _ hlt, if_pos ⟨w, hw, by omega⟩] at hd
      simpa using hd.symm
    · rw [List.getElem?_eq_none (by rw [foldl_terminate_length]; omega)] at hd
      simp at hd

lemma Derives.yields_all (fuel : ℕ) (h : Derives .line (tokens s) c) :
    parseline fuel s = .fuel ∨ ∃ t, parseline fuel s = .ok (c, t) ∧ tokens t = [] :=
  parse_yields h fuel s [] (Or.inl rfl) (by simp)

lemma leftovers (s : List Char) : (peek s []).2 = [] ↔ tokens s = [] := by
  rw [tokens_eq_nil]
  rfl

/-- A tree that `parsecmd` returns is derived from the whole line. -/
lemma parsecmd_ok {buf line : List Char} {tree : Cmd Word} {fuel : ℕ}
    (hfuel : 4 * (tokens (cstring buf)).length + 5 ≤ fuel) (h : parsecmd fuel buf = .ok (tree, line)) :
    Derives .line (tokens (cstring buf)) tree ∧ line = nulterminate tree (cstring buf) := by
  have hsound := (parse_sound fuel (cstring buf)).1 hfuel
  cases ho : parseline fuel (cstring buf) with
  | fuel => simp [parsecmd, ho, Outcome.bind] at h
  | panic msg => simp [parsecmd, ho, Outcome.bind] at h
  | ok r =>
    rw [ho] at hsound
    obtain ⟨used, hused, hd⟩ := hsound
    simp only [parsecmd, ho, Outcome.bind] at h
    split at h
    · simp at h
    · rename_i hend
      rw [ne_eq, not_not, leftovers] at hend
      rw [hend, List.append_nil] at hused
      simp only [Outcome.ok.injEq, Prod.mk.injEq] at h
      rw [← h.1, ← h.2, hused]
      exact ⟨hd, rfl⟩

/-- For every line, with enough fuel: `parsecmd` ends, through `panic` or with a tree; it returns a
tree exactly for the lines of the grammar, and this is the only tree of the line; and the pointers in
the tree lead to the words of the line, which `nulterminate` has made strings. -/
theorem parsecmd_grammar (buf : List Char) :
    ∃ N, ∀ fuel, N ≤ fuel →
      ((∃ msg, parsecmd fuel buf = .panic msg) ∨ ∃ r, parsecmd fuel buf = .ok r) ∧
      (∀ tree, (∃ line, parsecmd fuel buf = .ok (tree, line)) ↔ Derives .line (tokens (cstring buf)) tree) ∧
      ∀ tree line, parsecmd fuel buf = .ok (tree, line) → ∀ w ∈ tree.words, ∃ text,
        IsWord (cstring buf) w text ∧ cstring (line.drop (line.length - w.1.length)) = text := by
  refine ⟨4 * (tokens (cstring buf)).length + 5, fun fuel hfuel => ?_⟩
  have hsound := (parse_sound fuel (cstring buf)).1 hfuel
  have hok : ∀ tree line, parsecmd fuel buf = .ok (tree, line) →
      Derives .line (tokens (cstring buf)) tree ∧ line = nulterminate tree (cstring buf) :=
    fun tree line h => parsecmd_ok hfuel h
  constructor
  · cases ho : parseline fuel (cstring buf) with
    | fuel => rw [ho] at hsound; exact hsound.elim
    | panic msg => exact Or.inl ⟨msg, by simp [parsecmd, ho, Outcome.bind]⟩
    | ok r =>
      simp only [parsecmd, ho, Outcome.bind]
      split
      · exact Or.inl ⟨_, rfl⟩
      · exact Or.inr ⟨_, rfl⟩
  constructor
  · intro tree
    constructor
    · rintro ⟨line, h⟩
      exact (hok tree line h).1
    · intro h
      rcases h.yields_all fuel with ho | ⟨t, ho, ht⟩
      · rw [ho] at hsound
        exact hsound.elim
      · exact ⟨nulterminate tree (cstring buf), by
          simp only [parsecmd, ho, Outcome.bind, if_neg (not_not.2 ((leftovers t).2 ht))]⟩
  · intro tree line h w hw
    obtain ⟨hd, rfl⟩ := hok tree line h
    have hall : ∀ v ∈ tree.words, ∃ u, IsWord (cstring buf) v u :=
      fun v hv => isWord_of_mem_tokens (mem_of_derives hd hv)
    obtain ⟨text, htext⟩ := hall w hw
    refine ⟨text, htext, ?_⟩
    rw [nulterminate_eq, foldl_terminate_length, ← nulterminate_eq]
    apply read_word _ hall hw htext
    intro d hd
    simpa using List.mem_takeWhile_imp hd

end Os132.Shell

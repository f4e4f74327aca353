import Os132.Shell.Grammar

/-!
# The parser and the grammar

With enough fuel every function of the parser panics or has read a derivation of the tree it
returns; and where a derivation is followed by something that cannot go on with it, the functions
read just this derivation.
-/

namespace Os132.Shell

variable {rs rs' : List Redirection} {cmd : Cmd Word} {w : Word} {s t : List Char} {fuel : ℕ}
  {P Q : List Token → Cmd Word → Prop} {o : Outcome (Cmd Word × List Char)}
  {f : Cmd Word × List Char → Outcome (Cmd Word × List Char)}

lemma Sound.imp (ho : Sound P s o) (hPQ : ∀ us c, P us c → Q us c) : Sound Q s o := by
  cases o with
  | fuel => exact ho
  | panic msg => trivial
  | ok r =>
    obtain ⟨us, hus, hP⟩ := ho
    exact ⟨us, hus, hPQ us r.1 hP⟩

lemma Sound.cons {x : Token} (hs : tokens s = x :: tokens t) (ho : Sound (fun us => P (x :: us)) t o) :
    Sound P s o := by
  cases o with
  | fuel => exact ho
  | panic msg => trivial
  | ok r =>
    obtain ⟨us, hus, hP⟩ := ho
    exact ⟨x :: us, by rw [hs, hus]; rfl, hP⟩

lemma Sound.bind (ho : Sound P s o)
    (hf : ∀ used c t, tokens s = used ++ tokens t → P used c → Sound (fun us => Q (used ++ us)) t (f (c, t))) :
    Sound Q s (o.bind f) := by
  cases o with
  | fuel => exact ho
  | panic msg => trivial
  | ok r =>
    obtain ⟨used, hused, hP⟩ := ho
    have hr := hf used r.1 r.2 hused hP
    change Sound Q s (f (r.1, r.2))
    cases hfr : f (r.1, r.2) with
    | fuel => rw [hfr] at hr; exact hr
    | panic msg => trivial
    | ok q =>
      rw [hfr] at hr
      obtain ⟨us, hus, hQ⟩ := hr
      exact ⟨used ++ us, by rw [hused, hus, List.append_assoc], hQ⟩

lemma Yields.bind {c d : Cmd Word} {us vs : List Token} (ho : Yields c us o)
    (hf : ∀ t, tokens t = us → Yields d vs (f (c, t))) : Yields d vs (o.bind f) := by
  rcases ho with rfl | ⟨t, rfl, ht⟩
  · exact Or.inl rfl
  · exact hf t ht

lemma sound_ok {c : Cmd Word} (hs : tokens s = tokens t) (hP : P [] c) : Sound P s (.ok (c, t)) :=
  ⟨[], hs, hP⟩

lemma not_starts_nil (toks : List Char) : ¬Starts toks [] := by
  simp [Starts]

lemma not_starts_word (toks : List Char) (us : List Token) : ¬Starts toks (.word w :: us) := by
  simp [Starts, Token.starts]

lemma starts_sym {toks : List Char} {c : Char} {us : List Token} (hc : c ≠ '+') :
    Starts toks (.sym c :: us) ↔ c ∈ toks := by
  simp [Starts, Token.starts, hc]

/-- The loop of `parseline` reads `&` as long as there are any. -/
lemma parsebacks_sound (hf : (tokens s).length < fuel) :
    Sound (fun used c => ∃ k, used = List.replicate k (.sym '&') ∧ c = Cmd.back^[k] cmd) s
      (parsebacks fuel cmd s) := by
  induction fuel generalizing cmd s with
  | zero => omega
  | succ fuel ih =>
    rw [parsebacks]
    by_cases hp : (peek s ['&']).1 = true
    · obtain ⟨us, hs⟩ := sym_of_starts (by decide) ((peek_iff (by decide)).1 hp)
      obtain ⟨-, hrest⟩ := gettoken_sym hs
      rw [if_pos hp, gettoken_peek]
      rw [hs, ← hrest, List.length_cons] at hf
      apply Sound.cons (t := (gettoken s).rest) (by rw [hs, hrest])
      apply (ih (by omega)).imp
      rintro us c ⟨k, rfl, rfl⟩
      exact ⟨k + 1, rfl, rfl⟩
    · rw [if_neg hp]
      exact sound_ok (by simp) ⟨0, rfl, rfl⟩

lemma parsebacks_yields {k : ℕ} {rest : List Token} (hs : tokens s = List.replicate k (.sym '&') ++ rest)
    (hn : ¬Starts ['&'] rest) : Yields (Cmd.back^[k] cmd) rest (parsebacks fuel cmd s) := by
  induction fuel generalizing cmd s k with
  | zero => exact Or.inl rfl
  | succ fuel ih =>
    rw [parsebacks]
    cases k with
    | zero =>
      have hs' : tokens s = rest := hs
      have hp : ¬(peek s ['&']).1 = true := by
        rwa [peek_iff (by decide), hs']
      rw [if_neg hp]
      exact Or.inr ⟨_, rfl, by simpa using hs'⟩
    | succ k =>
      have hs' : tokens s = .sym '&' :: (List.replicate k (.sym '&') ++ rest) := hs
      have hp : (peek s ['&']).1 = true := by
        rw [peek_iff (by decide), hs', starts_sym (by decide)]
        decide
      obtain ⟨-, hrest⟩ := gettoken_sym hs'
      rw [if_pos hp, gettoken_peek, Function.iterate_succ_apply]
      exact ih hrest

/-- The words read so far, `argv`, and the redirections between them, `rs`. -/
lemma parseargs_sound (argv : List Word) (hf : (tokens s).length < fuel) (hn : argv.length < MAXARGS) :
    Sound (fun used c => ∃ args : Args, used = argTokens args ∧ argv.length + args.length < MAXARGS ∧
        c = redirs (rs ++ argRedirs args) (.exec (argv ++ args.map Prod.fst))) s
      (parseargs fuel argv.length (redirs rs (.exec argv)) s) := by
  induction fuel generalizing argv rs s with
  | zero => omega
  | succ fuel ih =>
    rw [parseargs]
    split
    · exact sound_ok (by simp) ⟨[], rfl, hn, by simp [argRedirs]⟩
    · simp only [gettoken_peek]
      rcases tokens_cases s with ⟨hs, hret, hrest⟩ | ⟨c, -, hret, hc, hnul⟩ | ⟨hs, hret⟩
      · rw [if_pos hret]
        exact sound_ok (by rw [hs, hrest]) ⟨[], rfl, hn, by simp [argRedirs]⟩
      · rw [hret, if_neg hnul, if_pos hc]
        trivial
      · rw [hret, if_neg (by decide), if_neg (by simp)]
        split
        · trivial
        · rename_i hmax
          rw [hs, List.length_cons] at hf
          apply Sound.cons hs
          apply (parseredirs_sound (by omega)).bind
          rintro used c t hused ⟨rs', rfl, rfl⟩
          have hpush : redirs rs' ((redirs rs (.exec argv)).push (gettoken s).word) =
              redirs (rs ++ rs') (.exec (argv ++ [(gettoken s).word])) := by
            rw [push_redirs, redirs_append]
            rfl
          have hlen : argv.length + 1 = (argv ++ [(gettoken s).word]).length := by simp
          rw [hused, List.length_append] at hf
          simp only [hpush, hlen]
          apply (ih _ (by omega) (by rw [← hlen]; omega)).imp
          rintro us c ⟨args, rfl, hargs, rfl⟩
          refine ⟨((gettoken s).word, rs') :: args, rfl, ?_, ?_⟩
          · simp only [List.length_append, List.length_cons, List.length_nil] at hargs ⊢
            omega
          · simp [argRedirs]

lemma parseargs_yields {argv : List Word} {args : Args} {rest : List Token}
    (hs : tokens s = argTokens args ++ rest) (hn : argv.length + args.length < MAXARGS)
    (hend : rest = [] ∨ ∃ c us, rest = .sym c :: us ∧ c ∈ ['|', ')', '&', ';']) :
    Yields (redirs (rs ++ argRedirs args) (.exec (argv ++ args.map Prod.fst))) rest
      (parseargs fuel argv.length (redirs rs (.exec argv)) s) := by
  induction fuel generalizing argv rs s args with
  | zero => exact Or.inl rfl
  | succ fuel ih =>
    rw [parseargs]
    cases args with
    | nil =>
      have hs' : tokens s = rest := hs
      rcases hend with rfl | ⟨c, us, rfl, hc⟩
      · have hp : ¬(peek s ['|', ')', '&', ';']).1 = true := by
          rw [peek_iff (by decide), hs']
          exact not_starts_nil _
        rw [if_neg hp, gettoken_peek]
        rcases tokens_cases s with ⟨-, hret, hrest⟩ | ⟨c, hc, -⟩ | ⟨hw, -⟩
        · simp only [if_pos hret]
          exact Or.inr ⟨_, by simp [argRedirs], hrest⟩
        · simp [hs'] at hc
        · simp [hs'] at hw
      · have hp : (peek s ['|', ')', '&', ';']).1 = true := by
          rw [peek_iff (by decide), hs', starts_sym]
          · exact hc
          · rintro rfl
            simp at hc
        rw [if_pos hp]
        exact Or.inr ⟨(peek s ['|', ')', '&', ';']).2, by simp [argRedirs], by simpa using hs'⟩
    | cons a args =>
      have hs' : tokens s = .word a.1 :: (redirTokens a.2 ++ (argTokens args ++ rest)) := by
        rw [hs, argTokens, List.flatMap_cons, List.cons_append, List.cons_append, List.append_assoc]
        rfl
      have hp : ¬(peek s ['|', ')', '&', ';']).1 = true := by
        rw [peek_iff (by decide), hs']
        exact not_starts_word _ _
      obtain ⟨hret, hword, hrest⟩ := gettoken_word hs'
      simp only [List.length_cons] at hn
      simp only [if_neg hp, gettoken_peek, hret, hword]
      rw [if_neg (by decide), if_neg (by simp), if_neg (by omega)]
      have hstop : ¬Starts ['<', '>'] (argTokens args ++ rest) := by
        cases args with
        | nil =>
          rcases hend with rfl | ⟨c, us, rfl, hc⟩
          · exact not_starts_nil _
          · change ¬Starts _ (.sym c :: us)
            simp only [List.mem_cons, List.not_mem_nil, or_false] at hc
            rcases hc with rfl | rfl | rfl | rfl <;> rw [starts_sym (by decide)] <;> decide
        | cons b args => exact not_starts_word _ _
      apply (parseredirs_yields hrest hstop).bind
      intro t ht
      have hpush : redirs a.2 ((redirs rs (.exec argv)).push a.1) =
          redirs (rs ++ a.2) (.exec (argv ++ [a.1])) := by
        rw [push_redirs, redirs_append]
        rfl
      have hlen : argv.length + 1 = (argv ++ [a.1]).length := by simp
      simp only [hpush, hlen]
      have hargs : redirs (rs ++ argRedirs (a :: args)) (.exec (argv ++ (a :: args).map Prod.fst)) =
          redirs ((rs ++ a.2) ++ argRedirs args) (.exec ((argv ++ [a.1]) ++ args.map Prod.fst)) := by
        simp [argRedirs]
      rw [hargs]
      exact ih ht (by rw [← hlen]; omega)

/-- What may stand behind a derivation that the parser has read. -/
def Nonterminal.follow : Nonterminal → List Char
  | .line => [')']
  | .pipe => [')', '&', ';']
  | .exec => ['|', ')', '&', ';']

def Nonterminal.parse : Nonterminal → ℕ → List Char → Outcome (Cmd Word × List Char)
  | .line => parseline
  | .pipe => parsepipe
  | .exec => parseexec

/-- What comes behind a derivation does not go on with it. -/
def Follow (n : Nonterminal) (ts : List Token) : Prop := ts = [] ∨ ∃ c us, ts = .sym c :: us ∧ c ∈ n.follow

/-- What the functions do with enough fuel, by induction on the fuel: a call at the same place has
less to do, and behind a token the line is shorter. -/
theorem parse_sound (fuel : ℕ) : ∀ s,
    (4 * (tokens s).length + 5 ≤ fuel → Sound (Derives .line) s (parseline fuel s)) ∧
    (4 * (tokens s).length + 4 ≤ fuel → Sound (Derives .pipe) s (parsepipe fuel s)) ∧
    (4 * (tokens s).length + 3 ≤ fuel → Sound (Derives .exec) s (parseexec fuel s)) ∧
    (4 * (tokens s).length + 2 ≤ fuel → Sound (Derives .exec) s (parseblock fuel s)) := by
  induction fuel with
  | zero =>
    intro s
    refine ⟨?_, ?_, ?_, ?_⟩ <;> omega
  | succ fuel ih =>
    intro s
    have hshort : ∀ us {c t}, c ≠ '>' → (peek t [c]).1 = true → [c].all (· ∈ symbols) = true →
        tokens s = us ++ tokens t → tokens t = .sym c :: tokens (gettoken t).rest ∧
          (tokens (gettoken t).rest).length < (tokens s).length := by
      intro us c t hc hp hsub hs
      obtain ⟨vs, ht⟩ := sym_of_starts hc ((peek_iff hsub).1 hp)
      have hrest := (gettoken_sym ht).2
      rw [hrest]
      refine ⟨ht, ?_⟩
      rw [hs, ht, List.length_append, List.length_cons]
      omega
    refine ⟨fun hf => ?_, fun hf => ?_, fun hf => ?_, fun hf => ?_⟩
    · rw [parseline]
      apply ((ih s).2.1 (by omega)).bind
      intro ts c t ht hc
      have hlen : (tokens t).length ≤ (tokens s).length := by
        rw [ht, List.length_append]
        omega
      apply (parsebacks_sound (by omega)).bind
      rintro _ _ u hu ⟨k, rfl, rfl⟩
      split
      · rename_i hp
        have hsu : tokens s = (ts ++ List.replicate k (.sym '&')) ++ tokens u := by
          rw [ht, hu, List.append_assoc]
        obtain ⟨hu', hlt⟩ := hshort _ (by decide) hp (by decide) hsu
        rw [gettoken_peek]
        apply Sound.cons hu'
        apply ((ih _).1 (by omega)).bind
        intro us d v hv hd
        apply sound_ok rfl
        rw [List.append_nil]
        exact .listed k hc hd
      · apply sound_ok (by simp)
        rw [List.append_nil]
        exact .plain k hc
    · rw [parsepipe]
      apply ((ih s).2.2.1 (by omega)).bind
      intro ts c t ht hc
      split
      · rename_i hp
        obtain ⟨ht', hlt⟩ := hshort _ (by decide) hp (by decide) ht
        rw [gettoken_peek]
        apply Sound.cons ht'
        apply ((ih _).2.1 (by omega)).bind
        intro us d v hv hd
        apply sound_ok rfl
        rw [List.append_nil]
        exact .piped hc hd
      · apply sound_ok (by simp)
        rw [List.append_nil]
        exact .single hc
    · rw [parseexec]
      split
      · have := (ih (peek s ['(']).2).2.2.2 (by rw [tokens_peek]; omega)
        rw [Sound.eq_def] at this ⊢
        simpa using this
      · apply Sound.bind (P := fun used c => ∃ rs, used = redirTokens rs ∧ c = redirs rs (.exec []))
        · have hread : Sound (fun used c => ∃ rs, used = redirTokens rs ∧ c = redirs rs (.exec [])) (peek s ['(']).2
              (parseredirs fuel (.exec []) (peek s ['(']).2) := parseredirs_sound (by rw [tokens_peek]; omega)
          rw [Sound.eq_def] at hread ⊢
          simpa using hread
        · rintro used c t ht ⟨rs, rfl, rfl⟩
          have hlen : (tokens t).length ≤ (tokens s).length := by
            rw [ht, List.length_append]
            omega
          apply (parseargs_sound [] (by omega) (by decide)).imp
          rintro us c ⟨args, rfl, hargs, rfl⟩
          exact .simple rs args (by simpa using hargs)
    · rw [parseblock]
      split
      · rename_i hp
        obtain ⟨hs', hlt⟩ := hshort [] (by decide) hp (by decide) rfl
        rw [gettoken_peek]
        apply Sound.cons hs'
        apply ((ih _).1 (by omega)).bind
        intro ts c t ht hc
        split
        · rename_i hp'
          obtain ⟨ht', hlt'⟩ := hshort (.sym '(' :: ts) (by decide) hp' (by decide) (by rw [hs', ht]; rfl)
          rw [gettoken_peek]
          apply Sound.cons ht'
          apply (parseredirs_sound (by omega)).imp
          rintro us d ⟨rs, rfl, rfl⟩
          exact .block rs hc
        · trivial
      · trivial

lemma Follow.not_starts {n : Nonterminal} {toks : List Char} {ts : List Token} (h : Follow n ts)
    (hn : n.follow.all (· ∉ toks) = true) : ¬Starts toks ts := by
  rcases h with rfl | ⟨c, us, rfl, hc⟩
  · exact not_starts_nil _
  · have hplus : c ≠ '+' := by
      rintro rfl
      cases n <;> simp [Nonterminal.follow] at hc
    rw [starts_sym hplus]
    simpa using List.all_eq_true.1 hn c hc

lemma Follow.imp {n m : Nonterminal} {ts : List Token} (h : Follow n ts)
    (hn : n.follow.all (· ∈ m.follow) = true) :
    Follow m ts := by
  rcases h with rfl | ⟨c, us, rfl, hc⟩
  · exact Or.inl rfl
  · exact Or.inr ⟨c, us, rfl, by simpa using List.all_eq_true.1 hn c hc⟩

lemma peek_false {toks : List Char} (hsub : toks.all (· ∈ symbols) = true) (h : ¬Starts toks (tokens s)) :
    ¬(peek s toks).1 = true := by
  rwa [peek_iff hsub]

lemma peek_true {c : Char} {toks : List Char} {us : List Token} (hsub : toks.all (· ∈ symbols) = true)
    (hs : tokens s = .sym c :: us) (hplus : c ≠ '+') (hc : c ∈ toks) : (peek s toks).1 = true := by
  rwa [peek_iff hsub, hs, starts_sym hplus]

/-- A derivation is read to its end and no further. -/
theorem parse_yields {n : Nonterminal} {ts : List Token} {c : Cmd Word} (h : Derives n ts c) :
    ∀ fuel s rest, Follow n rest → tokens s = ts ++ rest → Yields c rest (n.parse fuel s) := by
  induction h with
  | @block ts c rs hline ih =>
    intro fuel s rest hrest hs
    change Yields _ _ (parseexec fuel s)
    cases fuel with
    | zero => exact Or.inl (by rw [parseexec])
    | succ fuel =>
      have hs' : tokens s = .sym '(' :: (ts ++ (.sym ')' :: (redirTokens rs ++ rest))) := by
        rw [hs]
        simp
      rw [parseexec, if_pos (peek_true (by decide) hs' (by decide) (by decide))]
      cases fuel with
      | zero => exact Or.inl (by rw [parseblock])
      | succ fuel =>
        have hs'' : tokens (peek s ['(']).2 = .sym '(' :: (ts ++ (.sym ')' :: (redirTokens rs ++ rest))) := by
          rw [tokens_peek, hs']
        rw [parseblock, if_pos (peek_true (by decide) hs'' (by decide) (by decide))]
        have hbody := ih fuel (gettoken (peek (peek s ['(']).2 ['(']).2).rest _
          (Or.inr ⟨')', _, rfl, by decide⟩) (gettoken_sym (by rw [tokens_peek, hs''])).2
        apply Yields.bind hbody
        intro t ht
        rw [if_pos (peek_true (by decide) ht (by decide) (by decide))]
        apply parseredirs_yields
        · exact (gettoken_sym (by rw [tokens_peek, ht])).2
        · exact hrest.not_starts (by decide)
  | simple rs args hmax =>
    intro fuel s rest hrest hs
    change Yields _ _ (parseexec fuel s)
    cases fuel with
    | zero => exact Or.inl (by rw [parseexec])
    | succ fuel =>
      have hs' : tokens s = redirTokens rs ++ (argTokens args ++ rest) := by
        rw [hs, List.append_assoc]
      have hstop : ∀ toks, toks = ['<', '>'] ∨ toks = ['('] → ¬Starts toks (argTokens args ++ rest) := by
        intro toks htoks
        cases args with
        | nil =>
          apply hrest.not_starts
          rcases htoks with rfl | rfl <;> decide
        | cons a args => exact not_starts_word _ _
      have hopen : ¬Starts ['('] (tokens s) := by
        rw [hs']
        cases rs with
        | nil => exact hstop _ (Or.inr rfl)
        | cons r rs =>
          cases r <;> simp [Starts, Redirection.tokens, Token.starts]
      rw [parseexec, if_neg (peek_false (by decide) hopen)]
      apply Yields.bind (parseredirs_yields (by rw [tokens_peek, hs']) (hstop _ (Or.inl rfl)))
      intro t ht
      have hread : Yields (redirs (rs ++ argRedirs args) (.exec ([] ++ args.map Prod.fst))) rest
          (parseargs fuel ([] : List Word).length (redirs rs (.exec [])) t) :=
        parseargs_yields ht (by simpa using hmax) hrest
      simpa using hread
  | @single ts c hexec ih =>
    intro fuel s rest hrest hs
    change Yields _ _ (parsepipe fuel s)
    cases fuel with
    | zero => exact Or.inl (by rw [parsepipe])
    | succ fuel =>
      rw [parsepipe]
      apply Yields.bind (ih fuel s rest (hrest.imp (by decide)) hs)
      intro t ht
      rw [if_neg (peek_false (by decide) (by rw [ht]; exact hrest.not_starts (by decide)))]
      exact Or.inr ⟨_, rfl, by simpa using ht⟩
  | @piped ts us c d hexec hpipe ihe ihp =>
    intro fuel s rest hrest hs
    change Yields _ _ (parsepipe fuel s)
    cases fuel with
    | zero => exact Or.inl (by rw [parsepipe])
    | succ fuel =>
      rw [parsepipe]
      have hs' : tokens s = ts ++ (.sym '|' :: (us ++ rest)) := by
        rw [hs]
        simp
      apply Yields.bind (ihe fuel s _ (Or.inr ⟨'|', _, rfl, by decide⟩) hs')
      intro t ht
      rw [if_pos (peek_true (by decide) ht (by decide) (by decide))]
      apply Yields.bind (ihp fuel _ rest hrest (gettoken_sym (by rw [tokens_peek, ht])).2)
      intro u hu
      exact Or.inr ⟨u, rfl, hu⟩
  | @plain ts c k hpipe ih =>
    intro fuel s rest hrest hs
    change Yields _ _ (parseline fuel s)
    cases fuel with
    | zero => exact Or.inl (by rw [parseline])
    | succ fuel =>
      rw [parseline]
      have hs' : tokens s = ts ++ (List.replicate k (.sym '&') ++ rest) := by
        rw [hs, List.append_assoc]
      have hfollow : Follow .pipe (List.replicate k (.sym '&') ++ rest) := by
        cases k with
        | zero => exact hrest.imp (by decide)
        | succ k => exact Or.inr ⟨'&', _, rfl, by decide⟩
      apply Yields.bind (ih fuel s _ hfollow hs')
      intro t ht
      apply Yields.bind (parsebacks_yields ht (hrest.not_starts (by decide)))
      intro u hu
      rw [if_neg (peek_false (by decide) (by rw [hu]; exact hrest.not_starts (by decide)))]
      exact Or.inr ⟨_, rfl, by simpa using hu⟩
  | @listed ts us c d k hpipe hline ihp ihl =>
    intro fuel s rest hrest hs
    change Yields _ _ (parseline fuel s)
    cases fuel with
    | zero => exact Or.inl (by rw [parseline])
    | succ fuel =>
      rw [parseline]
      have hs' : tokens s = ts ++ (List.replicate k (.sym '&') ++ (.sym ';' :: (us ++ rest))) := by
        rw [hs]
        simp
      have hfollow : Follow .pipe (List.replicate k (.sym '&') ++ (.sym ';' :: (us ++ rest))) := by
        cases k with
        | zero => exact Or.inr ⟨';', _, rfl, by decide⟩
        | succ k => exact Or.inr ⟨'&', _, rfl, by decide⟩
      apply Yields.bind (ihp fuel s _ hfollow hs')
      intro t ht
      apply Yields.bind (parsebacks_yields ht (by rw [starts_sym (by decide)]; decide))
      intro u hu
      rw [if_pos (peek_true (by decide) hu (by decide) (by decide))]
      apply Yields.bind (ihl fuel _ rest hrest (gettoken_sym (by rw [tokens_peek, hu])).2)
      intro v hv
      exact Or.inr ⟨v, rfl, hv⟩

end Os132.Shell

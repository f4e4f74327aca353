import Os132.Shell.Words

/-!
# The terminators in the buffer

`nulterminate` on the whole buffer that holds the line: the line, its final NUL and what stands
behind it. Every store falls on the character behind a word of the tree, which is a blank, an
operator or the final NUL, so no word of the line is cut and nothing behind the line is touched.
-/

namespace Os132.Shell

/-- `*p = 0` in the buffer of a line of `n` characters, where `p` points into the line. -/
def terminateAt (n : ℕ) (buf p : List Char) : List Char := buf.set (n - p.length) NUL

/-- `nulterminate` on the buffer of a line of `n` characters. -/
def nulterminateBuf (n : ℕ) : Cmd Word → List Char → List Char
  | .exec argv, buf => argv.foldl (fun buf w => terminateAt n buf w.2) buf
  | .redir cmd file _ _, buf => terminateAt n (nulterminateBuf n cmd buf) file.2
  | .pipe left right, buf => nulterminateBuf n right (nulterminateBuf n left buf)
  | .list left right, buf => nulterminateBuf n right (nulterminateBuf n left buf)
  | .back cmd, buf => nulterminateBuf n cmd buf

/-- The argument vectors of the exec nodes. -/
def Cmd.argvs {W : Type} : Cmd W → List (List W)
  | .exec argv => [argv]
  | .redir cmd _ _ _ => cmd.argvs
  | .pipe left right => left.argvs ++ right.argvs
  | .list left right => left.argvs ++ right.argvs
  | .back cmd => cmd.argvs

/-- The buffer `buf` with a line after `nulterminate` of the tree of the line. -/
def finished (tree : Cmd Word) (buf : List Char) : List Char := nulterminateBuf (cstring buf).length tree buf

/-- Where a pointer into the line of `buf` leads. -/
def offset (buf p : List Char) : ℕ := (cstring buf).length - p.length

structure Terminated (buf : List Char) (tree : Cmd Word) : Prop where
  /-- The string at the begin of a word of the tree is the text of its token. -/
  read : ∀ w ∈ tree.words, .word w ∈ tokens (cstring buf) ∧ ∃ text, IsWord (cstring buf) w text ∧
    cstring ((finished tree buf).drop (offset buf w.1)) = text
  /-- The stores are the terminators of the words, and no others. -/
  stored : ∀ i, i < buf.length → (finished tree buf)[i]? =
    if ∃ w ∈ tree.words, i = offset buf w.2 then some NUL else buf[i]?
  /-- No terminator falls inside a word. -/
  apart : ∀ w ∈ tree.words, ∀ v ∈ tree.words, ¬ (offset buf v.1 ≤ offset buf w.2 ∧ offset buf w.2 < offset buf v.2)
  /-- Nor behind the final NUL. -/
  inside : ∀ w ∈ tree.words, offset buf w.2 ≤ (cstring buf).length ∧ (cstring buf).length < buf.length
  argv : ∀ argv ∈ tree.argvs, argv.length < MAXARGS

variable {s rest text p : List Char} {c cmd : Cmd Word} {n : Nonterminal} {ts : List Token} {w v : Word}
  {argv : List Word}

lemma terminateAt_eq : terminateAt s.length (s ++ NUL :: rest) p = terminate s p ++ NUL :: rest := by
  rw [terminateAt, terminate]
  by_cases hp : s.length - p.length < s.length
  · rw [List.set_append_left _ _ hp]
  · have hend : s.length - p.length = s.length := by omega
    rw [hend, List.set_append_right _ _ (Nat.le_refl _), Nat.sub_self, List.set_cons_zero,
      List.set_eq_of_length_le (Nat.le_refl _)]

lemma foldl_terminateAt (ws : List Word) (s : List Char) :
    ws.foldl (fun buf w => terminateAt s.length buf w.2) (s ++ NUL :: rest) =
      ws.foldl (fun buf w => terminate buf w.2) s ++ NUL :: rest := by
  induction ws generalizing s with
  | nil => rfl
  | cons w ws ih =>
    rw [List.foldl_cons, List.foldl_cons, terminateAt_eq, ← ih (terminate s w.2), terminate_length]

lemma nulterminate_length (c : Cmd Word) (s : List Char) : (nulterminate c s).length = s.length := by
  rw [nulterminate_eq, foldl_terminate_length]

/-- What stands behind the line stays, with its final NUL. -/
lemma nulterminateBuf_eq (c : Cmd Word) (s : List Char) :
    nulterminateBuf s.length c (s ++ NUL :: rest) = nulterminate c s ++ NUL :: rest := by
  induction c generalizing s with
  | exec argv => exact foldl_terminateAt argv s
  | redir cmd file mode fd ih =>
    have hlen := nulterminate_length cmd s
    rw [nulterminateBuf, ih, nulterminate, ← terminateAt_eq, hlen]
  | pipe left right ihl ihr =>
    have hlen := nulterminate_length left s
    rw [nulterminateBuf, ihl, nulterminate, ← ihr, hlen]
  | list left right ihl ihr =>
    have hlen := nulterminate_length left s
    rw [nulterminateBuf, ihl, nulterminate, ← ihr, hlen]
  | back cmd ih => exact ih s

lemma cstring_append (s rest : List Char) : cstring (s ++ NUL :: rest) = cstring s := by
  induction s with
  | nil => simp [cstring]
  | cons c s ih =>
    by_cases hc : c = NUL
    · simp [cstring, hc]
    · have hcons : ∀ t, cstring (c :: t) = c :: cstring t := by
        intro t
        simp [cstring, hc]
      rw [List.cons_append, hcons, hcons, ih]

lemma argvs_redirs (rs : List Redirection) (cmd : Cmd Word) : (redirs rs cmd).argvs = cmd.argvs := by
  induction rs generalizing cmd with
  | nil => rfl
  | cons r rs ih =>
    have hr : (Redirection.around cmd r).argvs = cmd.argvs := by cases r <;> rfl
    rw [← hr, ← ih (Redirection.around cmd r)]
    rfl

lemma argvs_back (k : ℕ) (cmd : Cmd Word) : (Cmd.back^[k] cmd).argvs = cmd.argvs := by
  induction k generalizing cmd with
  | zero => rfl
  | succ k ih =>
    have hback : (Cmd.back cmd).argvs = cmd.argvs := rfl
    rw [Function.iterate_succ_apply, ih, hback]

/-- The parser leaves room for the null behind the arguments. -/
lemma argvs_of_derives (h : Derives n ts c) (ha : argv ∈ c.argvs) : argv.length < MAXARGS := by
  induction h with
  | block rs hline ih =>
    rw [argvs_redirs] at ha
    exact ih ha
  | simple rs args hmax =>
    rw [argvs_redirs, Cmd.argvs, List.mem_singleton] at ha
    rwa [ha, List.length_map]
  | single hexec ih => exact ih ha
  | piped hexec hpipe ihe ihp =>
    rcases List.mem_append.1 ha with ha | ha
    · exact ihe ha
    · exact ihp ha
  | plain k hpipe ih =>
    rw [argvs_back] at ha
    exact ih ha
  | listed k hpipe hline ihp ihl =>
    rcases List.mem_append.1 ha with ha | ha
    · rw [argvs_back] at ha
      exact ihp ha
    · exact ihl ha

lemma cstring_split {buf : List Char} (h : NUL ∈ buf) : ∃ behind, buf = cstring buf ++ NUL :: behind := by
  have hsplit := List.takeWhile_append_dropWhile (p := fun c => decide (c ≠ NUL)) (l := buf)
  cases hd : buf.dropWhile (fun c => decide (c ≠ NUL)) with
  | nil =>
    rw [hd, List.append_nil] at hsplit
    rw [← hsplit] at h
    have hne := List.mem_takeWhile_imp h
    exact absurd hne (by simp)
  | cons d behind =>
    have hnul := List.head?_dropWhile_not (fun c => decide (c ≠ NUL)) buf
    rw [hd] at hnul hsplit
    have hd' : d = NUL := by simpa using hnul
    exact ⟨behind, by rw [← hd']; exact hsplit.symm⟩

lemma finished_eq {buf behind : List Char} {tree : Cmd Word} (h : buf = cstring buf ++ NUL :: behind) :
    finished tree buf = nulterminate tree (cstring buf) ++ NUL :: behind := by
  rw [finished, ← nulterminateBuf_eq, ← h]

/-- The stores for words of the line, in a buffer that holds it. -/
lemma terminated_of_words {buf : List Char} {tree : Cmd Word} (hnul : NUL ∈ buf)
    (hd : Derives .line (tokens (cstring buf)) tree) : Terminated buf tree := by
  obtain ⟨behind, hbuf⟩ := cstring_split hnul
  have hfin : finished tree buf = nulterminate tree (cstring buf) ++ NUL :: behind := finished_eq hbuf
  have hno : ∀ d ∈ cstring buf, d ≠ NUL := fun d hd => by simpa using List.mem_takeWhile_imp hd
  have hall : ∀ v ∈ tree.words, ∃ u, IsWord (cstring buf) v u :=
    fun v hv => isWord_of_mem_tokens (mem_of_derives hd hv)
  have hlen : (nulterminate tree (cstring buf)).length = (cstring buf).length := nulterminate_length tree _
  constructor
  · intro w hw
    obtain ⟨text, htext⟩ := hall w hw
    refine ⟨mem_of_derives hd hw, text, htext, ?_⟩
    have hle : offset buf w.1 ≤ (nulterminate tree (cstring buf)).length := by
      rw [hlen]
      exact Nat.sub_le _ _
    rw [hfin, List.drop_append_of_le_length hle, cstring_append]
    exact read_word hno hall hw htext
  · intro i hi
    rw [hfin]
    by_cases hlt : i < (cstring buf).length
    · rw [List.getElem?_append_left (by rw [hlen]; exact hlt), nulterminate_eq, foldl_terminate _ _ hlt]
      simp only [offset]
      congr 1
      conv_rhs => rw [hbuf, List.getElem?_append_left hlt]
    · rw [List.getElem?_append_right (by omega), hlen]
      have hself : buf[i]? = (NUL :: behind)[i - (cstring buf).length]? := by
        conv_lhs => rw [hbuf, List.getElem?_append_right (by omega)]
      rw [hself]
      split_ifs with hw
      · obtain ⟨w, -, hw⟩ := hw
        have hz : i - (cstring buf).length = 0 := by
          rw [offset] at hw
          omega
        rw [hz]
        rfl
      · rfl
  · rintro w hw v hv ⟨hlo, hhi⟩
    obtain ⟨u, hu⟩ := hall w hw
    obtain ⟨text, htext⟩ := hall v hv
    have hv1 : v.1.length = text.length + v.2.length := by
      conv_lhs => rw [htext.eq]
      exact List.length_append
    have hle := htext.suffix.length_le
    simp only [offset] at hlo hhi
    exact htext.not_inside hu (j := (cstring buf).length - w.2.length - ((cstring buf).length - v.1.length))
      (by omega) (by omega)
  · intro w _
    refine ⟨Nat.sub_le _ _, ?_⟩
    have hl := congrArg List.length hbuf
    rw [List.length_append, List.length_cons] at hl
    omega
  · exact fun argv ha => argvs_of_derives hd ha

/-- For every line that `parsecmd` accepts, in any buffer: what `nulterminate` stores. -/
theorem parsecmd_terminated (s rest : List Char) : ∃ N, ∀ fuel, N ≤ fuel → ∀ tree line,
    parsecmd fuel (s ++ NUL :: rest) = .ok (tree, line) → Terminated (s ++ NUL :: rest) tree := by
  refine ⟨4 * (tokens (cstring (s ++ NUL :: rest))).length + 5, fun fuel hfuel tree line h => ?_⟩
  have hnul : NUL ∈ s ++ NUL :: rest := List.mem_append_right s List.mem_cons_self
  exact terminated_of_words hnul (parsecmd_ok hfuel h).1

end Os132.Shell

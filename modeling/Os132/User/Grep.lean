import Os132.User.Regex
import Os132.Lib.Fields

/-!
# The loop of grep

`grep` keeps the last line that is not complete at the front of its buffer and reads behind it. It
looks for newlines up to a NUL that nothing has put behind the input, so the text that earlier
chunks left there decides what it does; and it drops an incomplete line when a chunk has completed
none. `none` is an access outside the buffer, or a loop that has not come to its end.
-/

namespace Os132.User

namespace Grep

def NUL : Char := Char.ofNat 0

/-- `sizeof(buf)`. -/
def SIZE : ℕ := 1024

/-- `strchr(s, c)` for the characters of the array from index `i` on, the index of what it finds. -/
def strchr (c : Char) : List Char → ℕ → Option (Option ℕ)
  | [], _ => none
  | d :: s, i => if d = NUL then some none else if d = c then some (some i) else strchr c s (i + 1)

/-- The variables of `grep`, with `p` as an index into `buf`, and what was written so far. -/
structure State where
  buf : List Char
  m : ℤ
  p : ℕ
  out : List Char

/-- The loop over the newlines in the buffer. -/
def scan (pattern : List Char) : ℕ → State → Option State
  | 0, _ => none
  | fuel + 1, s =>
    (strchr '\n' (s.buf.drop s.p) s.p).bind fun q =>
      q.elim (some s) fun q =>
        let cut := s.buf.set q NUL
        if matchRe pattern ((cut.drop s.p).takeWhile (· ≠ NUL)) then
          let buf := cut.set q '\n'
          scan pattern fuel { s with buf := buf, p := q + 1, out := s.out ++ (buf.drop s.p).take (q + 1 - s.p) }
        else scan pattern fuel { s with buf := cut, p := q + 1 }

/-- `memmove(buf, p, m)`, for `p + m` at most the size. -/
def moveFront (buf : List Char) (p : ℕ) (m : ℤ) : List Char := (buf.drop p).take m.toNat ++ buf.drop m.toNat

/-- `read(fd, buf+m, sizeof(buf)-m)` puts a chunk into the buffer. -/
def fill (s : State) (chunk : List Char) : List Char :=
  s.buf.take s.m.toNat ++ chunk ++ s.buf.drop (s.m.toNat + chunk.length)

/-- What follows the scan: the line that is not complete moves to the front. -/
def shift (s : State) : State :=
  let m := if s.p = 0 then 0 else s.m
  if 0 < m then { s with buf := moveFront s.buf s.p (m - s.p), m := m - s.p } else { s with m := m }

/-- The body of the outer loop, after `read` has returned a chunk. -/
def pass (pattern : List Char) (s : State) (chunk : List Char) : Option State :=
  if s.m < 0 ∨ SIZE < s.m + chunk.length then none
  else
    (scan pattern (SIZE + 1) { s with buf := fill s chunk, m := s.m + chunk.length, p := 0 }).map shift

/-- `grep`, for the chunks that `read` returns until it returns none. -/
def grep (pattern : List Char) : List (List Char) → State → Option State
  | [], s => some s
  | chunk :: chunks, s => (pass pattern s chunk).bind (grep pattern chunks)

def start (buf : List Char) : State := ⟨buf, 0, 0, []⟩

/-- The lines of a text that end in a newline and match, in order. -/
def matching (pattern text : List Char) : List Char :=
  ((Fields.closed '\n' text).filter (matchRe pattern)).flatMap (· ++ ['\n'])

/-- Every chunk has a character and no NUL, and fits behind what is in the buffer. -/
def Reads (pattern : List Char) : List (List Char) → State → Prop
  | [], _ => True
  | chunk :: chunks, s => chunk ≠ [] ∧ NUL ∉ chunk ∧ s.m + chunk.length ≤ SIZE ∧
      ∀ s', pass pattern s chunk = some s' → Reads pattern chunks s'

/-- What stands behind the input has a NUL, and no newline before it. -/
def Sealed (stale : List Char) : Prop := ∃ z y, stale = z ++ NUL :: y ∧ '\n' ∉ z

/-- After every read the old text behind the input is sealed, and the input in the buffer has a
newline, unless none follows. -/
def Clear (pattern : List Char) : List (List Char) → State → Prop
  | [], _ => True
  | chunk :: chunks, s => Sealed ((fill s chunk).drop (s.m.toNat + chunk.length)) ∧
      ('\n' ∈ (fill s chunk).take (s.m.toNat + chunk.length) ∨ '\n' ∉ chunks.flatten) ∧
      ∀ s', pass pattern s chunk = some s' → Clear pattern chunks s'

variable {pattern text rest chunk stale f r w y : List Char} {chunks : List (List Char)} {s : State} {i k fuel : ℕ}

lemma strchr_none (h : '\n' ∉ w) : strchr '\n' (w ++ NUL :: y) i = some none := by
  induction w generalizing i with
  | nil => rw [List.nil_append, strchr, if_pos rfl]
  | cons c w ih =>
    rw [List.mem_cons, not_or] at h
    rw [List.cons_append, strchr, ih h.2]
    split_ifs with h1 h2
    · rfl
    · exact absurd h2.symm h.1
    · rfl

lemma strchr_some (h : '\n' ∉ f) (hnul : NUL ∉ f) : strchr '\n' (f ++ '\n' :: y) i = some (some (i + f.length)) := by
  induction f generalizing i with
  | nil => simp [strchr, NUL]
  | cons c f ih =>
    rw [List.mem_cons, not_or] at h hnul
    rw [List.cons_append, strchr, if_neg (Ne.symm hnul.1), if_neg (Ne.symm h.1), ih h.2 hnul.2, List.length_cons]
    congr 2
    omega

lemma matching_of_notMem (h : '\n' ∉ text) : matching pattern text = [] := by
  rw [matching, Fields.closed_of_notMem h]
  rfl

lemma matching_line (h : '\n' ∉ f) : matching pattern (f ++ '\n' :: r) =
    (if matchRe pattern f then f ++ ['\n'] else []) ++ matching pattern r := by
  rw [matching, Fields.closed_append h, List.filter_cons]
  split_ifs with hm
  · rfl
  · rfl

lemma matching_add : matching pattern (text ++ r) = matching pattern text ++ matching pattern (Fields.last '\n' text ++ r) := by
  rw [matching, Fields.closed_add, List.filter_append, List.flatMap_append]
  rfl

/-- What a scan of the text `text`, with the old text `stale` behind it, leaves. -/
structure Scanned (pattern text stale : List Char) (s s' : State) : Prop where
  out : s'.out = s.out ++ matching pattern text
  m : s'.m = s.m
  p : s'.p + (Fields.last '\n' text).length = s.p + text.length
  drop : s'.buf.drop s'.p = Fields.last '\n' text ++ stale
  length : s'.buf.length = s.buf.length

/-- One line of the scan: the text is cut at the newline, matched and, if it matches, written. -/
lemma scan_line (pattern : List Char) (fuel : ℕ) (hdrop : s.buf.drop s.p = f ++ '\n' :: (r ++ stale)) (hf : '\n' ∉ f) (hnul : NUL ∉ f) :
    ∃ s', scan pattern (fuel + 1) s = scan pattern fuel s' ∧ s'.m = s.m ∧ s'.p = s.p + f.length + 1 ∧
      s'.out = s.out ++ (if matchRe pattern f then f ++ ['\n'] else []) ∧ s'.buf.drop s'.p = r ++ stale ∧
      s'.buf.length = s.buf.length := by
  have hcut : (s.buf.set (s.p + f.length) NUL).drop s.p = f ++ NUL :: (r ++ stale) := by
    rw [List.drop_set, if_neg (by omega), hdrop, Nat.add_sub_cancel_left, List.set_append_right _ _ (Nat.le_refl _),
      Nat.sub_self, List.set_cons_zero]
  have hline : ((s.buf.set (s.p + f.length) NUL).drop s.p).takeWhile (· ≠ NUL) = f := by
    have hpos : ∀ x ∈ f, decide (x ≠ NUL) = true := fun x hx => decide_eq_true fun hn => hnul (hn ▸ hx)
    rw [hcut, List.takeWhile_append_of_pos hpos]
    simp
  have hback : ((s.buf.set (s.p + f.length) NUL).set (s.p + f.length) '\n').drop s.p = f ++ '\n' :: (r ++ stale) := by
    rw [List.drop_set, if_neg (by omega), hcut, Nat.add_sub_cancel_left, List.set_append_right _ _ (Nat.le_refl _),
      Nat.sub_self, List.set_cons_zero]
  have hnext : s.buf.drop (s.p + f.length + 1) = r ++ stale := by
    rw [Nat.add_assoc, ← List.drop_drop, hdrop, ← List.drop_drop, List.drop_left]
    rfl
  have htake : (f ++ '\n' :: (r ++ stale)).take (s.p + f.length + 1 - s.p) = f ++ ['\n'] := by
    have hlen : s.p + f.length + 1 - s.p = f.length + 1 := by omega
    rw [hlen, List.take_append]
    simp
  have hlt : s.p + f.length < s.p + f.length + 1 := Nat.lt_succ_self _
  rw [scan, hdrop, strchr_some hf hnul, Option.bind_some, Option.elim_some]
  simp only [hline]
  by_cases hm : matchRe pattern f = true
  · rw [if_pos hm, hback, htake]
    refine ⟨_, rfl, rfl, rfl, by rw [if_pos hm], ?_, by simp⟩
    change ((s.buf.set _ NUL).set (s.p + f.length) '\n').drop (s.p + f.length + 1) = r ++ stale
    rw [List.drop_set_of_lt hlt, List.drop_set_of_lt hlt]
    exact hnext
  · rw [if_neg hm]
    refine ⟨_, rfl, rfl, rfl, by rw [if_neg hm, List.append_nil], ?_, by simp⟩
    change (s.buf.set (s.p + f.length) NUL).drop (s.p + f.length + 1) = r ++ stale
    rw [List.drop_set_of_lt hlt]
    exact hnext

/-- The scan ends behind the last newline of the input. -/
lemma scan_spec (pattern text : List Char) (hstale : Sealed stale) : ∀ fuel s, text.length < fuel → NUL ∉ text →
    s.buf.drop s.p = text ++ stale → ∃ s', scan pattern fuel s = some s' ∧ Scanned pattern text stale s s' := by
  induction text using Fields.cut_induction '\n' with
  | last t h =>
    intro fuel s hfuel _ hdrop
    obtain ⟨fuel, rfl⟩ := Nat.exists_eq_add_of_lt (Nat.zero_lt_of_lt hfuel)
    obtain ⟨z, y, rfl, hz⟩ := hstale
    have hno : '\n' ∉ t ++ z := by simp [h, hz]
    refine ⟨s, ?_, ?_⟩
    · rw [scan, hdrop, ← List.append_assoc, strchr_none hno]
      rfl
    · constructor
      · rw [matching_of_notMem h, List.append_nil]
      · rfl
      · rw [Fields.last_of_notMem h]
      · rw [Fields.last_of_notMem h, hdrop]
      · rfl
  | closed f r hf ih =>
    intro fuel s hfuel hnul hdrop
    rw [List.length_append, List.length_cons] at hfuel
    obtain ⟨fuel, rfl⟩ : ∃ n, fuel = n + 1 := ⟨fuel - 1, by omega⟩
    have hnulf : NUL ∉ f := fun h => hnul (List.mem_append_left _ h)
    have hnulr : NUL ∉ r := fun h => hnul (List.mem_append_right f (List.mem_cons_of_mem _ h))
    obtain ⟨s₁, hscan, hm, hp, hout, hdrop₁, hlen⟩ :=
      scan_line pattern fuel (show s.buf.drop s.p = f ++ '\n' :: (r ++ stale) by simpa using hdrop) hf hnulf
    obtain ⟨s', hs', h⟩ := ih fuel s₁ (by omega) hnulr hdrop₁
    refine ⟨s', by rw [hscan, hs'], ?_⟩
    constructor
    · rw [h.out, hout, matching_line hf, List.append_assoc]
    · rw [h.m, hm]
    · have := h.p
      rw [Fields.last_append hf, List.length_append, List.length_cons]
      omega
    · rw [Fields.last_append hf, h.drop]
    · rw [h.length, hlen]

lemma shift_out : (shift s).out = s.out := by
  unfold shift
  dsimp only
  split_ifs <;> rfl

lemma shift_zero (hp : s.p = 0) : shift s = { s with m := 0 } := by
  rw [shift, if_pos hp]
  rfl

lemma shift_pos (hp : s.p ≠ 0) (hm : 0 < s.m) :
    shift s = { s with buf := moveFront s.buf s.p (s.m - s.p), m := s.m - s.p } := by
  simp only [shift, if_neg hp, if_pos hm]

/-- Between two reads the front of the buffer holds the line that is not complete. -/
structure Holds (rest : List Char) (s : State) : Prop where
  m : s.m = rest.length
  take : s.buf.take rest.length = rest
  length : s.buf.length = SIZE
  line : '\n' ∉ rest
  nul : NUL ∉ rest

lemma Holds.fill (h : Holds rest s) : fill s chunk = (rest ++ chunk) ++ s.buf.drop (rest.length + chunk.length) := by
  have hm : s.m.toNat = rest.length := by rw [h.m, Int.toNat_natCast]
  rw [Grep.fill, hm, h.take]

/-- A pass writes the lines that match and holds what stands behind the last newline; without a newline
it holds nothing. -/
lemma pass_spec (pattern : List Char) (h : Holds rest s) (hne : chunk ≠ []) (hnul : NUL ∉ chunk) (hfit : s.m + chunk.length ≤ SIZE)
    (hstale : Sealed (s.buf.drop (rest.length + chunk.length))) :
    ∃ s', pass pattern s chunk = some s' ∧ s'.out = s.out ++ matching pattern (rest ++ chunk) ∧
      Holds (if '\n' ∈ rest ++ chunk then Fields.last '\n' (rest ++ chunk) else []) s' := by
  have hpos : 0 < chunk.length := List.length_pos_iff.mpr hne
  have hlen : rest.length + chunk.length ≤ SIZE := by
    have := h.m
    omega
  have hno : NUL ∉ rest ++ chunk := by simp [h.nul, hnul]
  have hfill : (Grep.fill s chunk).length = s.buf.length := by
    rw [h.fill, List.length_append, List.length_append, List.length_drop, h.length]
    omega
  obtain ⟨s', hs', hscan⟩ := scan_spec pattern (rest ++ chunk) hstale (SIZE + 1)
    { s with buf := Grep.fill s chunk, m := s.m + chunk.length, p := 0 } (by simp; omega) hno h.fill
  have hpass : ¬ (s.m < 0 ∨ SIZE < s.m + chunk.length) := by
    have := h.m
    omega
  have hm' : s'.m = (rest ++ chunk).length := by
    rw [hscan.m, List.length_append]
    simp [h.m]
  have hp := hscan.p
  rw [Nat.zero_add] at hp
  have hbuf : s'.buf.length = SIZE := by rw [hscan.length, hfill, h.length]
  rw [pass, if_neg hpass, hs', Option.map_some]
  refine ⟨shift s', rfl, by rw [shift_out, hscan.out], ?_⟩
  by_cases hn : '\n' ∈ rest ++ chunk
  · have hlt := Fields.length_last_lt hn
    have hlast : s'.m - s'.p = (Fields.last '\n' (rest ++ chunk)).length := by
      rw [hm']
      omega
    have htake : (s'.buf.drop s'.p).take (Fields.last '\n' (rest ++ chunk)).length =
        Fields.last '\n' (rest ++ chunk) := by rw [hscan.drop, List.take_left]
    rw [if_pos hn, shift_pos (show s'.p ≠ 0 by omega) (by rw [hm']; omega), hlast]
    constructor
    · rfl
    · rw [moveFront, Int.toNat_natCast, htake, List.take_left]
    · rw [moveFront, Int.toNat_natCast, htake, List.length_append, List.length_drop, hbuf]
      rw [List.length_append] at hlt
      omega
    · exact Fields.notMem_last '\n' (rest ++ chunk)
    · exact fun hmem => hno (Fields.mem_of_mem_last hmem)
  · have hp0 : s'.p = 0 := by
      rw [Fields.last_of_notMem hn] at hp
      omega
    rw [if_neg hn, shift_zero hp0]
    constructor
    · rfl
    · rfl
    · exact hbuf
    · simp
    · simp

/-- The rest of a run writes the lines that match among what is held and what is still read. -/
lemma grep_spec (chunks : List (List Char)) : ∀ rest s, Holds rest s → Reads pattern chunks s → Clear pattern chunks s →
    ∃ s', grep pattern chunks s = some s' ∧ s'.out = s.out ++ matching pattern (rest ++ chunks.flatten) := by
  induction chunks with
  | nil =>
    intro rest s h _ _
    refine ⟨s, rfl, ?_⟩
    rw [List.flatten_nil, List.append_nil, matching_of_notMem h.line, List.append_nil]
  | cons chunk chunks ih =>
    intro rest s h hreads hclear
    obtain ⟨hne, hnul, hfit, hreads⟩ := hreads
    obtain ⟨hsealed, hline, hclear⟩ := hclear
    have hm : s.m.toNat = rest.length := by rw [h.m, Int.toNat_natCast]
    have hcount : rest.length + chunk.length = (rest ++ chunk).length := List.length_append.symm
    rw [h.fill, hm, hcount, List.drop_left] at hsealed
    rw [h.fill, hm, hcount, List.take_left] at hline
    obtain ⟨s₁, hpass, hout, hholds⟩ := pass_spec pattern h hne hnul hfit (by rwa [hcount])
    obtain ⟨s', hs', hout'⟩ := ih _ s₁ hholds (hreads s₁ hpass) (hclear s₁ hpass)
    refine ⟨s', by rw [grep, hpass, Option.bind_some, hs'], ?_⟩
    rw [hout', hout, List.append_assoc, List.flatten_cons, ← List.append_assoc rest]
    congr 1
    by_cases hn : '\n' ∈ rest ++ chunk
    · rw [if_pos hn, ← matching_add]
    · have hlater : '\n' ∉ chunks.flatten := hline.resolve_left hn
      have hall : '\n' ∉ (rest ++ chunk) ++ chunks.flatten := by
        rw [List.mem_append, not_or]
        exact ⟨hn, hlater⟩
      rw [if_neg hn, List.nil_append, matching_of_notMem hn, matching_of_notMem hlater, matching_of_notMem hall]
      rfl

lemma Reads.take (h : Reads pattern chunks s) : Reads pattern (chunks.take k) s := by
  induction chunks generalizing k s with
  | nil => simpa using h
  | cons chunk chunks ih =>
    cases k with
    | zero => trivial
    | succ k =>
      obtain ⟨hne, hnul, hfit, hlater⟩ := h
      exact ⟨hne, hnul, hfit, fun s' hs' => ih (hlater s' hs')⟩

lemma Clear.take (h : Clear pattern chunks s) : Clear pattern (chunks.take k) s := by
  induction chunks generalizing k s with
  | nil => simpa using h
  | cons chunk chunks ih =>
    cases k with
    | zero => trivial
    | succ k =>
      obtain ⟨hsealed, hline, hlater⟩ := h
      refine ⟨hsealed, hline.imp id fun hno hmem => hno ?_, fun s' hs' => ih (hlater s' hs')⟩
      obtain ⟨l, hl, hin⟩ := List.mem_flatten.mp hmem
      exact List.mem_flatten.mpr ⟨l, List.mem_of_mem_take hl, hin⟩

/-- In a run in which the old text behind the input is sealed after every read, and a newline is in the
buffer as long as one follows, `grep` has written after every chunk exactly the complete lines that match,
and has stayed in its buffer. -/
theorem grep_writes_matching (pattern buf : List Char) (chunks : List (List Char)) (hbuf : buf.length = SIZE)
    (hreads : Reads pattern chunks (start buf)) (hclear : Clear pattern chunks (start buf)) (k : ℕ) :
    ∃ s, grep pattern (chunks.take k) (start buf) = some s ∧ s.out = matching pattern (chunks.take k).flatten := by
  have hholds : Holds [] (start buf) := ⟨rfl, rfl, hbuf, by simp, by simp⟩
  obtain ⟨s, hs, hout⟩ := grep_spec (chunks.take k) [] (start buf) hholds hreads.take hclear.take
  exact ⟨s, hs, hout⟩

/-- The buffer of a program that starts. -/
def zeros : List Char := List.replicate SIZE NUL

lemma holds_start : Holds [] (start zeros) := ⟨rfl, rfl, List.length_replicate, by simp, by simp⟩

lemma sealed_zeros {n : ℕ} (h : n < SIZE) : Sealed (zeros.drop n) := by
  obtain ⟨j, hj⟩ : ∃ j, SIZE - n = j + 1 := ⟨SIZE - n - 1, by omega⟩
  refine ⟨[], List.replicate j NUL, ?_, by simp⟩
  rw [zeros, List.drop_replicate, hj, List.replicate_succ, List.nil_append]

lemma pass_first : ∃ s, pass ['a'] (start zeros) ['a', '\n', 'b'] = some s ∧ s.m = 1 ∧
    s.buf = 'b' :: '\n' :: 'b' :: zeros.drop 3 := by
  have h : (pass ['a'] (start zeros) ['a', '\n', 'b']).map (fun s => (s.m, s.buf)) = some (1, 'b' :: '\n' :: 'b' :: zeros.drop 3) := by
    decide +kernel
  obtain ⟨s, hs, hv⟩ := Option.map_eq_some_iff.1 h
  injection hv with hm hb
  exact ⟨s, hs, hm, hb⟩

theorem grep_writes_matching_chunks :
    ∃ s, grep ['a'] ([['a', '\n', 'b'], ['a', '\n', 'c', '\n']].take 2) (start zeros) = some s ∧
      s.out = matching ['a'] ([['a', '\n', 'b'], ['a', '\n', 'c', '\n']].take 2).flatten := by
  obtain ⟨s, hs, hm, hbuf⟩ := pass_first
  have hnext : ∀ s', pass ['a'] (start zeros) ['a', '\n', 'b'] = some s' → s'.m = 1 ∧
      s'.buf = 'b' :: '\n' :: 'b' :: zeros.drop 3 := by
    intro s' hs'
    rw [hs] at hs'
    injection hs' with he
    exact he ▸ ⟨hm, hbuf⟩
  have hreads : Reads ['a'] [['a', '\n', 'b'], ['a', '\n', 'c', '\n']] (start zeros) := by
    refine ⟨by decide, by decide, by decide, fun s' hs' => ⟨by decide, by decide, ?_, fun _ _ => trivial⟩⟩
    rw [(hnext s' hs').1]
    decide
  have hclear : Clear ['a'] [['a', '\n', 'b'], ['a', '\n', 'c', '\n']] (start zeros) := by
    refine ⟨?_, Or.inl ?_, fun s' hs' => ⟨?_, Or.inr (by simp), fun _ _ => trivial⟩⟩
    · rw [holds_start.fill]
      exact sealed_zeros (n := 3) (by decide)
    · rw [holds_start.fill]
      decide
    · rw [fill, (hnext s' hs').1, (hnext s' hs').2]
      exact sealed_zeros (n := 5) (by decide)
  exact grep_writes_matching ['a'] zeros [['a', '\n', 'b'], ['a', '\n', 'c', '\n']] List.length_replicate hreads hclear 2
/-- Of a line that comes in two chunks only the second part is matched. -/
theorem grep_drops_first_part : ¬ ∀ (pattern : List Char) (chunks : List (List Char)),
    Reads pattern chunks (start zeros) → (∀ l ∈ Fields.closed '\n' chunks.flatten, l.length + 1 ≤ SIZE) →
    ∃ s, grep pattern chunks (start zeros) = some s ∧ s.out = matching pattern chunks.flatten := by
  intro h
  have hreads : Reads ['a'] [['a'], ['b', '\n']] (start zeros) := by
    refine ⟨by decide, by decide, by decide, fun s' hs' => ⟨by decide, by decide, ?_, fun _ _ => trivial⟩⟩
    obtain ⟨s₁, hs₁, -, hholds⟩ := pass_spec ['a'] holds_start (show ['a'] ≠ [] by decide) (by decide)
      (by decide) (sealed_zeros (by decide))
    rw [hs₁] at hs'
    injection hs' with hs'
    rw [← hs', hholds.m]
    decide
  have hlines : Fields.closed '\n' [['a'], ['b', '\n']].flatten = [['a', 'b']] := by
    change Fields.closed '\n' (['a', 'b'] ++ '\n' :: []) = _
    rw [Fields.closed_append (by decide), Fields.closed_of_notMem (by decide)]
  obtain ⟨s, hs, hout⟩ := h ['a'] [['a'], ['b', '\n']] hreads (by
    rw [hlines]
    decide)
  have hnone : (grep ['a'] [['a'], ['b', '\n']] (start zeros)).map State.out = some [] := by decide +kernel
  rw [hs, Option.map_some, hout, matching, hlines] at hnone
  exact absurd hnone (by decide)

end Grep

end Os132.User

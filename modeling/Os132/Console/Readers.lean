import Os132.Console.Device

/-!
# What the readers of the console get

A call of `consoleread` may sleep with part of its bytes and go on later, after commits and between other
calls. The committed bytes form a stream; `Readers` records at which places of it the bytes of every call lie.
Each place below the read index belongs to one call. A call that returns a count has taken the bytes where
its stretches began, and stops at its count, behind a newline or at a `^D`; only a `^D` that it sees first is
taken from the stream.
-/

namespace Os132

namespace Console

variable {s : Input} {target n : ℕ} {killed : Bool}

/-! ### One stretch -/

/-- How a stretch of `consoleread` with `n` of `target` bytes to go ends. -/
inductive Reading.Ends (target n : ℕ) (q : Reading) : Prop where
  | count (dst : q.dst.length = n) (taken : q.taken = q.dst) (status : q.status = .returned target)
  | line (dst : q.dst.getLast? = some newline) (taken : q.taken = q.dst)
      (status : q.status = .returned (target - n + q.dst.length : ℕ))
  /-- a `^D` behind other bytes of the call stays -/
  | left (next : q.input.committed.head? = some (C 'D')) (taken : q.taken = q.dst) (behind : n < target ∨ q.dst ≠ [])
      (line : newline ∉ q.dst) (status : q.status = .returned (target - n + q.dst.length : ℕ))
  | eof (taken : q.taken = [C 'D']) (dst : q.dst = []) (first : n = target) (status : q.status = .returned 0)
  | killed (taken : q.taken = q.dst) (status : q.status = .returned (-1))
  | asleep (taken : q.taken = q.dst) (dst : q.dst.length < n) (line : newline ∉ q.dst)
      (status : q.status = .asleep (n - q.dst.length))

/-- What a stretch stores at `dst`. -/
structure Reading.Stores (s : Input) (n : ℕ) (q : Reading) : Prop where
  committed : s.committed = q.taken ++ q.input.committed
  count : q.dst.length ≤ n
  eof : C 'D' ∉ q.dst
  line : newline ∉ q.dst.dropLast

/-- A byte in front of a stretch that goes on. -/
lemma Reading.Ends.cons {q : Reading} {c : UInt8} (hc : c ≠ newline) (hn : n + 1 ≤ target) (h : q.Ends target n) :
    Reading.Ends target (n + 1) { q with dst := c :: q.dst, taken := c :: q.taken } := by
  cases h with
  | count dst taken status =>
    apply Ends.count
    · simp [dst]
    · simp [taken]
    · exact status
  | line dst taken status =>
    have hne : q.dst ≠ [] := by
      intro h0
      simp [h0] at dst
    apply Ends.line
    · simpa [List.getLast?_cons_of_ne_nil hne] using dst
    · simp [taken]
    · rw [status]
      simp
      omega
  | left next taken behind line status =>
    apply Ends.left
    · exact next
    · simp [taken]
    · exact Or.inr (by simp)
    · simp [line, Ne.symm hc]
    · rw [status]
      simp
      omega
  | eof taken dst first status => omega
  | killed taken status =>
    apply Ends.killed
    · simp [taken]
    · exact status
  | asleep taken dst line status =>
    apply Ends.asleep
    · simp [taken]
    · simpa using dst
    · simp [line, Ne.symm hc]
    · rw [status]
      simp

/-- The loop takes bytes from the front of `[r, w)` up to its count, a newline or a `^D`. -/
lemma consoleread_stretch (killed : Bool) (hn : n ≤ target) :
    (consoleread killed target n s).Stores s n ∧ (consoleread killed target n s).Ends target n := by
  induction n generalizing s with
  | zero =>
    refine ⟨⟨rfl, le_rfl, by simp [consoleread], by simp [consoleread]⟩, ?_⟩
    exact .count rfl rfl rfl
  | succ n ih =>
    by_cases hne : s.r = s.w
    · simp only [consoleread, if_pos hne]
      refine ⟨⟨rfl, by simp, by simp, by simp⟩, ?_⟩
      cases killed with
      | false => exact .asleep rfl (by simp) (by simp) rfl
      | true => exact .killed rfl rfl
    · have hc := Input.committed_advance hne
      simp only [consoleread, if_neg hne]
      generalize s.buf (s.r % INPUT_BUF).toNat = c at hc ⊢
      split_ifs with hd ht hl
      · -- `^D` behind other bytes is put back
        have hr : s.r + 1 - 1 = s.r := by simp
        rw [hr]
        refine ⟨⟨rfl, by simp, by simp, by simp⟩, ?_⟩
        apply Reading.Ends.left
        · change s.committed.head? = _
          rw [hc, hd]
          rfl
        · rfl
        · exact Or.inl ht
        · simp
        · simp
      · refine ⟨⟨hc, by simp, by simp, by simp⟩, ?_⟩
        apply Reading.Ends.eof
        · rw [hd]
        · rfl
        · omega
        · rw [show target - (n + 1) = 0 by omega]
          rfl
      · refine ⟨⟨hc, by simp, by simpa using Ne.symm hd, by simp⟩, ?_⟩
        apply Reading.Ends.line
        · simp [hl]
        · rfl
        · simp only [List.length_singleton]
          congr 2
          omega
      · obtain ⟨hs, he⟩ := ih (s := s.advance) (by omega)
        change Reading.Stores s (n + 1) { consoleread killed target n s.advance with
          dst := c :: (consoleread killed target n s.advance).dst
          taken := c :: (consoleread killed target n s.advance).taken } ∧ _
        refine ⟨⟨?_, ?_, ?_, ?_⟩, he.cons hl hn⟩
        · rw [hc, hs.committed]
          rfl
        · have := hs.count
          simpa using this
        · simpa [Ne.symm hd] using hs.eof
        · have hline := hs.line
          cases hdst : (consoleread killed target n s.advance).dst with
          | nil => simp
          | cons b bs =>
            rw [hdst] at hline
            simpa [Ne.symm hl] using hline

/-! ### Calls and commits -/

/-- A call asleep: its `target`, the `n` bytes to go, what is stored at `dst`, and the places of these bytes
in the stream. -/
structure Reader where
  target : ℕ
  n : ℕ
  dst : List UInt8
  got : List ℕ

/-- A call that returned `value`; `eof` is the place of the `^D` it took, `stop` the first place it left. -/
structure Returned where
  target : ℕ
  value : ℤ
  dst : List UInt8
  got : List ℕ
  eof : List ℕ
  stop : ℕ

/-- The console with the calls of `consoleread`: `stream` is what was ever in `[r, w)`, `read` how much of it
was taken out. -/
structure Readers where
  input : Input
  stream : List UInt8
  read : ℕ
  asleep : List Reader
  done : List Returned

inductive ReadEvent where
  /-- `input` changes to `s`, with `r` and the bytes of `[r, w)` as they are and perhaps more behind them -/
  | commit (s : Input)
  /-- a call for `n` bytes -/
  | call (n : ℤ) (killed : Bool)
  /-- call `i` of those asleep goes on -/
  | resume (i : ℕ) (killed : Bool)

instance : Inhabited ReadEvent := ⟨.call 0 false⟩

namespace Readers

/-- A stretch of the call `c`. -/
def stretch (d : Readers) (c : Reader) (killed : Bool) : Readers :=
  let q := consoleread killed c.target c.n d.input
  let dst := c.dst ++ q.dst
  let got := c.got ++ List.range' d.read q.dst.length
  let read := d.read + q.taken.length
  match q.status with
  | .asleep n => { d with input := q.input, read := read, asleep := ⟨c.target, n, dst, got⟩ :: d.asleep }
  | .returned v =>
    let eof := (List.range' d.read q.taken.length).drop q.dst.length
    { d with input := q.input, read := read, done := ⟨c.target, v, dst, got, eof, read⟩ :: d.done }

def step (ev : ReadEvent) (d : Readers) : Option Readers :=
  match ev with
  | .commit s =>
    if s.r = d.input.r ∧ d.input.committed <+: s.committed then
      some { d with input := s, stream := d.stream ++ s.committed.drop d.input.committed.length }
    else none
  -- a negative count does nothing, like 0
  | .call n killed => some (d.stretch ⟨n.toNat, n.toNat, [], []⟩ killed)
  | .resume i killed => d.asleep[i]?.map fun c => ({ d with asleep := d.asleep.eraseIdx i } : Readers).stretch c killed

/-- No call has been made. -/
def Start (d : Readers) : Prop :=
  d.stream = d.input.committed ∧ d.read = 0 ∧ d.asleep = [] ∧ d.done = []

/-- The places that the calls have taken. -/
def places (d : Readers) : List ℕ :=
  d.asleep.flatMap Reader.got ++ d.done.flatMap fun c => c.got ++ c.eof

end Readers

/-- Where a call stopped that returned a count. -/
inductive Returned.Stops (stream : List UInt8) (c : Returned) : Prop where
  | count (dst : c.dst.length = c.target) (eof : c.eof = [])
  | line (dst : c.dst.getLast? = some newline) (eof : c.eof = [])
  /-- in front of a `^D` that it leaves -/
  | left (next : stream[c.stop]? = some (C 'D')) (behind : c.dst ≠ []) (eof : c.eof = [])
  /-- at a `^D` that it takes, with nothing in front of it -/
  | eof (p : ℕ) (taken : c.eof = [p]) (at_ : stream[p]? = some (C 'D')) (first : c.dst = [])

/-- What a call stored are bytes of the stream in order, up to a newline and without a `^D`. -/
structure Stored (stream dst : List UInt8) (got : List ℕ) : Prop where
  order : got.Pairwise (· < ·)
  bytes : dst.map some = got.map (stream[·]?)
  eof : C 'D' ∉ dst
  line : newline ∉ dst.dropLast

/-- A call that returned a count. -/
structure Returned.Delivers (stream : List UInt8) (c : Returned) : Prop where
  value : c.value = c.dst.length
  count : c.dst.length ≤ c.target
  stored : Stored stream c.dst c.got
  stops : c.Stops stream

/-- A call asleep. -/
structure Reader.Waits (stream : List UInt8) (c : Reader) : Prop where
  count : c.n + c.dst.length = c.target
  pending : 0 < c.n
  stored : Stored stream c.dst c.got
  line : newline ∉ c.dst

/-- What holds between stretches. -/
structure Readers.Sound (d : Readers) : Prop where
  read_le : d.read ≤ d.stream.length
  window : d.stream.drop d.read = d.input.committed
  places : d.places.Perm (List.range d.read)
  asleep : ∀ c ∈ d.asleep, c.Waits d.stream
  done : ∀ c ∈ d.done, c.value = -1 ∧ c.eof = [] ∨ c.Delivers d.stream

/-! ### More bytes in the stream -/

lemma Stored.append {stream more dst : List UInt8} {got : List ℕ} (h : Stored stream dst got)
    (hgot : ∀ p ∈ got, p < stream.length) : Stored (stream ++ more) dst got := by
  refine ⟨h.order, ?_, h.eof, h.line⟩
  rw [h.bytes]
  apply List.map_congr_left
  intro p hp
  rw [List.getElem?_append_left (hgot p hp)]

lemma getElem?_append_some {stream more : List UInt8} {p : ℕ} {c : UInt8} (h : stream[p]? = some c) :
    (stream ++ more)[p]? = some c := by
  have hp := (List.getElem?_eq_some_iff.1 h).1
  rwa [List.getElem?_append_left hp]

lemma Returned.Stops.append {stream more : List UInt8} {c : Returned} (h : c.Stops stream) : c.Stops (stream ++ more) := by
  cases h with
  | count dst eof => exact .count dst eof
  | line dst eof => exact .line dst eof
  | left next behind eof => exact .left (getElem?_append_some next) behind eof
  | eof p taken at_ first => exact .eof p taken (getElem?_append_some at_) first

namespace Readers

variable {d : Readers}

lemma Sound.place_lt (h : d.Sound) {p : ℕ} (hp : p ∈ d.places) : p < d.read := by
  simpa using h.places.mem_iff.1 hp

lemma Sound.got_lt (h : d.Sound) {c : Reader} (hc : c ∈ d.asleep) {p : ℕ} (hp : p ∈ c.got) : p < d.read :=
  h.place_lt (List.mem_append_left _ (List.mem_flatMap.2 ⟨c, hc, hp⟩))

lemma Sound.done_lt (h : d.Sound) {c : Returned} (hc : c ∈ d.done) {p : ℕ} (hp : p ∈ c.got) : p < d.read :=
  h.place_lt (List.mem_append_right _ (List.mem_flatMap.2 ⟨c, hc, List.mem_append_left _ hp⟩))

lemma Sound.commit (h : d.Sound) {s : Input} (hs : d.input.committed <+: s.committed) :
    Sound { d with input := s, stream := d.stream ++ s.committed.drop d.input.committed.length } := by
  have hlt : ∀ {p : ℕ}, p < d.read → p < d.stream.length := fun hp => hp.trans_le h.read_le
  refine ⟨?_, ?_, h.places, fun c hc => ?_, fun c hc => ?_⟩
  · simp only [List.length_append]
    have := h.read_le
    omega
  · rw [List.drop_append_of_le_length h.read_le, h.window]
    exact List.prefix_iff_eq_append.1 hs
  · have hw := h.asleep c hc
    exact ⟨hw.count, hw.pending, hw.stored.append fun p hp => hlt (h.got_lt hc hp), hw.line⟩
  · apply (h.done c hc).imp_right
    intro hw
    exact ⟨hw.value, hw.count, hw.stored.append fun p hp => hlt (h.done_lt hc hp), hw.stops.append⟩

lemma bytes_of_prefix {stream bytes rest : List UInt8} {k : ℕ} (h : stream.drop k = bytes ++ rest) :
    bytes.map some = (List.range' k bytes.length).map (stream[·]?) := by
  apply List.ext_getElem
  · simp
  · intro i hi _
    simp only [List.length_map] at hi
    have hget : (stream.drop k)[i]? = bytes[i]? := by rw [h, List.getElem?_append_left hi]
    rw [List.getElem?_drop, List.getElem?_eq_getElem hi] at hget
    simp [hget]

/-- A call that takes its turn, and what holds of all the others. -/
structure Turn (d : Readers) (c : Reader) : Prop where
  read_le : d.read ≤ d.stream.length
  window : d.stream.drop d.read = d.input.committed
  places : (c.got ++ d.places).Perm (List.range d.read)
  asleep : ∀ c ∈ d.asleep, c.Waits d.stream
  done : ∀ c ∈ d.done, c.value = -1 ∧ c.eof = [] ∨ c.Delivers d.stream
  count : c.n + c.dst.length = c.target
  stored : Stored d.stream c.dst c.got
  line : newline ∉ c.dst

variable {c : Reader}

section stretch

variable (h : Turn d c) (killed : Bool)
include h

lemma Turn.stores : (consoleread killed c.target c.n d.input).Stores d.input c.n ∧
    (consoleread killed c.target c.n d.input).Ends c.target c.n :=
  consoleread_stretch killed (by have := h.count; omega)

lemma Turn.stored_more {q : Reading} (hs : q.Stores d.input c.n) (ht : q.taken = q.dst ∨ q.dst = []) :
    Stored d.stream (c.dst ++ q.dst) (c.got ++ List.range' d.read q.dst.length) := by
  refine ⟨?_, ?_, ?_, ?_⟩
  · rw [List.pairwise_append]
    refine ⟨h.stored.order, List.pairwise_lt_range', fun a ha b hb => ?_⟩
    have hlt : a < d.read := by simpa using h.places.mem_iff.1 (List.mem_append_left _ ha)
    have hge := (List.mem_range'_1.1 hb).1
    omega
  · rw [List.map_append, List.map_append, h.stored.bytes]
    congr 1
    rcases ht with ht | ht
    · apply bytes_of_prefix
      rw [h.window, hs.committed, ht]
    · simp [ht]
  · simp only [List.mem_append, not_or]
    exact ⟨h.stored.eof, hs.eof⟩
  · by_cases h0 : q.dst = []
    · rw [h0, List.append_nil]
      exact h.stored.line
    · rw [List.dropLast_append_of_ne_nil h0, List.mem_append, not_or]
      exact ⟨h.line, hs.line⟩

lemma Turn.read_more {q : Reading} (hs : q.Stores d.input c.n) :
    d.read + q.taken.length ≤ d.stream.length ∧ d.stream.drop (d.read + q.taken.length) = q.input.committed := by
  have hw := h.window
  rw [hs.committed] at hw
  refine ⟨?_, ?_⟩
  · have hlen := congrArg List.length hw
    simp only [List.length_drop, List.length_append] at hlen
    have := h.read_le
    omega
  · rw [← List.drop_drop, hw, List.drop_left]

lemma Turn.places_more (m : ℕ) {l : List ℕ} (hl : l.Perm (List.range' d.read m ++ (c.got ++ d.places))) :
    l.Perm (List.range (d.read + m)) := by
  have hrange : List.range (d.read + m) = List.range d.read ++ List.range' d.read m := by
    rw [List.range_eq_range', List.range_eq_range', ← List.range'_append]
    simp
  rw [hrange]
  exact hl.trans ((List.Perm.append_left _ h.places).trans List.perm_append_comm)

/-- After the stretch every call has its places again. -/
lemma Turn.sound : (d.stretch c killed).Sound := by
  obtain ⟨hs, he⟩ := h.stores killed
  have hcount := h.count
  set q := consoleread killed c.target c.n d.input with hq
  obtain ⟨hle, hwin⟩ := h.read_more hs
  -- a call that returns without a `^D` of its own
  have returned : ∀ v, q.taken = q.dst → q.status = .returned v → (v = -1 ∨ (v = (c.dst ++ q.dst).length ∧
      Returned.Stops d.stream ⟨c.target, v, c.dst ++ q.dst, c.got ++ List.range' d.read q.dst.length, [], d.read + q.taken.length⟩)) →
      (d.stretch c killed).Sound := by
    intro v ht hv hend
    have heof : (List.range' d.read q.taken.length).drop q.dst.length = [] := by simp [ht]
    have hstep : d.stretch c killed = { d with input := q.input, read := d.read + q.taken.length, done :=
        ⟨c.target, v, c.dst ++ q.dst, c.got ++ List.range' d.read q.dst.length, [], d.read + q.taken.length⟩ :: d.done } := by
      simp only [stretch, ← hq, hv, heof]
    rw [hstep]
    refine ⟨hle, hwin, ?_, h.asleep, fun c' hc' => ?_⟩
    · apply h.places_more
      rw [ht]
      simp only [Readers.places, List.flatMap_cons, List.append_nil]
      grind
    · rcases List.mem_cons.1 hc' with rfl | hc'
      · apply hend.imp
        · exact fun hv => ⟨hv, rfl⟩
        · rintro ⟨hval, hstop⟩
          refine ⟨hval, ?_, h.stored_more hs (Or.inl ht), hstop⟩
          have := hs.count
          change (c.dst ++ q.dst).length ≤ c.target
          rw [List.length_append]
          omega
      · exact h.done c' hc'
  cases he with
  | count dst taken status =>
    apply returned _ taken status
    refine Or.inr ⟨?_, .count ?_ rfl⟩
    · rw [List.length_append, dst]
      omega
    · change (c.dst ++ q.dst).length = c.target
      rw [List.length_append, dst]
      omega
  | line dst taken status =>
    apply returned _ taken status
    refine Or.inr ⟨?_, .line ?_ rfl⟩
    · rw [List.length_append]
      omega
    · have h0 : q.dst ≠ [] := by
        intro h0
        simp [h0] at dst
      simp [List.getLast?_append, dst]
  | left next taken behind line status =>
    apply returned _ taken status
    refine Or.inr ⟨?_, .left ?_ ?_ rfl⟩
    · rw [List.length_append]
      omega
    · rw [← next, ← hwin, List.head?_drop]
    · intro h0
      rw [List.append_eq_nil_iff] at h0
      rcases behind with hb | hb
      · rw [h0.1] at hcount
        simp at hcount
        omega
      · exact hb h0.2
  | killed taken status => exact returned _ taken status (Or.inl rfl)
  | eof taken dst first status =>
    have hdst : c.dst = [] := List.eq_nil_of_length_eq_zero (by omega)
    have hplace : d.stream[d.read]? = some (C 'D') := by
      rw [← List.head?_drop, h.window, hs.committed, taken]
      rfl
    have hstep : d.stretch c killed = { d with input := q.input, read := d.read + q.taken.length, done :=
        ⟨c.target, 0, c.dst ++ q.dst, c.got ++ List.range' d.read q.dst.length, [d.read], d.read + q.taken.length⟩ :: d.done } := by
      simp only [stretch, ← hq, status]
      simp [taken, dst]
    rw [hstep]
    refine ⟨hle, hwin, ?_, h.asleep, fun c' hc' => ?_⟩
    · apply h.places_more
      simp only [Readers.places, List.flatMap_cons, taken, dst, List.length_nil, List.length_singleton, List.range'_zero,
        List.append_nil, List.range'_one]
      grind
    · rcases List.mem_cons.1 hc' with rfl | hc'
      · right
        exact ⟨by simp [hdst, dst], by simp [hdst, dst], h.stored_more hs (Or.inr dst),
          .eof d.read rfl hplace (by simp [hdst, dst])⟩
      · exact h.done c' hc'
  | asleep taken dst line status =>
    have hstep : d.stretch c killed = { d with input := q.input, read := d.read + q.taken.length, asleep :=
        ⟨c.target, c.n - q.dst.length, c.dst ++ q.dst, c.got ++ List.range' d.read q.dst.length⟩ :: d.asleep } := by
      simp only [stretch, ← hq, status]
    rw [hstep]
    refine ⟨hle, hwin, ?_, fun c' hc' => ?_, h.done⟩
    · apply h.places_more
      rw [taken]
      simp only [Readers.places, List.flatMap_cons]
      grind
    · rcases List.mem_cons.1 hc' with rfl | hc'
      · refine ⟨?_, ?_, h.stored_more hs (Or.inl taken), ?_⟩
        · simp only [List.length_append]
          omega
        · change 0 < c.n - q.dst.length
          omega
        · simp only [List.mem_append, not_or]
          exact ⟨h.line, line⟩
      · exact h.asleep c' hc'

end stretch

/-! ### Runs -/

lemma Sound.start (h : d.Start) : d.Sound := by
  obtain ⟨hstream, hread, hasleep, hdone⟩ := h
  refine ⟨by omega, ?_, ?_, fun c hc => ?_, fun c hc => ?_⟩
  · rw [hread, hstream]
    rfl
  · rw [Readers.places, hasleep, hdone, hread]
    rfl
  · simp [hasleep] at hc
  · simp [hdone] at hc

lemma Sound.call (h : d.Sound) (n : ℕ) : Turn d ⟨n, n, [], []⟩ :=
  ⟨h.read_le, h.window, by simpa using h.places, h.asleep, h.done, by simp, ⟨.nil, rfl, by simp, by simp⟩, by simp⟩

lemma Sound.resume (h : d.Sound) {i : ℕ} (hi : d.asleep[i]? = some c) : Turn { d with asleep := d.asleep.eraseIdx i } c := by
  have hw := h.asleep c (List.mem_of_getElem? hi)
  obtain ⟨hlt, hget⟩ := List.getElem?_eq_some_iff.1 hi
  have hperm : (c :: d.asleep.eraseIdx i).Perm d.asleep := by
    rw [← hget]
    exact List.getElem_cons_eraseIdx_perm hlt
  refine ⟨h.read_le, h.window, ?_, fun c' hc' => ?_, h.done, hw.count, hw.stored, hw.line⟩
  · refine List.Perm.trans ?_ h.places
    unfold Readers.places
    rw [← List.append_assoc]
    exact List.Perm.append_right _ (hperm.flatMap_right _)
  · exact h.asleep c' (hperm.subset (List.mem_cons_of_mem _ hc'))

lemma Sound.step (h : d.Sound) {ev : ReadEvent} {d' : Readers} (hd : step ev d = some d') : d'.Sound := by
  cases ev with
  | commit s =>
    simp only [Readers.step] at hd
    split_ifs at hd with hs
    cases hd
    exact h.commit hs.2
  | call n killed =>
    cases hd
    exact (h.call n.toNat).sound killed
  | resume i killed =>
    simp only [Readers.step, Option.map_eq_some_iff] at hd
    obtain ⟨c, hc, rfl⟩ := hd
    exact (h.resume hc).sound killed

/-- **What readers get**, in every run of calls, commits and wakeups: each place of the stream below the read
index was taken by exactly one call, what is left is in `[r, w)`, and every call that returned a count stored
the bytes of its places and stopped where it has to. -/
theorem consoleread_delivers {n : ℕ} (r : Lts.Run Start step n) (k : ℕ) (hk : k ≤ n) :
    (r.state k).places.Perm (List.range (r.state k).read) ∧
      (r.state k).stream.drop (r.state k).read = (r.state k).input.committed ∧
      (∀ c ∈ (r.state k).asleep, c.Waits (r.state k).stream) ∧
      ∀ c ∈ (r.state k).done, c.value = -1 ∧ c.eof = [] ∨ c.Delivers (r.state k).stream := by
  have h : (r.state k).Sound := r.invariant (fun d => Sound.start) (fun d ev d' hd hs => hd.step hs) k hk
  exact ⟨h.places, h.window, h.asleep, h.done⟩

/-- 128 bytes without a newline, which a call for 200 bytes takes before its process is killed. -/
def killedReader : List ReadEvent :=
  [.commit ⟨fun _ => 97, 0, 128, 128, 0⟩, .call 200 false, .resume 0 true]

lemma start_boot : Start ⟨.boot, [], 0, [], []⟩ := ⟨rfl, rfl, rfl, rfl⟩

theorem consoleread_delivers_killedReader : ∃ r : Lts.Run Start step killedReader.length,
    (r.state 3).read = 128 ∧ (r.state 3).places.Perm (List.range (r.state 3).read) ∧
      (r.state 3).stream.drop (r.state 3).read = (r.state 3).input.committed ∧
      (∀ c ∈ (r.state 3).asleep, c.Waits (r.state 3).stream) ∧
      ∀ c ∈ (r.state 3).done, c.value = -1 ∧ c.eof = [] ∨ c.Delivers (r.state 3).stream := by
  obtain ⟨r, -, hend⟩ := Lts.exists_run_of_check step killedReader (fun _ _ _ => true)
    (fun d => d.read = 128) start_boot (by decide +kernel)
  exact ⟨r, of_decide_eq_true hend, consoleread_delivers r 3 (by decide)⟩

/-- The bytes that a killed process has taken are delivered to nobody. -/
theorem killed_reader_loses : ¬ ∀ (n : ℕ) (r : Lts.Run Start step n) (k : ℕ), k ≤ n →
    ((r.state k).asleep.flatMap Reader.got ++
      ((r.state k).done.filter fun c => 0 ≤ c.value).flatMap fun c => c.got ++ c.eof).Perm (List.range (r.state k).read) := by
  intro h
  obtain ⟨r, -, hend⟩ := Lts.exists_run_of_check step killedReader (fun _ _ _ => true)
    (fun d => d.read = 128 ∧ d.asleep.flatMap Reader.got ++
      ((d.done.filter fun c => 0 ≤ c.value).flatMap fun c => c.got ++ c.eof) = []) start_boot (by decide +kernel)
  simp only [decide_eq_true_eq] at hend
  have hp := (h _ r _ le_rfl).length_eq
  rw [hend.2, hend.1] at hp
  simp at hp

end Readers

end Console

end Os132

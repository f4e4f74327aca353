import Os132.Console.Input

/-!
# The keyboard (kbd.c)

`kbdgetc` keeps the modifier keys as bits of one static variable, from one scan code to the next. `events` reads a
stream of scan codes as presses and releases of keys, where an escape byte E0 tells apart the keys of the right
side, and says from the history alone what a press means: `held` looks for the last event of the keys of a modifier,
`on` counts presses of a lock key. The bits follow the history in every stream.
-/

namespace Os132.Console.Keyboard

def SHIFT : UInt32 := 1
def CTL : UInt32 := 2
def ALT : UInt32 := 4
def CAPSLOCK : UInt32 := 8
def NUMLOCK : UInt32 := 16
def SCROLLLOCK : UInt32 := 32
def E0ESC : UInt32 := 64

def shiftcode : UInt8 → UInt32
  | 0x1D => CTL
  | 0x2A => SHIFT
  | 0x36 => SHIFT
  | 0x38 => ALT
  | 0x9D => CTL
  | 0xB8 => ALT
  | _ => 0

def togglecode : UInt8 → UInt32
  | 0x3A => CAPSLOCK
  | 0x45 => NUMLOCK
  | 0x46 => SCROLLLOCK
  | _ => 0

/-- The keys that all three maps have at the end, after an escape; `enter` and `div` differ. -/
def keypad (enter div : UInt8) : UInt8 → UInt8
  | 0x9C => enter
  | 0xB5 => div
  | 0xC8 => 0xE2
  | 0xD0 => 0xE3
  | 0xC9 => 0xE6
  | 0xD1 => 0xE7
  | 0xCB => 0xE4
  | 0xCD => 0xE5
  | 0x97 => 0xE0
  | 0xCF => 0xE1
  | 0xD2 => 0xE8
  | 0xD3 => 0xE9
  | _ => 0

def NO : Char := '\x00'

def row (cs : List Char) (d : UInt8) : Option UInt8 := cs[d.toNat]?.map fun c => c.toNat.toUInt8

def normalmap (d : UInt8) : UInt8 :=
  (row [
    NO, '\x1B', '1', '2', '3', '4', '5', '6',
    '7', '8', '9', '0', '-', '=', '\x08', '\t',
    'q', 'w', 'e', 'r', 't', 'y', 'u', 'i',
    'o', 'p', '[', ']', '\n', NO, 'a', 's',
    'd', 'f', 'g', 'h', 'j', 'k', 'l', ';',
    '\'', '`', NO, '\\', 'z', 'x', 'c', 'v',
    'b', 'n', 'm', ',', '.', '/', NO, '*',
    NO, ' ', NO, NO, NO, NO, NO, NO,
    NO, NO, NO, NO, NO, NO, NO, '7',
    '8', '9', '-', '4', '5', '6', '+', '1',
    '2', '3', '0', '.', NO, NO, NO, NO] d).getD (keypad 10 47 d)

def shiftmap (d : UInt8) : UInt8 :=
  (row [
    NO, '\x1B', '!', '@', '#', '$', '%', '^',
    '&', '*', '(', ')', '_', '+', '\x08', '\t',
    'Q', 'W', 'E', 'R', 'T', 'Y', 'U', 'I',
    'O', 'P', '{', '}', '\n', NO, 'A', 'S',
    'D', 'F', 'G', 'H', 'J', 'K', 'L', ':',
    '"', '~', NO, '|', 'Z', 'X', 'C', 'V',
    'B', 'N', 'M', '<', '>', '?', NO, '*',
    NO, ' ', NO, NO, NO, NO, NO, NO,
    NO, NO, NO, NO, NO, NO, NO, '7',
    '8', '9', '-', '4', '5', '6', '+', '1',
    '2', '3', '0', '.', NO, NO, NO, NO] d).getD (keypad 10 47 d)

def ctlmap (d : UInt8) : UInt8 :=
  ([
    0, 0, 0, 0, 0, 0, 0, 0,
    0, 0, 0, 0, 0, 0, 0, 0,
    C 'Q', C 'W', C 'E', C 'R', C 'T', C 'Y', C 'U', C 'I',
    C 'O', C 'P', 0, 0, carriageReturn, 0, C 'A', C 'S',
    C 'D', C 'F', C 'G', C 'H', C 'J', C 'K', C 'L', 0,
    0, 0, 0, C '\\', C 'Z', C 'X', C 'C', C 'V',
    C 'B', C 'N', C 'M', 0, 0, C '/', 0, 0] : List UInt8)[d.toNat]?.getD (keypad carriageReturn (C '/') d)

/-- `charcode[shift & (CTL | SHIFT)][data]` -/
def charcode (shift : UInt32) (d : UInt8) : UInt8 :=
  match (shift &&& (CTL ||| SHIFT)).toNat with
  | 0 => normalmap d
  | 1 => shiftmap d
  | _ => ctlmap d

/-- With `CAPSLOCK` small letters and capital letters change places. -/
def capslock (b : Bool) (c : UInt8) : UInt8 :=
  if b then
    if 97 ≤ c ∧ c ≤ 122 then c - 32 else if 65 ≤ c ∧ c ≤ 90 then c + 32 else c
  else c

/-- The static variable of `kbdgetc` and the bytes that the controller has. -/
structure Kbd where
  shift : UInt32
  port : List UInt8

/-- none is the return value -1. -/
def kbdgetc (k : Kbd) : Option UInt8 × Kbd :=
  match k.port with
  | [] => (none, k)
  | data :: port =>
    if data = 0xE0 then (some 0, ⟨k.shift ||| E0ESC, port⟩)
    else if data &&& 0x80 ≠ 0 then
      let data := if k.shift &&& E0ESC ≠ 0 then data else data &&& 0x7F
      (some 0, ⟨k.shift &&& ~~~(shiftcode data ||| E0ESC), port⟩)
    else
      let data' := if k.shift &&& E0ESC ≠ 0 then data ||| 0x80 else data
      let shift := if k.shift &&& E0ESC ≠ 0 then k.shift &&& ~~~E0ESC else k.shift
      let shift := (shift ||| shiftcode data') ^^^ togglecode data'
      (some (capslock (shift &&& CAPSLOCK ≠ 0) (charcode shift data')), ⟨shift, port⟩)

/-- The loop of `consoleintr(kbdgetc)`. -/
def kbdintr : ℕ → Kbd → Input → Option (Kbd × Input)
  | 0, _, _ => none
  | n + 1, k, s =>
    match kbdgetc k with
    | (none, k) => some (k, s)
    | (some c, k) => kbdintr n k (s.consoleintr c)

/-- Interrupts, each with the bytes that its loop finds. -/
def interrupts : List (List UInt8) → Kbd × Input → Option (Kbd × Input)
  | [], x => some x
  | bs :: bss, (k, s) => (kbdintr (bs.length + 1) { k with port := k.port ++ bs } s).bind (interrupts bss)

/-! ### The history of the keys -/

/-- A key is its scan code, with the highest bit set after an escape. -/
inductive Event where
  | press (key : UInt8)
  | release (key : UInt8)
  deriving DecidableEq

def Event.key : Event → UInt8
  | .press k => k
  | .release k => k

def Event.isPress : Event → Bool
  | .press _ => true
  | .release _ => false

/-- The events of a stream; `esc` tells that an escape came before it. -/
def events (esc : Bool) : List UInt8 → List Event
  | [] => []
  | d :: bs =>
    if d = 0xE0 then events true bs
    else if d &&& 0x80 ≠ 0 then .release (if esc then d else d &&& 0x7F) :: events false bs
    else .press (if esc then d ||| 0x80 else d) :: events false bs

/-- Whether an escape ends the stream. -/
def escaped (esc : Bool) : List UInt8 → Bool
  | [] => esc
  | d :: bs => escaped (d = 0xE0) bs

/-- A modifier is held if the last event of its keys is a press; the history has the last event first. -/
def held (keys : List UInt8) (past : List Event) : Bool := (past.find? fun e => e.key ∈ keys).any Event.isPress

/-- A lock is on after an odd number of presses of its key. -/
def on (key : UInt8) (past : List Event) : Bool := past.countP (· = .press key) % 2 = 1

def shiftKeys : List UInt8 := [0x2A, 0x36]
def ctlKeys : List UInt8 := [0x1D, 0x9D]
def altKeys : List UInt8 := [0x38, 0xB8]

/-- What a key types after the events of `past`, its own press included. -/
def code (past : List Event) (key : UInt8) : UInt8 :=
  capslock (on 0x3A past) (if held ctlKeys past then ctlmap key else if held shiftKeys past then shiftmap key else normalmap key)

/-- What the presses type. -/
def typed (past : List Event) : List Event → List UInt8
  | [] => []
  | .press k :: es => code (.press k :: past) k :: typed (.press k :: past) es
  | .release k :: es => typed (.release k :: past) es

/-! ### The bits -/

def flag (b : Bool) (m : UInt32) : UInt32 := if b then m else 0

def bits (s c a k n o e : Bool) : UInt32 :=
  flag s SHIFT ||| flag c CTL ||| flag a ALT ||| flag k CAPSLOCK ||| flag n NUMLOCK ||| flag o SCROLLLOCK ||| flag e E0ESC

/-- The value of `shift` after a history. -/
def word (past : List Event) (esc : Bool) : UInt32 :=
  bits (held shiftKeys past) (held ctlKeys past) (held altKeys past) (on 0x3A past) (on 0x45 past) (on 0x46 past) esc

variable {s c a k n o e : Bool} {past : List Event} {d key : UInt8} {keys : List UInt8}

/-- What the operations of `kbdgetc` do to the bits. -/
lemma bits_ops (s c a k n o e : Bool) :
    (∀ s' c' a', bits s c a k n o e ||| bits s' c' a' false false false false =
      bits (s || s') (c || c') (a || a') k n o e) ∧
    (∀ s' c' a', bits s c a k n o e &&& ~~~(bits s' c' a' false false false false ||| E0ESC) =
      bits (s && !s') (c && !c') (a && !a') k n o false) ∧
    (∀ k' n' o', bits s c a k n o e ^^^ bits false false false k' n' o' false = bits s c a (k ^^ k') (n ^^ n') (o ^^ o') e) ∧
    bits s c a k n o e ||| E0ESC = bits s c a k n o true ∧
    bits s c a k n o e &&& ~~~E0ESC = bits s c a k n o false ∧
    (bits s c a k n o e &&& E0ESC ≠ 0 ↔ e = true) ∧
    (bits s c a k n o e &&& CAPSLOCK ≠ 0 ↔ k = true) ∧
    (bits s c a k n o e &&& (CTL ||| SHIFT)).toNat = (if c then 2 else 0) + if s then 1 else 0 := by
  revert s c a k n o e
  decide +kernel

lemma charcode_bits : charcode (bits s c a k n o e) d = if c then ctlmap d else if s then shiftmap d else normalmap d := by
  obtain ⟨-, -, -, -, -, -, -, h⟩ := bits_ops s c a k n o e
  rw [charcode, h]
  cases c <;> cases s <;> rfl

lemma shiftcode_eq : shiftcode d = bits (d ∈ shiftKeys) (d ∈ ctlKeys) (d ∈ altKeys) false false false false := by
  unfold shiftcode
  split
  all_goals try decide
  next h1 h2 h3 h4 h5 h6 =>
    have hs : d ∉ shiftKeys := by simpa [shiftKeys] using ⟨h2, h3⟩
    have hc : d ∉ ctlKeys := by simpa [ctlKeys] using ⟨h1, h5⟩
    have ha : d ∉ altKeys := by simpa [altKeys] using ⟨h4, h6⟩
    simp only [hs, hc, ha]
    decide

lemma togglecode_eq : togglecode d = bits false false false (d = 0x3A) (d = 0x45) (d = 0x46) false := by
  unfold togglecode
  split
  all_goals try decide
  next h1 h2 h3 =>
    have h1' : d ≠ 0x3A := h1
    have h2' : d ≠ 0x45 := h2
    have h3' : d ≠ 0x46 := h3
    simp only [h1', h2', h3']
    decide

lemma held_press : held keys (.press key :: past) = (held keys past || decide (key ∈ keys)) := by
  unfold held
  by_cases h : key ∈ keys
  · simp [Event.key, h, Event.isPress]
  · simp [Event.key, h]

lemma held_release : held keys (.release key :: past) = (held keys past && !decide (key ∈ keys)) := by
  unfold held
  by_cases h : key ∈ keys
  · simp [Event.key, h, Event.isPress]
  · simp [Event.key, h]

lemma on_press : on key (.press d :: past) = (on key past ^^ decide (d = key)) := by
  unfold on
  by_cases h : d = key
  · rw [List.countP_cons_of_pos (by simp [h])]
    rcases Nat.mod_two_eq_zero_or_one (past.countP (· = .press key)) with h2 | h2 <;> simp [h, h2, Nat.add_mod]
  · rw [List.countP_cons_of_neg (by simp [h])]
    simp [h]

lemma on_release : on key (.release d :: past) = on key past := by
  unfold on
  rw [List.countP_cons_of_neg (by simp)]

lemma word_release : word past e &&& ~~~(shiftcode key ||| E0ESC) = word (.release key :: past) false := by
  rw [word, shiftcode_eq, (bits_ops _ _ _ _ _ _ _).2.1, word]
  simp only [held_release, on_release]

lemma word_press : (word past false ||| shiftcode key) ^^^ togglecode key = word (.press key :: past) false := by
  rw [word, shiftcode_eq, (bits_ops _ _ _ _ _ _ _).1, togglecode_eq, (bits_ops _ _ _ _ _ _ _).2.2.1, word]
  simp only [held_press, on_press]

/-- One scan code: the bits follow the history, and the code that a press gives is that of the history. -/
lemma kbdgetc_cons (past : List Event) (esc : Bool) (d : UInt8) (bs : List UInt8) : kbdgetc ⟨word past esc, d :: bs⟩ =
    if d = 0xE0 then (some 0, ⟨word past true, bs⟩)
    else if d &&& 0x80 ≠ 0 then (some 0, ⟨word (.release (if esc then d else d &&& 0x7F) :: past) false, bs⟩)
    else
      let key := if esc then d ||| 0x80 else d
      (some (code (.press key :: past) key), ⟨word (.press key :: past) false, bs⟩) := by
  have hesc : word past esc &&& E0ESC ≠ 0 ↔ esc = true := (bits_ops _ _ _ _ _ _ _).2.2.2.2.2.1
  have hset : word past esc ||| E0ESC = word past true := (bits_ops _ _ _ _ _ _ _).2.2.2.1
  have hunset : word past esc &&& ~~~E0ESC = word past false := (bits_ops _ _ _ _ _ _ _).2.2.2.2.1
  unfold kbdgetc
  dsimp only
  by_cases h : d = 0xE0
  · rw [if_pos h, if_pos h, hset]
  by_cases hr : d &&& 0x80 ≠ 0
  · rw [if_neg h, if_neg h, if_pos hr, if_pos hr, word_release]
    simp only [hesc]
  · rw [if_neg h, if_neg h, if_neg hr, if_neg hr]
    have hshift : (if word past esc &&& E0ESC ≠ 0 then word past esc &&& ~~~E0ESC else word past esc) = word past false := by
      by_cases he : esc = true
      · rw [if_pos (hesc.2 he), hunset]
      · rw [if_neg (fun hc => he (hesc.1 hc)), Bool.eq_false_iff.2 he]
    have hkey : (if word past esc &&& E0ESC ≠ 0 then d ||| 0x80 else d) = if esc then d ||| 0x80 else d := by
      simp only [hesc]
    rw [hshift, hkey, word_press]
    have hcaps : decide (word (.press (if esc then d ||| 0x80 else d) :: past) false &&& CAPSLOCK ≠ 0) =
        on 0x3A (.press (if esc then d ||| 0x80 else d) :: past) := by
      rw [Bool.eq_iff_iff, decide_eq_true_iff]
      exact (bits_ops _ _ _ _ _ _ _).2.2.2.2.2.2.1
    rw [hcaps, code, word, charcode_bits]

lemma consoleintr_zero (i : Input) : i.consoleintr 0 = i := by
  have h : ∀ x : UInt8, x ≠ 0 → (0 : UInt8) ≠ x := fun x hx => hx.symm
  unfold Input.consoleintr
  rw [if_neg (by decide), if_neg (by decide), if_neg (by decide), if_neg (by decide), if_neg (by decide), Input.insert,
    if_neg (by simp)]

lemma kbdintr_some {x y : Kbd} {b : UInt8} {m : ℕ} {i : Input} (h : kbdgetc x = (some b, y)) :
    kbdintr (m + 1) x i = kbdintr m y (i.consoleintr b) := by
  rw [kbdintr, h]

/-- The loop empties the port, and `consoleintr` gets what the presses type. -/
lemma kbdintr_eq (bs : List UInt8) (past : List Event) (esc : Bool) (i : Input) (m : ℕ) (h : bs.length < m) :
    kbdintr m ⟨word past esc, bs⟩ i = some (⟨word ((events esc bs).reverse ++ past) (escaped esc bs), []⟩,
      (typed past (events esc bs)).foldl Input.consoleintr i) := by
  induction bs generalizing past esc i m with
  | nil =>
    obtain ⟨m, rfl⟩ : ∃ m', m = m' + 1 := ⟨m - 1, by simp at h; omega⟩
    rfl
  | cons d bs ih =>
    obtain ⟨m, rfl⟩ : ∃ m', m = m' + 1 := ⟨m - 1, by omega⟩
    have hlt : bs.length < m := by simpa using h
    rw [events, escaped]
    have hget := kbdgetc_cons past esc d bs
    by_cases h0 : d = 0xE0
    · rw [if_pos h0] at hget ⊢
      rw [kbdintr_some hget, consoleintr_zero, decide_eq_true h0]
      exact ih past true i m hlt
    rw [decide_eq_false h0]
    by_cases hr : d &&& 0x80 ≠ 0
    · rw [if_neg h0, if_pos hr] at hget ⊢
      rw [kbdintr_some hget, consoleintr_zero, typed, List.reverse_cons, List.append_assoc]
      exact ih _ false i m hlt
    · rw [if_neg h0, if_neg hr] at hget ⊢
      rw [kbdintr_some hget, typed, List.foldl_cons, List.reverse_cons, List.append_assoc]
      exact ih _ false _ m hlt

lemma events_append (esc : Bool) (bs bs' : List UInt8) :
    events esc (bs ++ bs') = events esc bs ++ events (escaped esc bs) bs' := by
  induction bs generalizing esc with
  | nil => rfl
  | cons d bs ih =>
    rw [List.cons_append, events, events, escaped]
    by_cases h0 : d = 0xE0
    · rw [if_pos h0, if_pos h0, decide_eq_true h0, ih]
    · rw [if_neg h0, if_neg h0, decide_eq_false h0, ih]
      split <;> rfl

lemma escaped_append (esc : Bool) (bs bs' : List UInt8) : escaped esc (bs ++ bs') = escaped (escaped esc bs) bs' := by
  induction bs generalizing esc with
  | nil => rfl
  | cons d bs ih => exact ih _

lemma typed_append (past es es' : List Event) : typed past (es ++ es') = typed past es ++ typed (es.reverse ++ past) es' := by
  induction es generalizing past with
  | nil => rfl
  | cons e es ih => cases e <;> simp [typed, ih]

lemma interrupts_eq (bss : List (List UInt8)) (past : List Event) (esc : Bool) (i : Input) :
    interrupts bss (⟨word past esc, []⟩, i) =
      some (⟨word ((events esc bss.flatten).reverse ++ past) (escaped esc bss.flatten), []⟩,
        (typed past (events esc bss.flatten)).foldl Input.consoleintr i) := by
  induction bss generalizing past esc i with
  | nil => rfl
  | cons bs bss ih =>
    rw [interrupts, List.nil_append, kbdintr_eq bs past esc i _ (Nat.lt_succ_self _), Option.bind_some, ih,
      List.flatten_cons, events_append, escaped_append, typed_append, List.foldl_append, List.reverse_append,
      List.append_assoc]

/-- **The keyboard follows the history of its keys**: for every stream of scan codes, however it interleaves presses,
releases and escapes and however it is cut into interrupts, `consoleintr` gets what the presses type and nothing else. -/
theorem keys_typed (bss : List (List UInt8)) (i : Input) :
    interrupts bss (⟨0, []⟩, i) =
      some (⟨word (events false bss.flatten).reverse (escaped false bss.flatten), []⟩,
        (typed [] (events false bss.flatten)).foldl Input.consoleintr i) := by
  have hzero : (0 : UInt32) = word [] false := by decide
  rw [hzero, interrupts_eq, List.append_nil]

end Os132.Console.Keyboard

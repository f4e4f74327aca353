import Os132.Console.Shifts

/-!
# The console's line on the screen

`consoleintr` shows what it does to `input.buf` by single calls of `consputc`: `echo` lists the
arguments of these calls for one byte. The cursor moves with codes that print nothing, every other
code leaves a blank at the cursor. Characters of `input.buf` are signed, so they are none of the
codes. The serial port and the process listing of Control-P are left out.
-/

namespace Os132

namespace Console

def BACKSPACE : ℤ := 0x100

/-- A character of `input.buf` as the argument of `consputc`. -/
def signed (b : UInt8) : ℤ := if b.toNat < 128 then b.toNat else b.toNat - 256

/-- `(c & 0xff) | 0x0700` for the byte `c & 0xff`. -/
def cell (b : UInt8) : UInt16 := b.toUInt16 ||| 0x0700

/-- The CGA memory, row after row of 80 cells, and the cursor position in its registers. -/
structure Screen where
  crt : ℕ → UInt16
  pos : ℕ

namespace Screen

def set (scr : Screen) (j : ℕ) (x : UInt16) : Screen := { scr with crt := Function.update scr.crt j x }

/-- Scroll up: the rows move up one, and what is behind the cursor is cleared. -/
def scroll (scr : Screen) : Screen where
  crt j := if scr.pos - 80 ≤ j ∧ j < 24 * 80 then 0 else if j < 23 * 80 then scr.crt (j + 80) else scr.crt j
  pos := scr.pos - 80

/-- The cursor and the character of `cgaputc(c)`. -/
def emit (c : ℤ) (scr : Screen) : Screen :=
  if c = 10 then { scr with pos := scr.pos + (80 - scr.pos % 80) }
  else if c = BACKSPACE then { scr with pos := scr.pos - 1 }
  else if c = KEY_LF.toNat then { scr with pos := scr.pos - 1 }
  else if c = KEY_RT.toNat then { scr with pos := scr.pos + 1 }
  else { (scr.set scr.pos (cell (UInt8.ofNat (c % 256).toNat))) with pos := scr.pos + 1 }

def cgaputc (scr : Screen) (c : ℤ) : Screen :=
  let scr := scr.emit c
  let scr := if scr.pos / 80 ≥ 24 then scr.scroll else scr
  if c ≠ KEY_LF.toNat ∧ c ≠ KEY_RT.toNat then scr.set scr.pos (cell 32) else scr

end Screen

namespace Input

/-- The backspaces of the loop of `C('U')`. -/
def killEcho (s : Input) : ℕ → List ℤ
  | 0 => []
  | k + 1 =>
    if s.e ≠ s.w ∧ s.buf ((s.e - 1) % INPUT_BUF).toNat ≠ newline then
      BACKSPACE :: killEcho { s with e := s.e - 1 } k
    else []

/-- `for(; i < b; i++) consputc(input.buf[i%INPUT_BUF])` -/
def printed (buf : ℕ → UInt8) (i b : UInt32) : List ℤ :=
  (passes i b).map fun j => signed (buf (j % INPUT_BUF).toNat)

/-- `for(; i < b; i++) consputc(KEY_LF)` -/
def lefts (i b : UInt32) : List ℤ := (passes i b).map fun _ => (KEY_LF.toNat : ℤ)

def backspaceEcho (s : Input) : List ℤ :=
  if s.e ≠ s.w then
    if 0 < s.a then
      (KEY_LF.toNat : ℤ) :: (printed (shiftLeftBuf s.buf ((s.e - 1) % INPUT_BUF) s.a) (s.e - s.a - 1) s.e ++
        lefts (s.e - s.a) (s.e + 1))
    else [BACKSPACE]
  else []

def insertEcho (s : Input) (c : UInt8) : List ℤ :=
  if c ≠ 0 ∧ s.e - s.r < INPUT_BUF then
    if cooked c ≠ newline ∧ 0 < s.a then
      printed (s.put (cooked c)).buf (s.e - s.a) (s.e + 1) ++ lefts (s.e - s.a) s.e
    else [((cooked c).toNat : ℤ)]
  else []

/-- The arguments of `consputc` while `consoleintr` handles the byte `c`. -/
def echo (s : Input) (c : UInt8) : List ℤ :=
  if c = C 'P' then []
  else if c = C 'U' then s.killEcho (s.e - s.w).toNat
  else if c = C 'H' ∨ c = delete then s.backspaceEcho
  else if c = KEY_LF then if s.w < s.e - s.a then [(KEY_LF.toNat : ℤ)] else []
  else if c = KEY_RT then if 0 < s.a ∧ s.e % INPUT_BUF < INPUT_BUF - 1 then [(KEY_RT.toNat : ℤ)] else []
  else s.insertEcho c

end Input

/-! ### What the codes do to the screen -/

namespace Screen

variable {scr : Screen} {c : ℤ} {j : ℕ}

@[simp] lemma set_pos (scr : Screen) (j : ℕ) (x : UInt16) : (scr.set j x).pos = scr.pos := rfl

lemma set_crt (scr : Screen) (i j : ℕ) (x : UInt16) : (scr.set i x).crt j = if j = i then x else scr.crt j := by
  simp [set, Function.update_apply]

/-- A code for a character: none of the four that only move the cursor. -/
def Prints (c : ℤ) : Prop := c ≠ 10 ∧ c ≠ BACKSPACE ∧ c ≠ KEY_LF.toNat ∧ c ≠ KEY_RT.toNat

lemma prints_signed {b : UInt8} (h : b ≠ newline) : Prints (signed b) := by
  have hb : b.toNat ≠ 10 := fun he => h (UInt8.toNat_inj.1 he)
  have hlt := b.toNat_lt
  have h1 : (KEY_LF.toNat : ℤ) = 228 := rfl
  have h2 : (KEY_RT.toNat : ℤ) = 229 := rfl
  unfold signed Prints BACKSPACE
  rw [h1, h2]
  split <;> omega

lemma lowByte_signed (b : UInt8) : UInt8.ofNat (signed b % 256).toNat = b := by
  have hlt := b.toNat_lt
  have hmod : (signed b % 256).toNat = b.toNat := by
    unfold signed
    split <;> omega
  rw [hmod, UInt8.ofNat_toNat]

lemma cgaputc_prints (scr : Screen) (hc : Prints c) (hpos : scr.pos + 1 < 24 * 80) :
    (scr.cgaputc c).pos = scr.pos + 1 ∧
      ∀ j, (scr.cgaputc c).crt j = if j = scr.pos + 1 then cell 32
        else if j = scr.pos then cell (UInt8.ofNat (c % 256).toNat) else scr.crt j := by
  have hemit : scr.emit c = { (scr.set scr.pos (cell (UInt8.ofNat (c % 256).toNat))) with pos := scr.pos + 1 } := by
    rw [emit, if_neg hc.1, if_neg hc.2.1, if_neg hc.2.2.1, if_neg hc.2.2.2]
  have hrow : ¬(scr.pos + 1) / 80 ≥ 24 := by omega
  rw [cgaputc, hemit]
  simp only [if_neg hrow, if_pos hc.2.2]
  refine ⟨rfl, fun j => ?_⟩
  rw [set_crt]
  simp only
  split
  · rfl
  · rw [set_crt]

lemma cgaputc_left (hpos : scr.pos < 24 * 80) :
    scr.cgaputc KEY_LF.toNat = { scr with pos := scr.pos - 1 } := by
  have hemit : scr.emit KEY_LF.toNat = { scr with pos := scr.pos - 1 } := by
    rw [emit, if_neg (by decide), if_neg (by decide), if_pos rfl]
  have hrow : ¬(scr.pos - 1) / 80 ≥ 24 := by omega
  rw [cgaputc, hemit]
  simp only [if_neg hrow]
  rw [if_neg (by simp)]

lemma cgaputc_right (hpos : scr.pos + 1 < 24 * 80) :
    scr.cgaputc KEY_RT.toNat = { scr with pos := scr.pos + 1 } := by
  have hemit : scr.emit KEY_RT.toNat = { scr with pos := scr.pos + 1 } := by
    rw [emit, if_neg (by decide), if_neg (by decide), if_neg (by decide), if_pos rfl]
  have hrow : ¬(scr.pos + 1) / 80 ≥ 24 := by omega
  rw [cgaputc, hemit]
  simp only [if_neg hrow]
  rw [if_neg (by simp)]

lemma cgaputc_backspace (hpos : scr.pos < 24 * 80) :
    scr.cgaputc BACKSPACE = { scr with pos := scr.pos - 1 }.set (scr.pos - 1) (cell 32) := by
  have hemit : scr.emit BACKSPACE = { scr with pos := scr.pos - 1 } := by
    rw [emit, if_neg (by decide), if_pos rfl]
  have hrow : ¬(scr.pos - 1) / 80 ≥ 24 := by omega
  rw [cgaputc, hemit]
  simp only [if_neg hrow]
  rw [if_pos (by decide)]

/-- What printing `bs` leaves: the bytes from the cursor on, a blank at the new cursor. -/
structure Shown (scr scr' : Screen) (bs : List UInt8) : Prop where
  pos : scr'.pos = scr.pos + bs.length
  new : ∀ i (hi : i < bs.length), scr'.crt (scr.pos + i) = cell bs[i]
  next : bs ≠ [] → scr'.crt (scr.pos + bs.length) = cell 32
  old : ∀ j, j < scr.pos ∨ scr.pos + bs.length < j → scr'.crt j = scr.crt j

lemma shown_signed (scr : Screen) (bs : List UInt8) (hbs : newline ∉ bs) (hpos : scr.pos + bs.length < 24 * 80) :
    Shown scr ((bs.map signed).foldl cgaputc scr) bs := by
  induction bs generalizing scr with
  | nil => exact ⟨rfl, by simp, by simp, fun j _ => rfl⟩
  | cons b bs ih =>
    simp only [List.mem_cons, not_or] at hbs
    simp only [List.length_cons] at hpos
    obtain ⟨hp, hcrt⟩ := cgaputc_prints scr (prints_signed (Ne.symm hbs.1)) (by omega)
    rw [lowByte_signed] at hcrt
    have hrest := ih (scr.cgaputc (signed b)) hbs.2 (by omega)
    rw [List.map_cons, List.foldl_cons]
    constructor
    · rw [hrest.pos, hp, List.length_cons]
      omega
    · intro i hi
      cases i with
      | zero =>
        rw [hrest.old _ (by omega), hcrt, if_neg (by omega), if_pos (by omega)]
        rfl
      | succ i =>
        have := hrest.new i (by simpa using hi)
        rw [hp] at this
        rw [show scr.pos + (i + 1) = scr.pos + 1 + i by omega, this]
        rfl
    · intro _
      by_cases hb : bs = []
      · subst hb
        change (scr.cgaputc (signed b)).crt (scr.pos + 1) = _
        rw [hcrt, if_pos rfl]
      · have := hrest.next hb
        rw [hp] at this
        rw [List.length_cons, show scr.pos + (bs.length + 1) = scr.pos + 1 + bs.length by omega, this]
    · intro j hj
      rw [List.length_cons] at hj
      rw [hrest.old j (by omega), hcrt, if_neg (by omega), if_neg (by omega)]

lemma foldl_left (n : ℕ) (hpos : scr.pos < 24 * 80) :
    (List.replicate n (KEY_LF.toNat : ℤ)).foldl cgaputc scr = { scr with pos := scr.pos - n } := by
  induction n generalizing scr with
  | zero => rfl
  | succ n ih =>
    rw [List.replicate_succ, List.foldl_cons, cgaputc_left hpos, ih]
    · simp only [Screen.mk.injEq, true_and]
      omega
    · change scr.pos - 1 < _
      omega

end Screen

namespace Input

variable {s : Input} {c : UInt8} {scr : Screen} {start : ℕ} {old : ℕ → UInt16}

lemma passes_length (i b : UInt32) : (passes i b).length = b.toNat - i.toNat := by
  simp [passes]

lemma lefts_eq (i b : UInt32) : lefts i b = List.replicate (b.toNat - i.toNat) (KEY_LF.toNat : ℤ) := by
  rw [lefts, List.map_const', passes_length]

/-- The loop that prints shows a window of the array. -/
lemma printed_eq (buf : ℕ → UInt8) (i b : UInt32) :
    printed buf i b = (Ring.window 128 buf i.toNat (b.toNat - i.toNat)).map signed := by
  have hn : INPUT_BUF.toNat = 128 := rfl
  rw [printed, passes, Ring.window, List.map_map, List.map_map]
  apply List.map_congr_left
  intro j hj
  have hlt := List.mem_range.1 hj
  have hb := b.toNat_lt
  have hmod : j % 2 ^ 32 = j := Nat.mod_eq_of_lt (by omega)
  have hsum : (i + UInt32.ofNat j).toNat = i.toNat + j := by
    rw [UInt32.toNat_add, UInt32.toNat_ofNat', hmod]
    exact Nat.mod_eq_of_lt (by omega)
  simp only [Function.comp, UInt32.toNat_mod, hsum, hn]

end Input

end Console

end Os132

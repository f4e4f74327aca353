import Os132.Lib.Ring
import Os132.Lib.Run

/-!
# The console's input buffer (console.c)

`input` is a ring of `INPUT_BUF` bytes with a read index `r`, a write index `w`, an edit index `e`
and the number `a` of steps the cursor stands left of `e`. `consoleintr` handles one byte at a
time under `input.lock`, `consoleread` takes bytes out until a line ends, and sleeps, with the lock
dropped, when `r` has reached `w`. What is written to the screen is left out.

Indices are 32-bit. `buf i` is the byte at `input.buf + i`: from `INPUT_BUF` on (negative offsets
of the source are large ones) it lies outside the array.
-/

namespace Os132

namespace Console

def INPUT_BUF : UInt32 := 128

/-- `C(x)`, Control-x. -/
def C (x : Char) : UInt8 := UInt8.ofNat x.toNat - UInt8.ofNat '@'.toNat

def KEY_LF : UInt8 := 0xE4

def KEY_RT : UInt8 := 0xE5

def newline : UInt8 := 10

def carriageReturn : UInt8 := 13

/-- `'\x7f'`, which the source treats as Control-h. -/
def delete : UInt8 := 0x7f

structure Input where
  buf : ℕ → UInt8
  r : UInt32
  w : UInt32
  e : UInt32
  a : UInt32

/-- The state `consoleinit` finds: `input` is zero-initialised. -/
def Input.boot : Input := ⟨fun _ => 0, 0, 0, 0, 0⟩

/-- Store `c` at `input.buf + i`. -/
def store (buf : ℕ → UInt8) (i : UInt32) (c : UInt8) : ℕ → UInt8 :=
  fun x => if x = i.toNat then c else buf x

/-- The loop of `shiftRightBuf(e, k)`; `k` counts down what is left of it. -/
def shiftRightBuf (buf : ℕ → UInt8) (e : UInt32) : ℕ → (ℕ → UInt8)
  | 0 => buf
  | k + 1 => shiftRightBuf (store buf e (buf (e - 1).toNat)) (e - 1) k

/-- The loop of `shiftLeftBuf` from index `i` on. -/
def shiftLeftLoop (buf : ℕ → UInt8) (i : UInt32) : ℕ → (ℕ → UInt8)
  | 0 => buf
  | k + 1 => shiftLeftLoop (store buf i (buf (i + 1).toNat)) (i + 1) k

def shiftLeftBuf (buf : ℕ → UInt8) (e k : UInt32) : ℕ → UInt8 :=
  store (shiftLeftLoop buf (e - k) k.toNat) e 32

namespace Input

/-- The loop of `C('U')`. Every pass lowers `e - w` by one, so `(e - w).toNat` passes suffice. -/
def killLoop (s : Input) : ℕ → Input
  | 0 => s
  | k + 1 =>
    if s.e ≠ s.w ∧ s.buf ((s.e - 1) % INPUT_BUF).toNat ≠ newline then
      killLoop { s with e := s.e - 1 } k
    else s

def killLine (s : Input) : Input := s.killLoop (s.e - s.w).toNat

def backspace (s : Input) : Input :=
  if s.e ≠ s.w then
    if 0 < s.a then
      { s with buf := shiftLeftBuf s.buf ((s.e - 1) % INPUT_BUF) s.a, e := s.e - 1 }
    else { s with e := s.e - 1 }
  else s

def left (s : Input) : Input :=
  if s.w < s.e - s.a then { s with a := s.a + 1 } else s

def right (s : Input) : Input :=
  if 0 < s.a ∧ s.e % INPUT_BUF < INPUT_BUF - 1 then { s with a := s.a - 1 } else s

/-- The stores of the `default` case: at the cursor, or at the end for a newline. -/
def put (s : Input) (c : UInt8) : Input :=
  if c ≠ newline ∧ 0 < s.a then
    { s with
      buf := store (shiftRightBuf s.buf (s.e % INPUT_BUF) s.a.toNat) ((s.e - s.a) % INPUT_BUF) c
      e := s.e + 1 }
  else { s with buf := store s.buf (s.e % INPUT_BUF) c, e := s.e + 1 }

/-- The end of the `default` case, with `wakeup(&input.r)`: a reader may run again at any time. -/
def commit (s : Input) (c : UInt8) : Input :=
  if c = newline ∨ c = C 'D' ∨ s.e = s.r + INPUT_BUF then { s with w := s.e, a := 0 } else s

/-- `c = (c == '\r') ? '\n' : c` -/
def cooked (c : UInt8) : UInt8 := if c = carriageReturn then newline else c

def insert (s : Input) (c : UInt8) : Input :=
  if c ≠ 0 ∧ s.e - s.r < INPUT_BUF then (s.put (cooked c)).commit (cooked c) else s

/-- One pass of the loop of `consoleintr`, for the byte that `getc` returned. -/
def consoleintr (s : Input) (c : UInt8) : Input :=
  if c = C 'P' then s
  else if c = C 'U' then s.killLine
  else if c = C 'H' ∨ c = delete then s.backspace
  else if c = KEY_LF then s.left
  else if c = KEY_RT then s.right
  else s.insert c

end Input

/-- Where a call of `consoleread` stands when it gives up `input.lock`. -/
inductive Status where
  | returned (v : Int)
  /-- asleep on `&input.r` with `n` bytes to go -/
  | asleep (n : ℕ)
  deriving DecidableEq

/-- What one stretch of `consoleread` under the lock did: the new `input`, the bytes it stored at
`dst`, and the bytes it took out of `input.buf` (a `^D` is taken out and not stored). -/
structure Reading where
  input : Input
  dst : List UInt8
  taken : List UInt8
  status : Status

/-- The loop of `consoleread` with `n` of `target` bytes to go. -/
def consoleread (killed : Bool) (target : ℕ) : ℕ → Input → Reading
  | 0, s => ⟨s, [], [], .returned target⟩
  | n + 1, s =>
    if s.r = s.w then ⟨s, [], [], if killed then .returned (-1) else .asleep (n + 1)⟩
    else
      let c := s.buf (s.r % INPUT_BUF).toNat
      let s₁ := { s with r := s.r + 1 }
      if c = C 'D' then
        if n + 1 < target then ⟨{ s₁ with r := s₁.r - 1 }, [], [], .returned (target - (n + 1) : ℕ)⟩
        else ⟨s₁, [], [c], .returned (target - (n + 1) : ℕ)⟩
      else if c = newline then ⟨s₁, [c], [c], .returned (target - n : ℕ)⟩
      else
        let q := consoleread killed target n s₁
        { q with dst := c :: q.dst, taken := c :: q.taken }

/-! ### Positions in the ring -/

namespace Input

variable {s : Input}

/-- The length of `[r, w)`: bytes that readers may take. -/
def unread (s : Input) : ℕ := (s.w - s.r).toNat

/-- The length of `[r, e)`: bytes in the buffer. -/
def held (s : Input) : ℕ := (s.e - s.r).toNat

/-- `0 ≤ w - r ≤ e - r ≤ INPUT_BUF` and `a ≤ e - w`, with distances modulo `2 ^ 32`. -/
structure Sound (s : Input) : Prop where
  unread_le : s.unread ≤ s.held
  held_le : s.held ≤ 128
  cursor : s.a.toNat ≤ (s.e - s.w).toNat

/-- The bytes of `[r, e)`. -/
def contents (s : Input) : List UInt8 := Ring.window 128 s.buf s.r.toNat s.held

@[simp] lemma length_contents : s.contents.length = s.held := by simp [contents]

lemma Sound.boot : Input.boot.Sound where
  unread_le := by decide
  held_le := by decide
  cursor := by decide

lemma Sound.line (h : s.Sound) : (s.e - s.w).toNat = s.held - s.unread := by
  have := h.unread_le
  have hr := s.r.toNat_lt
  have hw := s.w.toNat_lt
  have he := s.e.toNat_lt
  simp only [held, unread, UInt32.toNat_sub] at this ⊢
  omega

lemma e_ne_w (h : s.Sound) : s.e ≠ s.w ↔ s.unread < s.held := by
  have hl := h.line
  have hu := h.unread_le
  have hw := s.w.toNat_lt
  have he := s.e.toNat_lt
  rw [Ne, ← UInt32.toNat_inj]
  simp only [UInt32.toNat_sub] at hl
  omega

lemma r_eq_w : s.r = s.w ↔ s.unread = 0 := by
  have hr := s.r.toNat_lt
  have hw := s.w.toNat_lt
  rw [← UInt32.toNat_inj, unread, UInt32.toNat_sub]
  omega

lemma slot_back {k : UInt32} (hk : k.toNat ≤ s.held) :
    ((s.e - k) % INPUT_BUF).toNat = (s.r.toNat + (s.held - k.toNat)) % 128 := by
  have hr := s.r.toNat_lt
  have he := s.e.toNat_lt
  have hn : INPUT_BUF.toNat = 128 := rfl
  simp only [held, UInt32.toNat_mod, UInt32.toNat_sub, hn] at hk ⊢
  omega

lemma slot_e : (s.e % INPUT_BUF).toNat = (s.r.toNat + s.held) % 128 := by
  have h := @slot_back s 0 (by simp)
  simpa using h

lemma slot_r : (s.r % INPUT_BUF).toNat = s.r.toNat % 128 := rfl

end Input

/-! ### The shifts -/

/-- A shift to the right that stays in the array moves the `k` bytes before `e` one place on. -/
lemma shiftRightBuf_apply {k : ℕ} {e : UInt32} (buf : ℕ → UInt8) (hk : k ≤ e.toNat) (x : ℕ) :
    shiftRightBuf buf e k x = if e.toNat - k < x ∧ x ≤ e.toNat then buf (x - 1) else buf x := by
  induction k generalizing buf e with
  | zero =>
    rw [if_neg (by omega)]
    rfl
  | succ k ih =>
    have he : (e - 1).toNat = e.toNat - 1 := by
      have := e.toNat_lt
      simp only [UInt32.toNat_sub, UInt32.toNat_one]
      omega
    rw [shiftRightBuf, ih _ (by omega), he]
    unfold store
    by_cases hx : x = e.toNat
    · rw [if_neg (by omega), if_pos hx, if_pos (by omega), hx]
    · rw [if_neg hx]
      by_cases hm : e.toNat - 1 - k < x ∧ x ≤ e.toNat - 1
      · rw [if_pos hm, if_neg (by omega), if_pos (by omega)]
      · rw [if_neg hm, if_neg (by omega)]

/-- A shift to the left that stays in the array moves the `k` bytes from `i + 1` on one place back. -/
lemma shiftLeftLoop_apply {k : ℕ} {i : UInt32} (buf : ℕ → UInt8) (hk : i.toNat + k < 2 ^ 32) (x : ℕ) :
    shiftLeftLoop buf i k x = if i.toNat ≤ x ∧ x < i.toNat + k then buf (x + 1) else buf x := by
  induction k generalizing buf i with
  | zero =>
    rw [if_neg (by omega)]
    rfl
  | succ k ih =>
    have hi : (i + 1).toNat = i.toNat + 1 := by
      simp only [UInt32.toNat_add, UInt32.toNat_one]
      omega
    rw [shiftLeftLoop, ih _ (by omega), hi]
    unfold store
    by_cases hx : x = i.toNat
    · rw [if_neg (by omega), if_pos hx, if_pos (by omega), hx]
    · rw [if_neg hx]
      by_cases hm : i.toNat + 1 ≤ x ∧ x < i.toNat + 1 + k
      · rw [if_pos hm, if_neg (by omega), if_pos (by omega)]
      · rw [if_neg hm, if_neg (by omega)]

/-- A shift to the right stores to `e`, `e - 1`, …, `e - k + 1`, which wrap around below 0. -/
lemma shiftRightBuf_other {k : ℕ} {e : UInt32} {x : ℕ} (buf : ℕ → UInt8) (hx : ∀ j, j < k → (e - UInt32.ofNat j).toNat ≠ x) :
    shiftRightBuf buf e k x = buf x := by
  induction k generalizing buf e with
  | zero => rfl
  | succ k ih =>
    have h0 : x ≠ e.toNat := by
      have := hx 0 (Nat.succ_pos k)
      simpa using this.symm
    rw [shiftRightBuf, ih _ fun j hj => ?_, store, if_neg h0]
    have hj' := hx (j + 1) (by omega)
    simp only [UInt32.toNat_sub, UInt32.toNat_one, UInt32.toNat_ofNat'] at hj' ⊢
    omega

/-- A shift to the left stores to `i`, `i + 1`, …, `i + k - 1`. -/
lemma shiftLeftLoop_other {k : ℕ} {i : UInt32} {x : ℕ} (buf : ℕ → UInt8) (hx : ∀ j, j < k → (i + UInt32.ofNat j).toNat ≠ x) :
    shiftLeftLoop buf i k x = buf x := by
  induction k generalizing buf i with
  | zero => rfl
  | succ k ih =>
    have h0 : x ≠ i.toNat := by
      have := hx 0 (Nat.succ_pos k)
      simpa using this.symm
    rw [shiftLeftLoop, ih _ fun j hj => ?_, store, if_neg h0]
    have hj' := hx (j + 1) (by omega)
    simp only [UInt32.toNat_add, UInt32.toNat_one, UInt32.toNat_ofNat'] at hj' ⊢
    omega

end Console

end Os132

import Os132.Console.Editing

/-!
# Runs of the console

The events are one byte given to `consoleintr`, a call of `consoleread` by a process, and a sleeping
reader that runs again. Each holds `input.lock` throughout, so every interleaving of input and
readers is a sequence of them. `taken` records the bytes that readers took out of `input.buf`.
-/

namespace Os132

namespace Console

namespace Input

variable {s : Input}

/-- The bytes of `[r, w)`. -/
def committed (s : Input) : List UInt8 := Ring.window 128 s.buf s.r.toNat s.unread

lemma committed_eq (h : s.Sound) : s.committed = s.contents.take s.unread :=
  (Ring.take_window h.unread_le).symm

/-! ### Taking one byte -/

section take

variable (h : s.Sound) (hne : s.r ≠ s.w)

/-- `input` after `input.r++`. -/
def advance (s : Input) : Input := { s with r := s.r + 1 }

include hne in
lemma unread_advance : s.advance.unread + 1 = s.unread := by
  have := r_eq_w.not.1 hne
  have hr := s.r.toNat_lt
  have hw := s.w.toNat_lt
  simp only [advance, unread, UInt32.toNat_sub, UInt32.toNat_add, UInt32.toNat_one] at this ⊢
  omega

include h hne in
lemma held_advance : s.advance.held + 1 = s.held := by
  have := r_eq_w.not.1 hne
  have hu := h.unread_le
  have hr := s.r.toNat_lt
  have he := s.e.toNat_lt
  simp only [advance, held, UInt32.toNat_sub, UInt32.toNat_add, UInt32.toNat_one] at this hu ⊢
  omega

include h hne in
lemma sound_advance : s.advance.Sound := by
  have hu := unread_advance hne
  have hh := held_advance h hne
  have := h.unread_le
  have := h.held_le
  exact ⟨by omega, by omega, h.cursor⟩

lemma window_advance (n : ℕ) : Ring.window 128 s.buf s.r.toNat (n + 1) =
    s.buf (s.r % INPUT_BUF).toNat :: Ring.window 128 s.buf s.advance.r.toNat n := by
  have hr := s.r.toNat_lt
  rw [Ring.window_cons, slot_r]
  congr 1
  apply Ring.window_start
  simp only [advance, UInt32.toNat_add, UInt32.toNat_one]
  omega

include hne in
lemma committed_advance : s.committed = s.buf (s.r % INPUT_BUF).toNat :: s.advance.committed := by
  rw [committed, ← unread_advance hne, window_advance]
  rfl

include h hne in
lemma contents_advance : s.contents = s.buf (s.r % INPUT_BUF).toNat :: s.advance.contents := by
  rw [contents, ← held_advance h hne, window_advance]
  rfl

end take

end Input

/-- What a stretch of `consoleread` may do: take bytes off the front of `[r, w)`, and nothing else. -/
structure Takes (s s' : Input) (bytes : List UInt8) : Prop where
  sound : s'.Sound
  buf : s'.buf = s.buf
  w : s'.w = s.w
  e : s'.e = s.e
  a : s'.a = s.a
  committed : s.committed = bytes ++ s'.committed
  contents : s.contents = bytes ++ s'.contents

lemma consoleread_takes (killed : Bool) (target n : ℕ) {s : Input} (h : s.Sound) :
    Takes s (consoleread killed target n s).input (consoleread killed target n s).taken := by
  induction n generalizing s with
  | zero => exact ⟨h, rfl, rfl, rfl, rfl, rfl, rfl⟩
  | succ n ih =>
    by_cases hne : s.r = s.w
    · simp only [consoleread, if_pos hne]
      exact ⟨h, rfl, rfl, rfl, rfl, rfl, rfl⟩
    · have hc := Input.committed_advance hne
      have hw := Input.contents_advance h hne
      have hs := Input.sound_advance h hne
      simp only [consoleread, if_neg hne]
      split_ifs
      · -- `^D` behind other bytes is put back
        have hr : s.r + 1 - 1 = s.r := by simp
        rw [hr]
        exact ⟨h, rfl, rfl, rfl, rfl, rfl, rfl⟩
      · exact ⟨hs, rfl, rfl, rfl, rfl, hc, hw⟩
      · exact ⟨hs, rfl, rfl, rfl, rfl, hc, hw⟩
      · have q := ih hs
        refine ⟨q.sound, q.buf, q.w, q.e, q.a, ?_, ?_⟩
        · rw [hc, q.committed]
          rfl
        · rw [hw, q.contents]
          rfl

/-! ### Events -/

/-- A process asleep in `consoleread`, with its `target` and the `n` it has to go. -/
abbrev Sleepers := ℕ → Option (ℕ × ℕ)

/-- Process `p` leaves the lock with this status. -/
def Sleepers.settle (q : Sleepers) (p target : ℕ) : Status → Sleepers
  | .returned _ => fun p' => if p' = p then none else q p'
  | .asleep n => fun p' => if p' = p then some (target, n) else q p'

inductive Event where
  /-- `consoleintr` handles the byte `c` -/
  | byte (c : UInt8)
  /-- process `p` calls `consoleread` for `n` bytes -/
  | read (p n : ℕ) (killed : Bool)
  /-- process `p` wakes up in `consoleread` -/
  | resume (p : ℕ) (killed : Bool)

/-- The console with its readers. -/
structure Device where
  input : Input
  sleeper : Sleepers
  taken : List UInt8

namespace Device

def boot : Device := ⟨.boot, fun _ => none, []⟩

def reading (d : Device) (p : ℕ) (killed : Bool) (target n : ℕ) : Device :=
  let q := consoleread killed target n d.input
  ⟨q.input, d.sleeper.settle p target q.status, d.taken ++ q.taken⟩

def step (ev : Event) (d : Device) : Device :=
  match ev with
  | .byte c => { d with input := d.input.consoleintr c }
  | .read p n killed => if d.sleeper p = none then d.reading p killed n n else d
  | .resume p killed =>
    match d.sleeper p with
    | some (target, n) => d.reading p killed target n
    | none => d

end Device

/-- Runs of the console: any sequence of input bytes and of calls and wakeups of readers. -/
abbrev Session (n : ℕ) := Lts.Run (· = Device.boot) (fun ev d => some (Device.step ev d)) n

/-- The key of the event, if it is one, meets `ok`. -/
def OnKey (ok : Input → UInt8 → Prop) (d : Device) (ev : Event) : Prop :=
  ∀ c, ev = .byte c → ok d.input c

lemma sound_reading {d : Device} (h : d.input.Sound) (p : ℕ) (killed : Bool) (target n : ℕ) :
    (d.reading p killed target n).input.Sound :=
  (consoleread_takes killed target n h).sound

/-- An event other than a key keeps the distances. -/
lemma sound_step {d : Device} {ev : Event} (h : d.input.Sound) (hev : ∀ c, ev ≠ .byte c) :
    (Device.step ev d).input.Sound := by
  cases ev with
  | byte c => exact absurd rfl (hev c)
  | read p n killed =>
    unfold Device.step
    dsimp only
    split
    · exact sound_reading h p killed n n
    · exact h
  | resume p killed =>
    unfold Device.step
    dsimp only
    split
    · exact sound_reading h p killed _ _
    · exact h

/-- The session with these events. -/
def session (evs : List Event) : Session evs.length where
  state k := (evs.take k).foldl (fun d ev => Device.step ev d) Device.boot
  label k := evs.getD k (.byte 0)
  starts := rfl
  steps k hk := by
    rw [List.take_add_one, List.foldl_append, List.getD_eq_getElem?_getD, List.getElem?_eq_getElem hk]
    rfl

instance (c : UInt8) : Decidable (Input.Ordinary c) :=
  inferInstanceAs (Decidable (c ≠ C 'P' ∧ c ≠ C 'U' ∧ ¬ (c = C 'H' ∨ c = delete) ∧ c ≠ KEY_LF ∧ c ≠ KEY_RT))

instance (s : Input) (c : UInt8) : Decidable (s.EditOk c) :=
  decidable_of_iff ((c = C 'U' → s.a = 0) ∧
    (c = C 'H' ∨ c = delete → s.e ≠ s.w → 0 < s.a → s.a < s.e - s.w ∧ s.a ≤ (s.e - 1) % INPUT_BUF) ∧
    (Input.Ordinary c → c ≠ 0 → Input.cooked c ≠ newline → s.e - s.r < INPUT_BUF → s.a ≤ s.e % INPUT_BUF))
    ⟨fun ⟨hk, he, hs⟩ => ⟨hk, he, hs⟩, fun h => ⟨h.kill, h.erase, h.shift⟩⟩

instance (s : Input) : Decidable s.StopsAbove :=
  inferInstanceAs (Decidable (∃ j, j < (s.e - s.w).toNat ∧ s.a.toNat ≤ j + 1 ∧ s.buf ((s.w.toNat + j) % 128) = newline))

instance (s : Input) (c : UInt8) : Decidable (s.CursorOk c) :=
  decidable_of_iff ((c = C 'U' → s.a = 0 ∨ s.StopsAbove) ∧
    (c = C 'H' ∨ c = delete → s.e ≠ s.w → 0 < s.a → s.a < s.e - s.w))
    ⟨fun ⟨hk, he⟩ => ⟨hk, he⟩, fun h => ⟨h.kill, h.erase⟩⟩

instance (ok : Input → UInt8 → Prop) [∀ s c, Decidable (ok s c)] (d : Device) (ev : Event) :
    Decidable (OnKey ok d ev) :=
  match ev with
  | .byte c => decidable_of_iff (ok d.input c) ⟨fun h c' hc => by cases hc; exact h, fun h => h c rfl⟩
  | .read .. => isTrue (fun _ hc => by cases hc)
  | .resume .. => isTrue (fun _ hc => by cases hc)

/-- The distances between the indices stay in order, and no key changes a committed byte that is not yet read,
exactly in the sessions whose keys all meet `CursorOk`. -/
theorem indices_sound_iff {n : ℕ} (r : Session n) :
    (∀ k, k ≤ n → (r.state k).input.Sound ∧
      (k < n → ∀ c, r.label k = .byte c → (r.state k).input.Keeps (r.state (k + 1)).input)) ↔
    r.Meets (OnKey Input.CursorOk) := by
  have key (k : ℕ) (hk : k < n) (c : UInt8) (hc : r.label k = .byte c) :
      (r.state (k + 1)).input = (r.state k).input.consoleintr c := by
    have hstep := Option.some.inj (r.steps k hk)
    rw [hc] at hstep
    rw [← hstep]
    rfl
  constructor
  · intro h k hk c hc
    have hnext := (h (k + 1) hk).1
    have hkeeps := (h k hk.le).2 hk c hc
    rw [key k hk c hc] at hnext hkeeps
    exact (Input.consoleintr_sound_iff (h k hk.le).1).1 ⟨hnext, hkeeps⟩
  · intro hok
    have hsound : ∀ k, k ≤ n → (r.state k).input.Sound := by
      refine r.invariant_of (P := fun d => d.input.Sound) hok ?_ ?_
      · intro d hd
        subst hd
        exact Input.Sound.boot
      · intro d ev d' h hev hd
        cases hd
        cases ev with
        | byte c => exact ((Input.consoleintr_sound_iff h).2 (hev c rfl)).1
        | read p n killed => exact sound_step h (by simp)
        | resume p killed => exact sound_step h (by simp)
    refine fun k hk => ⟨hsound k hk, fun hlt c hc => ?_⟩
    rw [key k hlt c hc]
    exact ((Input.consoleintr_sound_iff (hsound k hk)).2 (hok k hlt c hc)).2

/-- `ac`, left arrow, `b`, newline, and a reader that takes the line. -/
def abc : List Event := [.byte 97, .byte 99, .byte KEY_LF, .byte 98, .byte newline, .read 1 10 false]

/-- The line `xy`, then `ab`, the left arrow twice and a backspace. -/
def overrun : List Event := [.byte 120, .byte 121, .byte newline, .byte 97, .byte 98,
  .byte KEY_LF, .byte KEY_LF, .byte delete]

/-- The backspace at the start of the line moves `ab` over the newline that ends the line before. -/
theorem backspace_reaches_committed : ¬ ∀ n (r : Session n), ∀ k, k ≤ n → (r.state k).input.Sound ∧
    (k < n → ∀ c, r.label k = .byte c → (r.state k).input.Keeps (r.state (k + 1)).input) := by
  intro h
  have hk := (h _ (session overrun) 7 (by decide)).2 (by decide) delete rfl 2 (by decide)
  exact absurd hk (by decide)

end Console

end Os132

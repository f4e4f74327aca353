import Os132.Console.Device

/-!
# Edits in the middle of a line

With the cursor `a` steps left of `e`, a byte is inserted and erased by shifting the bytes behind the
cursor one place. `shiftRightBuf` and `shiftLeftBuf` count raw indices up or down from a position
already reduced modulo `INPUT_BUF`, so they stay in `input.buf` exactly when the bytes behind the
cursor do not lie across its end.
-/

namespace Os132

namespace Console

/-- The values of `i` in the passes of `for(; i < b; i++)`. -/
def passes (i b : UInt32) : List UInt32 := (List.range (b.toNat - i.toNat)).map fun j => i + UInt32.ofNat j

/-- The indices `shiftRightBuf(e, k)` uses, a store and a load in each pass. -/
def shiftRightIndices (e : UInt32) : ℕ → List UInt32
  | 0 => []
  | k + 1 => e :: (e - 1) :: shiftRightIndices (e - 1) k

/-- The indices of the loop of `shiftLeftBuf` from index `i` on. -/
def shiftLeftLoopIndices (i : UInt32) : ℕ → List UInt32
  | 0 => []
  | k + 1 => i :: (i + 1) :: shiftLeftLoopIndices (i + 1) k

/-- The indices `shiftLeftBuf(e, k)` uses. -/
def shiftLeftIndices (e k : UInt32) : List UInt32 := shiftLeftLoopIndices (e - k) k.toNat ++ [e]

namespace Input

variable {s : Input} {c : UInt8}

/-- The bytes of `[w, e)`: the uncommitted line. -/
def line (s : Input) : List UInt8 := Ring.window 128 s.buf s.w.toNat (s.e - s.w).toNat

/-- The indices on `input.buf` of an insertion in the middle of a line: the shift, the store and the
loop that prints. -/
def insertIndices (s : Input) : List UInt32 :=
  shiftRightIndices (s.e % INPUT_BUF) s.a.toNat ++ (s.e - s.a) % INPUT_BUF ::
    (passes (s.e - s.a) (s.e + 1)).map (· % INPUT_BUF)

/-- The indices on `input.buf` of a backspace in the middle of a line: the shift and the loop that
prints. -/
def backspaceIndices (s : Input) : List UInt32 :=
  shiftLeftIndices ((s.e - 1) % INPUT_BUF) s.a ++ (passes (s.e - s.a - 1) s.e).map (· % INPUT_BUF)

end Input

/-! ### Which indices the shifts use -/

lemma mod_lt (i : UInt32) : i % INPUT_BUF < INPUT_BUF := by
  rw [UInt32.lt_iff_toNat_lt, UInt32.toNat_mod]
  exact Nat.mod_lt _ (by decide)

/-- `shiftRightBuf` reads and writes `e`, `e - 1`, …, `e - k`. -/
lemma shiftRight_in_array {e : UInt32} {k : ℕ} (he : e < INPUT_BUF) (hk : 0 < k) (hb : k ≤ 128) :
    (∀ i ∈ shiftRightIndices e k, i < INPUT_BUF) ↔ k ≤ e.toNat := by
  have hn : INPUT_BUF.toNat = 128 := rfl
  induction k generalizing e with
  | zero => omega
  | succ k ih =>
    have he' := UInt32.lt_iff_toNat_lt.1 he
    have hpred : (e - 1).toNat = (2 ^ 32 - 1 + e.toNat) % 2 ^ 32 := by
      simp only [UInt32.toNat_sub, UInt32.toNat_one]
    simp only [shiftRightIndices, List.forall_mem_cons]
    by_cases hz : e.toNat = 0
    · have hout : ¬ e - 1 < INPUT_BUF := by
        rw [UInt32.lt_iff_toNat_lt]
        omega
      simp only [hout, false_and, and_false, false_iff]
      omega
    · have hin : e - 1 < INPUT_BUF := by
        rw [UInt32.lt_iff_toNat_lt]
        omega
      simp only [he, hin, true_and]
      by_cases hk0 : k = 0
      · subst hk0
        simp only [shiftRightIndices, List.not_mem_nil, false_implies, implies_true, true_iff]
        omega
      · have hrest : (∀ i ∈ shiftRightIndices (e - 1) k, i < INPUT_BUF) ↔ k ≤ (e - 1).toNat :=
          ih hin (by omega) (by omega)
        simp only [hrest]
        omega

/-- The loop of `shiftLeftBuf` reads and writes `i`, `i + 1`, …, `i + k`. -/
lemma shiftLeftLoop_in_array {i : UInt32} {k : ℕ} (hi : i.toNat + k < 128) :
    ∀ j ∈ shiftLeftLoopIndices i k, j < INPUT_BUF := by
  have hn : INPUT_BUF.toNat = 128 := rfl
  induction k generalizing i with
  | zero => simp [shiftLeftLoopIndices]
  | succ k ih =>
    have hsucc : (i + 1).toNat = i.toNat + 1 := by
      simp only [UInt32.toNat_add, UInt32.toNat_one]
      omega
    simp only [shiftLeftLoopIndices, List.forall_mem_cons]
    refine ⟨?_, ?_, ih (by omega)⟩
    · rw [UInt32.lt_iff_toNat_lt]
      omega
    · rw [UInt32.lt_iff_toNat_lt]
      omega

/-- `shiftLeftBuf` starts at `e - k`, which is below `INPUT_BUF` only if it is not negative. -/
lemma shiftLeft_in_array {e k : UInt32} (he : e < INPUT_BUF) (hk : 0 < k) (hb : k.toNat ≤ 128) :
    (∀ i ∈ shiftLeftIndices e k, i < INPUT_BUF) ↔ k ≤ e := by
  have hn : INPUT_BUF.toNat = 128 := rfl
  have he' := UInt32.lt_iff_toNat_lt.1 he
  have hk' : 0 < k.toNat := UInt32.lt_iff_toNat_lt.1 hk
  rw [UInt32.le_iff_toNat_le]
  constructor
  · intro h
    have hfirst : e - k ∈ shiftLeftIndices e k := by
      obtain ⟨n, hn⟩ : ∃ n, k.toNat = n + 1 := ⟨k.toNat - 1, by omega⟩
      simp [shiftLeftIndices, hn, shiftLeftLoopIndices]
    have := UInt32.lt_iff_toNat_lt.1 (h _ hfirst)
    rw [UInt32.toNat_sub] at this
    omega
  · intro hle i hi
    have hsub : (e - k).toNat = e.toNat - k.toNat := UInt32.toNat_sub_of_le _ _ (UInt32.le_iff_toNat_le.2 hle)
    rcases List.mem_append.1 hi with hi | hi
    · exact shiftLeftLoop_in_array (by omega) i hi
    · rw [List.mem_singleton.1 hi]
      exact he

namespace Input

variable {s : Input} {c : UInt8}

/-- The console that reads from `w`: nothing but the line is in its buffer. -/
def fromLine (s : Input) : Input := { s with r := s.w }

lemma contents_fromLine : s.fromLine.contents = s.line := rfl

lemma held_fromLine : s.fromLine.held = (s.e - s.w).toNat := rfl

/-- The line fits into the array, and the cursor is in the line. -/
structure InLine (s : Input) : Prop where
  fits : s.e - s.w ≤ INPUT_BUF
  cursor : s.a ≤ s.e - s.w

lemma InLine.sound (h : s.InLine) : s.fromLine.Sound where
  unread_le := by simp [unread, fromLine]
  held_le := h.fits
  cursor := h.cursor

lemma InLine.cursor_le (h : s.InLine) : s.a.toNat ≤ 128 := Nat.le_trans h.cursor h.fits

lemma length_line : s.line.length = (s.e - s.w).toNat := by
  rw [line, Ring.length_window]

/-- An insertion whose shift stays in the array inserts in the line. -/
lemma line_put (h : s.InLine) (hc : c ≠ newline) (hroom : s.e - s.w < INPUT_BUF) (hfit : s.a ≤ s.e % INPUT_BUF) :
    (s.put c).line = s.line.insertIdx (s.line.length - s.a.toNat) c := by
  have hput : (s.put c).line = (s.fromLine.put c).contents := by
    by_cases hmid : c ≠ newline ∧ 0 < s.a
    · have hmid' : c ≠ newline ∧ 0 < s.fromLine.a := hmid
      unfold put
      rw [if_pos hmid, if_pos hmid']
      rfl
    · have hmid' : ¬ (c ≠ newline ∧ 0 < s.fromLine.a) := hmid
      unfold put
      rw [if_neg hmid, if_neg hmid']
      rfl
  have hfit' : c ≠ newline → s.fromLine.a.toNat ≤ (s.fromLine.e % INPUT_BUF).toNat := fun _ => hfit
  rw [hput, contents_put h.sound (room hroom) hfit', contents_fromLine, length_line, held_fromLine,
    behind, if_neg hc]
  rfl

/-- A backspace whose shift stays in the array erases from the line. -/
lemma line_backspace (h : s.InLine) (ha : s.a < s.e - s.w) (hfit : s.a ≤ (s.e - 1) % INPUT_BUF) :
    s.backspace.line = s.line.eraseIdx (s.line.length - s.a.toNat - 1) := by
  have hlt := UInt32.lt_iff_toNat_lt.1 ha
  have hne : s.fromLine.e ≠ s.fromLine.w := by
    rw [e_ne_w h.sound, held_fromLine]
    simp only [unread, fromLine, UInt32.sub_self, UInt32.toNat_zero]
    omega
  have hback : s.backspace.line = s.fromLine.backspace.contents := by
    unfold backspace fromLine
    split_ifs <;> rfl
  rw [hback, contents_backspace h.sound hne fun _ => ⟨ha, hfit⟩, contents_fromLine, length_line, held_fromLine]
  congr 1
  show (s.e - s.w).toNat - 1 - s.a.toNat = _
  omega

lemma insertIndices_in_array (h : s.InLine) (ha : 0 < s.a) :
    (∀ i ∈ s.insertIndices, i < INPUT_BUF) ↔ s.a ≤ s.e % INPUT_BUF := by
  rw [UInt32.le_iff_toNat_le, ← shiftRight_in_array (mod_lt s.e) (UInt32.lt_iff_toNat_lt.1 ha) h.cursor_le]
  simp only [insertIndices, List.forall_mem_append, List.forall_mem_cons, List.forall_mem_map, mod_lt,
    implies_true, and_true]

lemma backspaceIndices_in_array (h : s.InLine) (ha : 0 < s.a) :
    (∀ i ∈ s.backspaceIndices, i < INPUT_BUF) ↔ s.a ≤ (s.e - 1) % INPUT_BUF := by
  rw [← shiftLeft_in_array (mod_lt (s.e - 1)) ha h.cursor_le]
  simp only [backspaceIndices, List.forall_mem_append, List.forall_mem_map, mod_lt, implies_true, and_true]

/-- An edit in the middle of the line edits the line as a list and stays inside the array exactly when
the bytes it shifts do not lie across the end of the array. There is room for one more byte when the
`default` case inserts, since `w` lies between `r` and `e`. -/
theorem midline_edits_iff (h : s.InLine) (ha : 0 < s.a) :
    (∀ c, c ≠ newline → s.e - s.w < INPUT_BUF →
      ((s.put c).line = s.line.insertIdx (s.line.length - s.a.toNat) c ∧
        (∀ i ∈ s.insertIndices, i < INPUT_BUF) ↔ s.a ≤ s.e % INPUT_BUF)) ∧
    (s.a < s.e - s.w →
      (s.backspace.line = s.line.eraseIdx (s.line.length - s.a.toNat - 1) ∧
        (∀ i ∈ s.backspaceIndices, i < INPUT_BUF) ↔ s.a ≤ (s.e - 1) % INPUT_BUF)) := by
  constructor
  · intro c hc hroom
    rw [insertIndices_in_array h ha]
    exact ⟨And.right, fun hfit => ⟨line_put h hc hroom hfit, hfit⟩⟩
  · intro hlt
    rw [backspaceIndices_in_array h ha]
    exact ⟨And.right, fun hfit => ⟨line_backspace h hlt hfit, hfit⟩⟩

/-- The line `ab` at the end of the array, `a` in cell 127 and `b` in cell 0, with the cursor before
both. -/
def acrossEnd : Input where
  buf x := if x = 127 then 97 else if x = 0 then 98 else 0
  r := 127
  w := 127
  e := 129
  a := 2

lemma inLine_acrossEnd : acrossEnd.InLine where
  fits := by decide
  cursor := by decide

theorem midline_edits_iff_acrossEnd : acrossEnd.InLine ∧ 0 < acrossEnd.a ∧
    (∀ c, c ≠ newline → acrossEnd.e - acrossEnd.w < INPUT_BUF →
      ((acrossEnd.put c).line = acrossEnd.line.insertIdx (acrossEnd.line.length - acrossEnd.a.toNat) c ∧
        (∀ i ∈ acrossEnd.insertIndices, i < INPUT_BUF) ↔ acrossEnd.a ≤ acrossEnd.e % INPUT_BUF)) ∧
    (acrossEnd.a < acrossEnd.e - acrossEnd.w →
      (acrossEnd.backspace.line = acrossEnd.line.eraseIdx (acrossEnd.line.length - acrossEnd.a.toNat - 1) ∧
        (∀ i ∈ acrossEnd.backspaceIndices, i < INPUT_BUF) ↔ acrossEnd.a ≤ (acrossEnd.e - 1) % INPUT_BUF)) :=
  ⟨inLine_acrossEnd, by decide, midline_edits_iff inLine_acrossEnd (by decide)⟩

/-- `c` typed before `ab` gives `c` and `b` around a byte from before the array. -/
theorem insert_leaves_array : acrossEnd.InLine ∧ acrossEnd.line = [97, 98] ∧ (acrossEnd.put 99).line = [99, 0, 98] ∧
    ¬ ∀ s : Input, s.InLine → 0 < s.a → ∀ c, c ≠ newline → s.e - s.w < INPUT_BUF →
      (s.put c).line = s.line.insertIdx (s.line.length - s.a.toNat) c ∧ ∀ i ∈ s.insertIndices, i < INPUT_BUF := by
  refine ⟨inLine_acrossEnd, by decide, by decide, fun h => ?_⟩
  have hline := (h acrossEnd inLine_acrossEnd (by decide) 99 (by decide) (by decide)).1
  exact absurd hline (by decide)

end Input

end Console

end Os132

import Os132.Console.Screen

/-!
# The bytes of the line after an edit

Where the shifts of `input.buf` store, also when they leave the array, and what this says of the line:
the bytes before the cursor stay, and no edit puts a newline into the line unless the byte before the
array is one.
-/

namespace Os132

namespace Console

namespace Input

variable {s : Input} {c : UInt8}

/-! ### Where the shifts store -/

lemma toNat_sub_ofNat (e : UInt32) {j : ℕ} (hj : j < 2 ^ 32) :
    (e - UInt32.ofNat j).toNat = if j ≤ e.toNat then e.toNat - j else 2 ^ 32 + e.toNat - j := by
  have he := e.toNat_lt
  have hmod : j % 2 ^ 32 = j := Nat.mod_eq_of_lt hj
  rw [UInt32.toNat_sub, UInt32.toNat_ofNat', hmod]
  split <;> omega

lemma sub_one_sub (e : UInt32) {j : ℕ} (hj : j + 1 < 2 ^ 32) :
    e - 1 - UInt32.ofNat j = e - UInt32.ofNat (j + 1) := by
  have he := e.toNat_lt
  have hone : (e - 1).toNat = (2 ^ 32 - 1 + e.toNat) % 2 ^ 32 := by
    simp only [UInt32.toNat_sub, UInt32.toNat_one]
  rw [← UInt32.toNat_inj, toNat_sub_ofNat _ (by omega), toNat_sub_ofNat _ hj, hone]
  split <;> split <;> omega

lemma shiftRight_other (buf : ℕ → UInt8) (e : UInt32) {k x : ℕ} (hk : k < 2 ^ 32)
    (hx : ∀ j, j < k → x ≠ (e - UInt32.ofNat j).toNat) : shiftRightBuf buf e k x = buf x := by
  induction k generalizing buf e with
  | zero => rfl
  | succ k ih =>
    rw [shiftRightBuf, ih _ _ (by omega), store, if_neg]
    · simpa using hx 0 (by omega)
    · intro j hj
      rw [sub_one_sub e (by omega)]
      exact hx (j + 1) (by omega)

/-- Every cell the shift to the right stores in gets the byte before it. -/
lemma shiftRight_at (buf : ℕ → UInt8) (e : UInt32) {j k : ℕ} (hj : j < k) (hk : k < 2 ^ 32) :
    shiftRightBuf buf e k (e - UInt32.ofNat j).toNat = buf (e - UInt32.ofNat (j + 1)).toNat := by
  have he := e.toNat_lt
  induction k generalizing buf e j with
  | zero => omega
  | succ k ih =>
    rw [shiftRightBuf]
    cases j with
    | zero =>
      rw [shiftRight_other _ _ (by omega)]
      · simp [store]
      · intro j hj'
        rw [sub_one_sub e (by omega), toNat_sub_ofNat _ (by omega), toNat_sub_ofNat _ (by omega)]
        split <;> split <;> omega
    | succ j =>
      rw [← sub_one_sub e (by omega), ih _ _ (by omega) (by omega) (e - 1).toNat_lt, store, sub_one_sub e (by omega),
        if_neg]
      rw [toNat_sub_ofNat _ (by omega)]
      split <;> omega

lemma add_one_add (i : UInt32) (j : ℕ) : i + 1 + UInt32.ofNat j = i + UInt32.ofNat (j + 1) := by
  rw [← UInt32.toNat_inj]
  simp only [UInt32.toNat_add, UInt32.toNat_one, UInt32.toNat_ofNat']
  omega

lemma shiftLeft_other (buf : ℕ → UInt8) (i : UInt32) {k x : ℕ}
    (hx : ∀ j, j < k → x ≠ (i + UInt32.ofNat j).toNat) : shiftLeftLoop buf i k x = buf x := by
  induction k generalizing buf i with
  | zero => rfl
  | succ k ih =>
    rw [shiftLeftLoop, ih, store, if_neg]
    · simpa using hx 0 (by omega)
    · intro j hj
      rw [add_one_add]
      exact hx (j + 1) (by omega)

/-- Every cell the shift to the left stores in gets the byte behind it. -/
lemma shiftLeft_at (buf : ℕ → UInt8) (i : UInt32) {j k : ℕ} (hj : j < k) (hk : k < 2 ^ 32) :
    shiftLeftLoop buf i k (i + UInt32.ofNat j).toNat = buf (i + UInt32.ofNat (j + 1)).toNat := by
  have hi := i.toNat_lt
  induction k generalizing buf i j with
  | zero => omega
  | succ k ih =>
    rw [shiftLeftLoop]
    cases j with
    | zero =>
      rw [shiftLeft_other]
      · simp [store]
      · intro j hj'
        simp only [UInt32.toNat_add, UInt32.toNat_one, UInt32.toNat_ofNat']
        omega
    | succ j =>
      rw [← add_one_add, ih _ _ (by omega) (by omega) (i + 1).toNat_lt, store, add_one_add, if_neg]
      simp only [UInt32.toNat_add, UInt32.toNat_ofNat']
      omega

/-! ### The cells of a line -/

/-- The byte at place `i` of the line. -/
def byteAt (s : Input) (i : ℕ) : UInt8 := s.buf ((s.w.toNat + i) % 128)

lemma getElem_line {i : ℕ} (hi : i < s.line.length) : s.line[i] = s.byteAt i := by
  simp [line, byteAt]

lemma newline_notMem (h : ∀ i, i < (s.e - s.w).toNat → s.byteAt i ≠ newline) : newline ∉ s.line := by
  intro hm
  obtain ⟨i, hi, he⟩ := List.getElem_of_mem hm
  rw [getElem_line] at he
  exact h i (by rwa [← length_line]) he

lemma byteAt_ne (h : newline ∉ s.line) {i : ℕ} (hi : i < (s.e - s.w).toNat) : s.byteAt i ≠ newline := by
  intro he
  have hi' : i < s.line.length := by rwa [length_line]
  exact h (he ▸ getElem_line hi' ▸ List.getElem_mem hi')

lemma slot_end {n : ℕ} (hn : (s.e - s.w).toNat = n) {k : UInt32} (hk : k.toNat ≤ n) :
    ((s.e - k) % INPUT_BUF).toNat = (s.w.toNat + (n - k.toNat)) % 128 := by
  have hw := s.w.toNat_lt
  have he := s.e.toNat_lt
  have h128 : INPUT_BUF.toNat = 128 := rfl
  simp only [UInt32.toNat_mod, UInt32.toNat_sub, h128] at hn hk ⊢
  omega

/-- The line before the cursor stays as it is when a byte is inserted, and no byte of it is a newline. -/
lemma put_bytes {n k : ℕ} (hn : (s.e - s.w).toNat = n) (hk : s.a.toNat = k) (hk0 : 0 < k) (hkn : k ≤ n) (hfull : n < 128)
    (hc : c ≠ newline) (hline : newline ∉ s.line)
    (hout : k ≤ (s.e % INPUT_BUF).toNat ∨ s.buf 4294967295 ≠ newline) {i : ℕ} (hi : i ≤ n) :
    (i < n - k → (s.put c).buf ((s.w.toNat + i) % 128) = s.byteAt i) ∧
      (s.put c).buf ((s.w.toNat + i) % 128) ≠ newline := by
  have hold : ∀ i, i < n → s.byteAt i ≠ newline := fun i hi => byteAt_ne hline (by omega)
  have hE : (s.e % INPUT_BUF).toNat = (s.w.toNat + n) % 128 := by
    have := @slot_end s n hn 0 (by simp)
    simpa using this
  have hP := @slot_end s n hn s.a (by omega)
  rw [hk] at hP
  have hE128 : (s.e % INPUT_BUF).toNat < 128 := by omega
  have hput : (s.put c).buf = store (shiftRightBuf s.buf (s.e % INPUT_BUF) k) ((s.e - s.a) % INPUT_BUF) c := by
    have hmid : c ≠ newline ∧ 0 < s.a := ⟨hc, UInt32.lt_iff_toNat_lt.2 (by rw [hk]; exact hk0)⟩
    rw [put, if_pos hmid, hk]
  rw [hput, store, hP]
  by_cases hik : i = n - k
  · rw [if_pos (by rw [hik]), ]
    exact ⟨fun h => by omega, hc⟩
  · rw [if_neg (by omega)]
    by_cases hst : n - k < i ∧ n - i ≤ (s.e % INPUT_BUF).toNat
    · -- a cell that the shift has stored in
      have hcell : (s.w.toNat + i) % 128 = (s.e % INPUT_BUF - UInt32.ofNat (n - i)).toNat := by
        rw [toNat_sub_ofNat _ (by omega), if_pos hst.2]
        omega
      refine ⟨fun h => by omega, ?_⟩
      rw [hcell, shiftRight_at _ _ (by omega) (by omega), toNat_sub_ofNat _ (by omega)]
      split
      · have hprev : (s.e % INPUT_BUF).toNat - (n - i + 1) = (s.w.toNat + (i - 1)) % 128 := by omega
        rw [hprev]
        exact hold (i - 1) (by omega)
      · rcases hout with hout | hout
        · omega
        · have hneg : 2 ^ 32 + (s.e % INPUT_BUF).toNat - (n - i + 1) = 4294967295 := by omega
          rwa [hneg]
    · rw [shiftRight_other _ _ (by omega)]
      · refine ⟨fun _ => rfl, ?_⟩
        by_cases hin : i = n
        · omega
        · exact hold i (by omega)
      · intro j hj
        rw [toNat_sub_ofNat _ (by omega)]
        split <;> omega

/-- A backspace leaves the line before the erased byte, ends the old line in a blank, and puts no
newline in it. -/
lemma backspace_bytes {n k : ℕ} (hn : (s.e - s.w).toNat = n) (hk : s.a.toNat = k) (hk0 : 0 < k) (hkn : k < n)
    (hfull : n ≤ 128) (hline : newline ∉ s.line) {i : ℕ} (hi : i < n) :
    (i < n - 1 - k →
      shiftLeftBuf s.buf ((s.e - 1) % INPUT_BUF) s.a ((s.w.toNat + i) % 128) = s.byteAt i) ∧
    (i = n - 1 → shiftLeftBuf s.buf ((s.e - 1) % INPUT_BUF) s.a ((s.w.toNat + i) % 128) = 32) ∧
      shiftLeftBuf s.buf ((s.e - 1) % INPUT_BUF) s.a ((s.w.toNat + i) % 128) ≠ newline := by
  have hold : ∀ i, i < n → s.byteAt i ≠ newline := fun i hi => byteAt_ne hline (by omega)
  have hE := @slot_end s n hn 1 (by simp; omega)
  rw [UInt32.toNat_one] at hE
  have ha : s.a = UInt32.ofNat k := by rw [← hk, UInt32.ofNat_toNat]
  rw [shiftLeftBuf, store, hE, hk]
  by_cases hlast : i = n - 1
  · rw [if_pos (by omega)]
    exact ⟨fun h => by omega, fun _ => rfl, by decide⟩
  · rw [if_neg (by omega)]
    have hstart : ∀ j, j ≤ k → ((s.e - 1) % INPUT_BUF - s.a + UInt32.ofNat j).toNat =
        if k - j ≤ (s.w.toNat + (n - 1)) % 128 then (s.w.toNat + (n - 1)) % 128 - (k - j)
        else 2 ^ 32 + (s.w.toNat + (n - 1)) % 128 - (k - j) := by
      intro j hj
      have hmod : j % 2 ^ 32 = j := Nat.mod_eq_of_lt (by omega)
      have hkmod : k % 2 ^ 32 = k := Nat.mod_eq_of_lt (by omega)
      rw [ha, UInt32.toNat_add, toNat_sub_ofNat _ (by omega), UInt32.toNat_ofNat', hE, hmod]
      split <;> split <;> omega
    by_cases hst : n - 1 - k ≤ i ∧ n - 1 - i ≤ (s.w.toNat + (n - 1)) % 128
    · -- a cell that the shift has stored in
      have hcell : (s.w.toNat + i) % 128 =
          ((s.e - 1) % INPUT_BUF - s.a + UInt32.ofNat (k - (n - 1 - i))).toNat := by
        rw [hstart _ (by omega), if_pos (by omega)]
        omega
      refine ⟨fun h => by omega, fun h => absurd h hlast, ?_⟩
      rw [hcell, shiftLeft_at _ _ (by omega) (by omega), hstart _ (by omega), if_pos (by omega)]
      have hnext : (s.w.toNat + (n - 1)) % 128 - (k - (k - (n - 1 - i) + 1)) = (s.w.toNat + (i + 1)) % 128 := by
        omega
      rw [hnext]
      exact hold (i + 1) (by omega)
    · rw [shiftLeft_other]
      · exact ⟨fun _ => rfl, fun h => absurd h hlast, hold i hi⟩
      · intro j hj
        rw [hstart j (by omega)]
        split <;> omega

end Input

end Console

end Os132

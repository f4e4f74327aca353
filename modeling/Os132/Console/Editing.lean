import Os132.Console.Input

/-!
# What an editing key does to the ring

Under the conditions of `EditOk` an insertion and a backspace change the contents of `[r, e)` as a
list at the cursor. The conditions exclude three slips of `consoleintr`. Control-U leaves `a` as it
was; a backspace does not look whether the cursor is at the start of the line; the shifts leave the
array when the bytes behind the cursor lie on both sides of its end. The first two, `CursorOk`, are
what the distances and the bytes of `[r, w)` need: a shift that leaves the array does so below it.
-/

namespace Os132

namespace Console

namespace Input

variable {s : Input} {c : UInt8}

/-- Not one of the keys for which `consoleintr` has a case of its own. -/
def Ordinary (c : UInt8) : Prop :=
  c ≠ C 'P' ∧ c ≠ C 'U' ∧ ¬ (c = C 'H' ∨ c = delete) ∧ c ≠ KEY_LF ∧ c ≠ KEY_RT

/-- Control-U stops at a newline in the line, which only a shift can have brought there from outside the array. -/
def StopsAbove (s : Input) : Prop :=
  ∃ j, j < (s.e - s.w).toNat ∧ s.a.toNat ≤ j + 1 ∧ s.buf ((s.w.toNat + j) % 128) = newline

/-- When a key keeps the relation between `a` and the line. -/
structure CursorOk (s : Input) (c : UInt8) : Prop where
  kill : c = C 'U' → s.a = 0 ∨ s.StopsAbove
  erase : c = C 'H' ∨ c = delete → s.e ≠ s.w → 0 < s.a → s.a < s.e - s.w

/-- When a key keeps the relation between `a` and the line and its shift stays in the array. -/
structure EditOk (s : Input) (c : UInt8) : Prop where
  kill : c = C 'U' → s.a = 0
  erase : c = C 'H' ∨ c = delete → s.e ≠ s.w → 0 < s.a →
    s.a < s.e - s.w ∧ s.a ≤ (s.e - 1) % INPUT_BUF
  shift : Ordinary c → c ≠ 0 → cooked c ≠ newline → s.e - s.r < INPUT_BUF → s.a ≤ s.e % INPUT_BUF

/-- The bytes of `[r, w)` after `s` are those before. -/
def Keeps (s s' : Input) : Prop :=
  ∀ i, i < s.unread → s'.buf ((s.r.toNat + i) % 128) = s.buf ((s.r.toNat + i) % 128)

lemma Keeps.refl (s : Input) : Keeps s s := fun _ _ => rfl

lemma Keeps.of_buf {s' : Input} (h : s'.buf = s.buf) : Keeps s s' := fun _ _ => by rw [h]

/-! ### Distances -/

lemma held_grow {b : ℕ → UInt8} (h : s.held < 128) : held { s with buf := b, e := s.e + 1 } = s.held + 1 := by
  have hr := s.r.toNat_lt
  have he := s.e.toNat_lt
  simp only [held, UInt32.toNat_sub, UInt32.toNat_add, UInt32.toNat_one] at h ⊢
  omega

lemma held_shrink {b : ℕ → UInt8} (h : 0 < s.held) : held { s with buf := b, e := s.e - 1 } = s.held - 1 := by
  have hr := s.r.toNat_lt
  have he := s.e.toNat_lt
  simp only [held, UInt32.toNat_sub, UInt32.toNat_one] at h ⊢
  omega

lemma sound_of (hu : s.unread ≤ s.held) (hh : s.held ≤ 128) (ha : s.a.toNat ≤ s.held - s.unread) : s.Sound := by
  refine ⟨hu, hh, ?_⟩
  have hr := s.r.toNat_lt
  have hw := s.w.toNat_lt
  have he := s.e.toNat_lt
  simp only [held, unread, UInt32.toNat_sub] at hu ha ⊢
  omega

lemma Sound.cursor_le (h : s.Sound) : s.a.toNat + s.unread ≤ s.held := by
  have := h.cursor
  have := h.line
  have := h.unread_le
  omega

lemma room (h : s.e - s.r < INPUT_BUF) : s.held < 128 := h

/-! ### Insertion -/

section put

variable (h : s.Sound) (hroom : s.held < 128) (hfit : c ≠ newline → s.a.toNat ≤ (s.e % INPUT_BUF).toNat)

/-- How far before the end a byte is inserted. -/
def behind (s : Input) (c : UInt8) : ℕ := if c = newline then 0 else s.a.toNat

include h hroom hfit in
lemma put_lo {i : ℕ} (hi : i < s.held - s.behind c) :
    (s.put c).buf ((s.r.toNat + i) % 128) = s.buf ((s.r.toNat + i) % 128) := by
  have ha := h.cursor_le
  unfold put
  split
  · obtain ⟨hc, -⟩ := ‹c ≠ newline ∧ 0 < s.a›
    rw [behind, if_neg hc] at hi
    have hf := hfit hc
    have hb := @slot_back s s.a (by omega)
    rw [slot_e] at hf
    simp only [store, hb]
    rw [if_neg (by omega), shiftRightBuf_apply _ (by rw [slot_e]; exact hf), slot_e, if_neg (by omega)]
  · simp only [store, slot_e]
    rw [if_neg (by omega)]

include h in
lemma put_at : (s.put c).buf ((s.r.toNat + (s.held - s.behind c)) % 128) = c := by
  have ha := h.cursor_le
  unfold put
  split
  · obtain ⟨hc, -⟩ := ‹c ≠ newline ∧ 0 < s.a›
    have hb := @slot_back s s.a (by omega)
    simp only [store, hb, behind, if_neg hc, if_true]
  · have hz : s.behind c = 0 := by
      rename_i hn
      unfold behind
      split
      · rfl
      · have : ¬ 0 < s.a.toNat := fun hp => hn ⟨‹_›, hp⟩
        omega
    simp only [store, slot_e, hz, Nat.sub_zero, if_true]

include h hroom hfit in
lemma put_hi {i : ℕ} (hlo : s.held - s.behind c < i) (hi : i ≤ s.held) :
    (s.put c).buf ((s.r.toNat + i) % 128) = s.buf ((s.r.toNat + (i - 1)) % 128) := by
  have ha := h.cursor_le
  have hz : c ≠ newline ∧ 0 < s.a.toNat := by
    unfold behind at hlo
    split at hlo
    · omega
    · exact ⟨‹_›, by omega⟩
  have hf := hfit hz.1
  have hb := @slot_back s s.a (by omega)
  rw [slot_e] at hf
  rw [behind, if_neg hz.1] at hlo
  unfold put
  rw [if_pos ⟨hz.1, hz.2⟩]
  simp only [store, hb]
  rw [if_neg (by omega), shiftRightBuf_apply _ (by rw [slot_e]; exact hf), slot_e, if_pos (by omega)]
  congr 1
  omega

include h hroom hfit in
lemma contents_put : (s.put c).contents = s.contents.insertIdx (s.held - s.behind c) c := by
  have hr : (s.put c).r = s.r := by unfold put; split <;> rfl
  have hh : (s.put c).held = s.held + 1 := by unfold put; split <;> exact held_grow hroom
  rw [contents, contents, hr, hh]
  exact Ring.window_insert (by omega) (fun i hi => put_lo h hroom hfit hi) (put_at h)
    fun i hlo hi => put_hi h hroom hfit hlo hi

lemma put_r : (s.put c).r = s.r := by unfold put; split <;> rfl

lemma put_w : (s.put c).w = s.w := by unfold put; split <;> rfl

lemma put_a : (s.put c).a = s.a := by unfold put; split <;> rfl

include hroom in
lemma held_put : (s.put c).held = s.held + 1 := by unfold put; split <;> exact held_grow hroom

lemma unread_put : (s.put c).unread = s.unread := by rw [unread, put_r, put_w]; rfl

include h hroom in
lemma sound_put : (s.put c).Sound := by
  have ha := h.cursor_le
  apply sound_of
  · rw [unread_put, held_put hroom]
    omega
  · rw [held_put hroom]
    omega
  · rw [unread_put, held_put hroom, put_a]
    omega

include h hroom in
/-- Wherever a shift of the insertion stores, it is not in `[r, w)`. -/
lemma keeps_put : Keeps s (s.put c) := by
  intro i hi
  have ha := h.cursor_le
  have hcell := @slot_e s
  unfold put
  split
  · have hb := @slot_back s s.a (by omega)
    simp only [store, hb]
    rw [if_neg (by omega), shiftRightBuf_other _ fun j hj => ?_]
    have hjn : (UInt32.ofNat j).toNat = j := by
      rw [UInt32.toNat_ofNat']
      omega
    rw [UInt32.toNat_sub, hjn]
    omega
  · simp only [store, hcell]
    rw [if_neg (by omega)]

end put

lemma sound_commit (h : s.Sound) : (s.commit c).Sound := by
  unfold commit
  split
  · exact ⟨Nat.le_refl _, h.held_le, by simp⟩
  · exact h

lemma commit_buf : (s.commit c).buf = s.buf := by unfold commit; split <;> rfl

/-! ### Backspace -/

section backspace

variable (h : s.Sound) (hne : s.e ≠ s.w) (hcur : 0 < s.a → s.a < s.e - s.w)
  (hfit : 0 < s.a → s.a < s.e - s.w ∧ s.a ≤ (s.e - 1) % INPUT_BUF)

include h hne hcur in
lemma cursor_pos : s.a.toNat + s.unread < s.held := by
  have hl := h.line
  have hu := (e_ne_w h).1 hne
  by_cases ha : 0 < s.a
  · have := UInt32.lt_iff_toNat_lt.1 (hcur ha)
    omega
  · have : s.a.toNat = 0 := by
      have := UInt32.lt_iff_toNat_lt.not.1 ha
      simpa using this
    omega

lemma slot_last (hpos : 0 < s.held) :
    ((s.e - 1) % INPUT_BUF).toNat = (s.r.toNat + (s.held - 1)) % 128 := by
  have := @slot_back s 1 hpos
  simpa using this

include h hne hfit in
/-- The cells of the new window: unchanged before the erased byte, moved by one from there on. -/
lemma backspace_cell {i : ℕ} (hi : i < s.held - 1) : s.backspace.buf ((s.r.toNat + i) % 128) =
    if i < s.held - 1 - s.a.toNat then s.buf ((s.r.toNat + i) % 128)
    else s.buf ((s.r.toNat + (i + 1)) % 128) := by
  have hc := cursor_pos h hne fun ha => (hfit ha).1
  have hle := h.held_le
  have hl := @slot_last s (by omega)
  rw [backspace, if_pos hne]
  split
  · have hf : s.a.toNat ≤ ((s.e - 1) % INPUT_BUF).toNat := (hfit ‹_›).2
    have hsub : ((s.e - 1) % INPUT_BUF - s.a).toNat = ((s.e - 1) % INPUT_BUF).toNat - s.a.toNat :=
      UInt32.toNat_sub_of_le _ _ hf
    rw [hl] at hf hsub
    simp only [shiftLeftBuf, store, hl]
    rw [if_neg (by omega), shiftLeftLoop_apply _ (by omega), hsub]
    by_cases hlo : i < s.held - 1 - s.a.toNat
    · rw [if_neg (by omega), if_pos hlo]
    · rw [if_pos (by omega), if_neg hlo]
      congr 1
      omega
  · rename_i ha
    have : s.a.toNat = 0 := by
      have := UInt32.lt_iff_toNat_lt.not.1 ha
      simpa using this
    rw [if_pos (by omega)]

lemma backspace_r : s.backspace.r = s.r := by unfold backspace; split <;> [split; skip] <;> rfl

lemma backspace_w : s.backspace.w = s.w := by unfold backspace; split <;> [split; skip] <;> rfl

lemma backspace_a : s.backspace.a = s.a := by unfold backspace; split <;> [split; skip] <;> rfl

lemma unread_backspace : s.backspace.unread = s.unread := by rw [unread, backspace_r, backspace_w]; rfl

include h hne in
lemma held_backspace : s.backspace.held = s.held - 1 := by
  have := (e_ne_w h).1 hne
  rw [backspace, if_pos hne]
  split <;> exact held_shrink (by omega)

include h hne hfit in
lemma contents_backspace : s.backspace.contents = s.contents.eraseIdx (s.held - 1 - s.a.toNat) := by
  have hc := cursor_pos h hne fun ha => (hfit ha).1
  rw [contents, contents, backspace_r, held_backspace h hne]
  obtain ⟨m, hm⟩ : ∃ m, s.held = m + 1 := ⟨s.held - 1, by omega⟩
  rw [hm, Nat.add_sub_cancel]
  apply Ring.window_erase (by omega)
  · intro i hi
    rw [backspace_cell h hne hfit (by omega), if_pos (by omega)]
  · intro i hlo hi
    rw [backspace_cell h hne hfit (by omega), if_neg (by omega)]

include h hne in
/-- Without room left of the cursor the line gets shorter than `a`. -/
lemma sound_backspace_iff : s.backspace.Sound ↔ (0 < s.a → s.a < s.e - s.w) := by
  have hu := (e_ne_w h).1 hne
  constructor
  · intro hs ha
    have hc := hs.cursor_le
    have hl := h.line
    rw [unread_backspace, held_backspace h hne, backspace_a] at hc
    rw [UInt32.lt_iff_toNat_lt]
    omega
  · intro hcur
    have hc := cursor_pos h hne hcur
    have hle := h.held_le
    apply sound_of
    · rw [unread_backspace, held_backspace h hne]
      omega
    · rw [held_backspace h hne]
      omega
    · rw [unread_backspace, held_backspace h hne, backspace_a]
      omega

include h hne hcur in
/-- Wherever the shift of a backspace stores, it is not in `[r, w)`. -/
lemma keeps_backspace : Keeps s s.backspace := by
  intro i hi
  have hc := cursor_pos h hne hcur
  have hle := h.held_le
  have hl := @slot_last s (by omega)
  rw [backspace, if_pos hne]
  split
  · simp only [shiftLeftBuf, store, hl]
    rw [if_neg (by omega), shiftLeftLoop_other _ fun j hj => ?_]
    have hjn : (UInt32.ofNat j).toNat = j := by
      rw [UInt32.toNat_ofNat']
      omega
    rw [UInt32.toNat_add, UInt32.toNat_sub, hjn, hl]
    omega
  · rfl

end backspace

/-! ### Control-U and the arrows -/

/-- The loop of Control-U lowers `e` down to `w`, or to a newline in between. -/
lemma killLoop_spec (k : ℕ) (hk : (s.e - s.w).toNat = k) :
    ∃ m, m ≤ k ∧ s.killLoop k = { s with e := s.w + UInt32.ofNat m } ∧ (s.a.toNat ≤ m ↔ s.a = 0 ∨ s.StopsAbove) := by
  have hzero : s.a = 0 ↔ s.a.toNat = 0 := by rw [← UInt32.toNat_inj]; rfl
  have hw := s.w.toNat_lt
  have he := s.e.toNat_lt
  have hend : s.e = s.w + UInt32.ofNat k := by
    rw [← UInt32.toNat_inj, UInt32.toNat_add, UInt32.toNat_ofNat', ← hk, UInt32.toNat_sub]
    omega
  have hstay : s = { s with e := s.w + UInt32.ofNat k } := by rw [← hend]
  induction k generalizing s with
  | zero =>
    refine ⟨0, Nat.le_refl 0, hstay, ?_⟩
    rw [hzero, StopsAbove, hk]
    simp
  | succ k ih =>
    have hne : s.e ≠ s.w := fun h => by simp [h] at hk
    have hcell : ((s.e - 1) % INPUT_BUF).toNat = (s.w.toNat + k) % 128 := by
      have hn : INPUT_BUF.toNat = 128 := rfl
      simp only [UInt32.toNat_mod, UInt32.toNat_sub, UInt32.toNat_one, hn] at hk ⊢
      omega
    by_cases hnl : s.buf ((s.w.toNat + k) % 128) = newline
    · refine ⟨k + 1, Nat.le_refl _, ?_, ?_⟩
      · rw [killLoop, hcell, if_neg fun h => h.2 hnl]
        exact hstay
      · rw [hzero, StopsAbove, hk]
        constructor
        · exact fun ha => Or.inr ⟨k, by omega, ha, hnl⟩
        · rintro (h0 | ⟨j, hj, ha, -⟩) <;> omega
    · have hk' : (({ s with e := s.e - 1 } : Input).e - s.w).toNat = k := by
        simp only [UInt32.toNat_sub, UInt32.toNat_one] at hk ⊢
        omega
      have hend' : s.e - 1 = s.w + UInt32.ofNat k := by
        rw [← UInt32.toNat_inj, UInt32.toNat_add, UInt32.toNat_ofNat', ← hk']
        simp only [UInt32.toNat_sub, UInt32.toNat_one]
        omega
      obtain ⟨m, hm, hrun, hiff⟩ := ih (s := { s with e := s.e - 1 }) hk' hzero hw (UInt32.toNat_lt _) hend' (by rw [hend'])
      refine ⟨m, by omega, ?_, hiff.trans (or_congr_right ?_)⟩
      · rw [killLoop, hcell, if_pos ⟨hne, hnl⟩, hrun]
      · unfold StopsAbove
        rw [hk', hk]
        constructor
        · rintro ⟨j, hj, ha, hc⟩
          exact ⟨j, by omega, ha, hc⟩
        · rintro ⟨j, hj, ha, hc⟩
          refine ⟨j, ?_, ha, hc⟩
          rcases Nat.lt_succ_iff_lt_or_eq.1 hj with h | rfl
          · exact h
          · exact absurd hc hnl

lemma sound_killLine_iff (h : s.Sound) : s.killLine.Sound ↔ s.a = 0 ∨ s.StopsAbove := by
  obtain ⟨m, hm, hrun, hiff⟩ := killLoop_spec (s.e - s.w).toNat (s := s) rfl
  have hl := h.line
  have hle := h.held_le
  have hu := h.unread_le
  have hr := s.r.toNat_lt
  have hw := s.w.toNat_lt
  have hline : ((s.w + UInt32.ofNat m) - s.w).toNat = m := by
    simp only [UInt32.toNat_sub, UInt32.toNat_add, UInt32.toNat_ofNat']
    omega
  have hheld : ((s.w + UInt32.ofNat m) - s.r).toNat = s.unread + m := by
    unfold unread at hl ⊢
    simp only [UInt32.toNat_sub, UInt32.toNat_add, UInt32.toNat_ofNat'] at hl hle hm ⊢
    omega
  rw [killLine, hrun, ← hiff]
  constructor
  · intro hs
    have hc : s.a.toNat ≤ ((s.w + UInt32.ofNat m) - s.w).toNat := hs.cursor
    omega
  · intro ha
    refine ⟨?_, ?_, ?_⟩
    · change s.unread ≤ ((s.w + UInt32.ofNat m) - s.r).toNat
      omega
    · change ((s.w + UInt32.ofNat m) - s.r).toNat ≤ 128
      omega
    · change s.a.toNat ≤ ((s.w + UInt32.ofNat m) - s.w).toNat
      omega

lemma killLine_buf : s.killLine.buf = s.buf := by
  obtain ⟨m, -, hrun, -⟩ := killLoop_spec (s.e - s.w).toNat (s := s) rfl
  rw [killLine, hrun]

lemma sound_left (h : s.Sound) : s.left.Sound := by
  unfold left
  split
  · rename_i hlt
    have hl := h.line
    have hc := h.cursor
    have hle := h.held_le
    have hw := s.w.toNat_lt
    have he := s.e.toNat_lt
    have hlt := UInt32.lt_iff_toNat_lt.1 hlt
    refine ⟨h.unread_le, h.held_le, ?_⟩
    show (s.a + 1).toNat ≤ (s.e - s.w).toNat
    simp only [UInt32.toNat_sub, UInt32.toNat_add, UInt32.toNat_one] at hl hc hlt ⊢
    omega
  · exact h

lemma sound_right (h : s.Sound) : s.right.Sound := by
  unfold right
  split
  · rename_i hp
    have hc := h.cursor
    have hp := UInt32.lt_iff_toNat_lt.1 hp.1
    refine ⟨h.unread_le, h.held_le, ?_⟩
    show (s.a - 1).toNat ≤ (s.e - s.w).toNat
    have : (s.a - 1).toNat = s.a.toNat - 1 := UInt32.toNat_sub_of_le _ _ hp
    omega
  · exact h

lemma left_buf : s.left.buf = s.buf := by unfold left; split <;> rfl

lemma right_buf : s.right.buf = s.buf := by unfold right; split <;> rfl

/-- A key keeps the distances and the bytes of `[r, w)` exactly if it meets `CursorOk`. -/
lemma consoleintr_sound_iff (h : s.Sound) :
    (s.consoleintr c).Sound ∧ Keeps s (s.consoleintr c) ↔ s.CursorOk c := by
  have skip (hU : c ≠ C 'U') (hH : ¬ (c = C 'H' ∨ c = delete)) : s.CursorOk c :=
    ⟨fun hc => absurd hc hU, fun hc => absurd hc hH⟩
  unfold consoleintr
  split_ifs with hP hU hH hL hR
  · exact iff_of_true ⟨h, Keeps.refl s⟩ (skip (by rw [hP]; decide) (by rw [hP]; decide))
  · have hkeeps : Keeps s s.killLine := Keeps.of_buf killLine_buf
    rw [sound_killLine_iff h]
    exact ⟨fun hs => ⟨fun _ => hs.1, fun hc => absurd hc (by rw [hU]; decide)⟩, fun hok => ⟨hok.kill hU, hkeeps⟩⟩
  · by_cases hne : s.e = s.w
    · rw [backspace, if_neg (by simpa using hne)]
      exact iff_of_true ⟨h, Keeps.refl s⟩ ⟨fun hc => absurd hc hU, fun _ hne' => absurd hne hne'⟩
    · rw [sound_backspace_iff h hne]
      exact ⟨fun hs => ⟨fun hc => absurd hc hU, fun _ _ => hs.1⟩,
        fun hok => ⟨hok.erase hH hne, keeps_backspace h hne (hok.erase hH hne)⟩⟩
  · exact iff_of_true ⟨sound_left h, Keeps.of_buf left_buf⟩ (skip hU hH)
  · exact iff_of_true ⟨sound_right h, Keeps.of_buf right_buf⟩ (skip hU hH)
  · refine iff_of_true ?_ (skip hU hH)
    unfold insert
    split
    · rename_i hin
      refine ⟨sound_commit (sound_put h (room hin.2)), fun i hi => ?_⟩
      rw [commit_buf]
      exact keeps_put h (room hin.2) i hi
    · exact ⟨h, Keeps.refl s⟩

end Input

end Console

end Os132

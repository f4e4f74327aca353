import Os132.Console.Cells

/-!
# The screen shows the line

While one line is typed the cells from its start on show it, followed by blanks, and the cursor stands
`a` cells before its end. Each kind of key is one lemma. Control-U with the cursor inside the line, and
a backspace with the cursor at its start, break this: `EchoOk` is what is left, together with two slips
of the index arithmetic.
-/

namespace Os132

namespace Console

namespace Input

variable {s : Input} {c : UInt8} {scr : Screen} {start : ℕ} {old : ℕ → UInt16}

/-! ### The screen after a byte -/

/-- What an empty cell holds: a blank, or what `memset` left when the screen was scrolled. -/
def Blank (x : UInt16) : Prop := x = cell 32 ∨ x = 0

/-- The screen shows the line from `start` on, blanks behind it, what `old` was before it, and the
cursor `a` steps left of its end. -/
structure Shows (start : ℕ) (old : ℕ → UInt16) (s : Input) (scr : Screen) : Prop where
  line : ∀ i (hi : i < s.line.length), scr.crt (start + i) = cell s.line[i]
  blank : ∀ j, start + s.line.length ≤ j → j < 24 * 80 → Blank (scr.crt j)
  before : ∀ j, j < start → scr.crt j = old j
  cursor : scr.pos + s.a.toNat = start + s.line.length

/-- The indices in order, a line without a newline, and the screen that shows it. -/
structure Echoed (start : ℕ) (old : ℕ → UInt16) (s : Input) (scr : Screen) : Prop where
  sound : s.Sound
  typed : newline ∉ s.line
  shows : Shows start old s scr

lemma line_le (h : s.Sound) : s.line.length ≤ 128 := by
  have := h.line
  have := h.held_le
  rw [length_line]
  omega

/-- A character taken off the end of the line, with the cursor there. -/
lemma echoed_shrink (h : Echoed start old s scr) (hne : s.e ≠ s.w) (ha : s.a = 0)
    (hroom : start + s.line.length < 24 * 80) :
    Echoed start old { s with e := s.e - 1 } (scr.cgaputc BACKSPACE) := by
  have hu := (e_ne_w h.sound).1 hne
  have hl := h.sound.line
  have hlen : (s.e - 1 - s.w).toNat + 1 = s.line.length := by
    rw [length_line]
    have hw := s.w.toNat_lt
    have he := s.e.toNat_lt
    simp only [UInt32.toNat_sub, UInt32.toNat_one] at hl ⊢
    omega
  have hlen' : ({ s with e := s.e - 1 } : Input).line.length + 1 = s.line.length := by
    rw [length_line]
    exact hlen
  have hbyte : ∀ i, ({ s with e := s.e - 1 } : Input).byteAt i = s.byteAt i := fun i => rfl
  have hcur := h.shows.cursor
  rw [ha, UInt32.toNat_zero] at hcur
  have hh : held { s with e := s.e - 1 } = s.held - 1 := held_shrink (by omega)
  rw [Screen.cgaputc_backspace (by omega)]
  constructor
  · apply sound_of
    · rw [hh]
      change s.unread ≤ _
      omega
    · have := h.sound.held_le
      omega
    · simp [ha]
  · apply newline_notMem
    intro i hi
    rw [hbyte]
    exact byteAt_ne h.typed (by rw [← length_line]; change i < (s.e - 1 - s.w).toNat at hi; omega)
  · constructor
    · intro i hi
      rw [getElem_line, hbyte, Screen.set_crt, if_neg (by omega)]
      have := h.shows.line i (by omega)
      rwa [getElem_line] at this
    · intro j hj hj'
      rw [Screen.set_crt]
      split
      · exact Or.inl rfl
      · apply h.shows.blank j _ hj'
        omega
    · intro j hj
      rw [Screen.set_crt, if_neg (by omega)]
      exact h.shows.before j hj
    · change scr.pos - 1 + s.a.toNat = start + ({ s with e := s.e - 1 } : Input).line.length
      have ha0 : s.a.toNat = 0 := by rw [ha]; rfl
      omega

/-- Control-U with the cursor at the end of the line. -/
lemma echoed_kill (h : Echoed start old s scr) (ha : s.a = 0) (hroom : start + s.line.length < 24 * 80) (k : ℕ) :
    Echoed start old (s.killLoop k) ((s.killEcho k).foldl Screen.cgaputc scr) := by
  induction k generalizing s scr with
  | zero => exact h
  | succ k ih =>
    rw [killLoop, killEcho]
    split
    · rename_i hc
      have hshrink := echoed_shrink h hc.1 ha hroom
      have hshort : ({ s with e := s.e - 1 } : Input).line.length ≤ s.line.length := by
        have h1 := h.shows.cursor
        have h2 := hshrink.shows.cursor
        have ha0 : s.a.toNat = 0 := by rw [ha]; rfl
        rw [Screen.cgaputc_backspace (by omega)] at h2
        change scr.pos - 1 + s.a.toNat = start + ({ s with e := s.e - 1 } : Input).line.length at h2
        omega
      exact ih hshrink ha (by omega)
    · exact h

/-- When what a key does to the screen is what it does to the line. -/
structure EchoOk (s : Input) (c : UInt8) : Prop where
  kill : c = C 'U' → s.e ≠ s.w → s.a = 0
  erase : c = C 'H' ∨ c = delete → s.e ≠ s.w → 0 < s.a → s.a < s.e - s.w ∧ s.a < s.e ∧ s.e + 1 ≠ 0
  insert : Ordinary c → cooked c ≠ newline → c ≠ 0 → s.e - s.r < INPUT_BUF → 0 < s.a →
    (s.a ≤ s.e ∧ s.e + 1 ≠ 0) ∧ (s.a ≤ s.e % INPUT_BUF ∨ s.buf 4294967295 ≠ newline)

lemma toNat_succ (h : s.e + 1 ≠ 0) : (s.e + 1).toNat = s.e.toNat + 1 := by
  have he := s.e.toNat_lt
  have hne : (s.e + 1).toNat ≠ 0 := fun hz => h (UInt32.toNat_inj.1 hz)
  simp only [UInt32.toNat_add, UInt32.toNat_one] at hne ⊢
  omega

/-- The line from place `m` on printed anew: its bytes, and a blank for what it has lost. -/
lemma shows_reprint {s' : Input} {first mid : Screen} {bs : List UInt8} {m p : ℕ} (h : Shows start old s scr)
    (hmid : Screen.Shown first mid bs) (hne : bs ≠ []) (hcrt : first.crt = scr.crt) (hpos : first.pos = start + m)
    (hm : m ≤ s.line.length ∧ s.line.length ≤ m + bs.length)
    (hm' : m ≤ s'.line.length ∧ s'.line.length ≤ m + bs.length) (hkeep : ∀ i, i < m → s'.byteAt i = s.byteAt i)
    (hnew : ∀ i (hi : i < bs.length), bs[i] = if m + i < s'.line.length then s'.byteAt (m + i) else 32)
    (hp : p + s'.a.toNat = start + s'.line.length) : Shows start old s' { mid with pos := p } := by
  have hcell : ∀ i (hi : i < bs.length), mid.crt (start + (m + i)) = cell bs[i] := by
    intro i hi
    rw [← hmid.new i hi, hpos, Nat.add_assoc]
  have hnext : mid.crt (start + (m + bs.length)) = cell 32 := by
    rw [← hmid.next hne, hpos, Nat.add_assoc]
  have hold : ∀ j, j < start + m ∨ start + (m + bs.length) < j → mid.crt j = scr.crt j := by
    intro j hj
    rw [hmid.old j (by omega), hcrt]
  constructor
  · intro i hi
    rw [getElem_line]
    change mid.crt (start + i) = _
    by_cases hlo : i < m
    · have hline := h.line i (by omega)
      rw [getElem_line] at hline
      rw [hold _ (by omega), hkeep i hlo, hline]
    · obtain ⟨j, rfl⟩ : ∃ j, i = m + j := ⟨i - m, by omega⟩
      have hj : j < bs.length := by omega
      rw [hcell j hj, hnew j hj, if_pos hi]
  · intro j hj hj'
    change Blank (mid.crt j)
    by_cases hin : j < start + (m + bs.length)
    · obtain ⟨i, rfl⟩ : ∃ i, j = start + (m + i) := ⟨j - start - m, by omega⟩
      have hi : i < bs.length := by omega
      left
      rw [hcell i hi, hnew i hi, if_neg (by omega)]
    · by_cases hend : j = start + (m + bs.length)
      · left
        rw [hend, hnext]
      · rw [hold j (by omega)]
        exact h.blank j (by omega) hj'
  · intro j hj
    change mid.crt j = _
    rw [hold j (by omega)]
    exact h.before j hj
  · exact hp

/-- A backspace in the middle of the line. -/
lemma echoed_backspace (h : Echoed start old s scr) (hne : s.e ≠ s.w) (ha : 0 < s.a)
    (hok : s.a < s.e - s.w ∧ s.a < s.e ∧ s.e + 1 ≠ 0) (hroom : start + s.line.length < 24 * 80) :
    Echoed start old s.backspace (s.backspaceEcho.foldl Screen.cgaputc scr) := by
  obtain ⟨n, hn⟩ : ∃ n, (s.e - s.w).toNat = n := ⟨_, rfl⟩
  obtain ⟨k, hk⟩ : ∃ k, s.a.toNat = k := ⟨_, rfl⟩
  have hk0 : 0 < k := hk ▸ UInt32.lt_iff_toNat_lt.1 ha
  have hkn : k < n := by
    have := UInt32.lt_iff_toNat_lt.1 hok.1
    rwa [hn, hk] at this
  have hke : k < s.e.toNat := by
    have := UInt32.lt_iff_toNat_lt.1 hok.2.1
    rwa [hk] at this
  have hlen : s.line.length = n := by rw [length_line, hn]
  have hfull : n ≤ 128 := hlen ▸ line_le h.sound
  have hcur := h.shows.cursor
  rw [hk, hlen] at hcur
  have hbytes := fun i hi => @backspace_bytes s n k hn hk hk0 hkn hfull h.typed i hi
  have hback : s.backspace =
      { s with buf := shiftLeftBuf s.buf ((s.e - 1) % INPUT_BUF) s.a, e := s.e - 1 } := by
    rw [backspace, if_pos hne, if_pos ha]
  -- the loops print the bytes from the one before the cursor on, and go back
  have hfirst : (s.e - s.a - 1).toNat = s.e.toNat - k - 1 := by
    have he := s.e.toNat_lt
    simp only [UInt32.toNat_sub, UInt32.toNat_one, hk]
    omega
  have hback' : (s.e - s.a).toNat = s.e.toNat - k := by
    have he := s.e.toNat_lt
    simp only [UInt32.toNat_sub, hk]
    omega
  obtain ⟨bs, hbs⟩ : ∃ bs, bs = Ring.window 128 (shiftLeftBuf s.buf ((s.e - 1) % INPUT_BUF) s.a)
      (s.w.toNat + (n - 1 - k)) (k + 1) := ⟨_, rfl⟩
  have hecho : s.backspaceEcho =
      (KEY_LF.toNat : ℤ) :: (bs.map signed ++ List.replicate (k + 1) (KEY_LF.toNat : ℤ)) := by
    have hwin : Ring.window 128 (shiftLeftBuf s.buf ((s.e - 1) % INPUT_BUF) s.a) (s.e.toNat - k - 1) (k + 1) = bs := by
      rw [hbs]
      apply Ring.window_start
      have hw := s.w.toNat_lt
      have he := s.e.toNat_lt
      rw [UInt32.toNat_sub] at hn
      omega
    rw [backspaceEcho, if_pos hne, if_pos ha, printed_eq, lefts_eq, hfirst, hback', toNat_succ hok.2.2,
      show s.e.toNat - (s.e.toNat - k - 1) = k + 1 by omega, show s.e.toNat + 1 - (s.e.toNat - k) = k + 1 by omega, hwin]
  have hbslen : bs.length = k + 1 := by rw [hbs, Ring.length_window]
  have hbsget : ∀ i (hi : i < bs.length), bs[i] =
      shiftLeftBuf s.buf ((s.e - 1) % INPUT_BUF) s.a ((s.w.toNat + (n - 1 - k + i)) % 128) := by
    intro i hi
    subst hbs
    rw [Ring.getElem_window, Nat.add_assoc]
  have hbsnl : newline ∉ bs := by
    intro hm
    obtain ⟨i, hi, he⟩ := List.getElem_of_mem hm
    rw [hbsget i hi] at he
    exact (hbytes (n - 1 - k + i) (by omega)).2.2 he
  rw [hecho, List.foldl_cons, List.foldl_append, Screen.cgaputc_left (by omega)]
  have hshown := Screen.shown_signed { scr with pos := scr.pos - 1 } bs hbsnl (by simp only; omega)
  obtain ⟨mid, hmid⟩ : ∃ mid, mid = (bs.map signed).foldl Screen.cgaputc { scr with pos := scr.pos - 1 } :=
    ⟨_, rfl⟩
  rw [← hmid] at hshown ⊢
  have hmidpos : mid.pos = scr.pos + k := by
    rw [hshown.pos, hbslen]
    simp only
    omega
  rw [Screen.foldl_left _ (by omega)]
  have hlen' : s.backspace.line.length = n - 1 := by
    rw [length_line, backspace_w, hback]
    have hw := s.w.toNat_lt
    have he := s.e.toNat_lt
    simp only [UInt32.toNat_sub, UInt32.toNat_one] at hn ⊢
    omega
  have hbyte : ∀ i, s.backspace.byteAt i =
      shiftLeftBuf s.buf ((s.e - 1) % INPUT_BUF) s.a ((s.w.toNat + i) % 128) := by
    intro i
    rw [byteAt, backspace_w, hback]
  constructor
  · have hl := h.sound.line
    have hle := h.sound.held_le
    apply sound_of
    · rw [unread_backspace, held_backspace h.sound hne]
      omega
    · rw [held_backspace h.sound hne]
      omega
    · rw [unread_backspace, held_backspace h.sound hne, backspace_a]
      omega
  · apply newline_notMem
    intro i hi
    rw [← length_line, hlen'] at hi
    rw [hbyte]
    exact (hbytes i (by omega)).2.2
  · apply shows_reprint h.shows hshown (m := n - 1 - k)
    · intro hnil
      simp [hnil] at hbslen
    · rfl
    · simp only
      omega
    · omega
    · omega
    · intro i hi
      rw [hbyte, (hbytes i (by omega)).1 hi]
    · intro i hi
      rw [hbsget i hi]
      split
      · rw [hbyte]
      · exact (hbytes _ (by omega)).2.1 (by omega)
    · rw [hlen', backspace_a]
      omega

lemma put_line_length (hfull : (s.e - s.w).toNat < 128) : (s.put c).line.length = s.line.length + 1 := by
  have he : (s.put c).e = s.e + 1 := by
    unfold put
    split <;> rfl
  rw [length_line, length_line, put_w, he]
  have hw := s.w.toNat_lt
  have he' := s.e.toNat_lt
  simp only [UInt32.toNat_sub, UInt32.toNat_add, UInt32.toNat_one] at hfull ⊢
  omega

/-- A character inserted in the middle of the line. -/
lemma echoed_put (h : Echoed start old s scr) (hc : c ≠ newline) (hfree : s.held < 128) (ha : 0 < s.a)
    (hwrap : s.a ≤ s.e ∧ s.e + 1 ≠ 0) (hout : s.a ≤ s.e % INPUT_BUF ∨ s.buf 4294967295 ≠ newline)
    (hroom : start + (s.put c).line.length < 24 * 80) :
    Echoed start old (s.put c)
      ((printed (s.put c).buf (s.e - s.a) (s.e + 1) ++ lefts (s.e - s.a) s.e).foldl Screen.cgaputc scr) := by
  obtain ⟨n, hn⟩ : ∃ n, (s.e - s.w).toNat = n := ⟨_, rfl⟩
  obtain ⟨k, hk⟩ : ∃ k, s.a.toNat = k := ⟨_, rfl⟩
  have hk0 : 0 < k := hk ▸ UInt32.lt_iff_toNat_lt.1 ha
  have hkn : k ≤ n := by
    have := h.sound.cursor
    rwa [hn, hk] at this
  have hke : k ≤ s.e.toNat := by
    have := UInt32.le_iff_toNat_le.1 hwrap.1
    rwa [hk] at this
  have hlen : s.line.length = n := by rw [length_line, hn]
  have hfull : n < 128 := by
    have := h.sound.line
    omega
  have hcur := h.shows.cursor
  rw [hk, hlen] at hcur
  have hout' : k ≤ (s.e % INPUT_BUF).toNat ∨ s.buf 4294967295 ≠ newline := by
    rw [UInt32.le_iff_toNat_le, hk] at hout
    exact hout
  have hbytes := fun i hi => @put_bytes s c n k hn hk hk0 hkn hfull hc h.typed hout' i hi
  have hlen' : (s.put c).line.length = n + 1 := by
    rw [put_line_length (by omega), hlen]
  have hback : (s.e - s.a).toNat = s.e.toNat - k := by
    have he := s.e.toNat_lt
    simp only [UInt32.toNat_sub, hk]
    omega
  obtain ⟨bs, hbs⟩ : ∃ bs, bs = Ring.window 128 (s.put c).buf (s.w.toNat + (n - k)) (k + 1) := ⟨_, rfl⟩
  have hecho : printed (s.put c).buf (s.e - s.a) (s.e + 1) ++ lefts (s.e - s.a) s.e =
      bs.map signed ++ List.replicate k (KEY_LF.toNat : ℤ) := by
    have hwin : Ring.window 128 (s.put c).buf (s.e.toNat - k) (k + 1) = bs := by
      rw [hbs]
      apply Ring.window_start
      have hw := s.w.toNat_lt
      have he := s.e.toNat_lt
      rw [UInt32.toNat_sub] at hn
      omega
    rw [printed_eq, lefts_eq, hback, toNat_succ hwrap.2, show s.e.toNat + 1 - (s.e.toNat - k) = k + 1 by omega,
      show s.e.toNat - (s.e.toNat - k) = k by omega, hwin]
  have hbslen : bs.length = k + 1 := by rw [hbs, Ring.length_window]
  have hbsget : ∀ i (hi : i < bs.length), bs[i] = (s.put c).buf ((s.w.toNat + (n - k + i)) % 128) := by
    intro i hi
    subst hbs
    rw [Ring.getElem_window, Nat.add_assoc]
  have hbsnl : newline ∉ bs := by
    intro hm
    obtain ⟨i, hi, he⟩ := List.getElem_of_mem hm
    rw [hbsget i hi] at he
    exact (hbytes (n - k + i) (by omega)).2 he
  rw [hecho, List.foldl_append]
  have hshown := Screen.shown_signed scr bs hbsnl (by omega)
  obtain ⟨mid, hmid⟩ : ∃ mid, mid = (bs.map signed).foldl Screen.cgaputc scr := ⟨_, rfl⟩
  rw [← hmid] at hshown ⊢
  have hmidpos : mid.pos = scr.pos + (k + 1) := by rw [hshown.pos, hbslen]
  rw [Screen.foldl_left _ (by omega)]
  have hbyte : ∀ i, (s.put c).byteAt i = (s.put c).buf ((s.w.toNat + i) % 128) := by
    intro i
    rw [byteAt, put_w]
  constructor
  · exact sound_put h.sound hfree
  · apply newline_notMem
    intro i hi
    rw [← length_line, hlen'] at hi
    rw [hbyte]
    exact (hbytes i (by omega)).2
  · apply shows_reprint h.shows hshown (m := n - k)
    · intro hnil
      simp [hnil] at hbslen
    · rfl
    · omega
    · omega
    · omega
    · intro i hi
      rw [hbyte, (hbytes i (by omega)).1 hi]
    · intro i hi
      rw [hbsget i hi, if_pos (by omega), hbyte]
    · rw [hlen', put_a]
      omega

/-- A character typed at the end of the line. -/
lemma echoed_append (h : Echoed start old s scr) (hc : c ≠ newline) (hkey : c ≠ KEY_LF ∧ c ≠ KEY_RT)
    (hfree : s.held < 128) (ha : ¬0 < s.a) (hroom : start + (s.put c).line.length < 24 * 80) :
    Echoed start old (s.put c) (scr.cgaputc c.toNat) := by
  obtain ⟨n, hn⟩ : ∃ n, (s.e - s.w).toNat = n := ⟨_, rfl⟩
  have ha0 : s.a.toNat = 0 := by
    have := UInt32.lt_iff_toNat_lt.not.1 ha
    simpa using this
  have hlen : s.line.length = n := by rw [length_line, hn]
  have hfull : n < 128 := by
    have := h.sound.line
    omega
  have hlen' : (s.put c).line.length = n + 1 := by
    rw [put_line_length (by omega), hlen]
  have hcur := h.shows.cursor
  have hE : (s.e % INPUT_BUF).toNat = (s.w.toNat + n) % 128 := by
    have := @slot_end s n hn 0 (by simp)
    simpa using this
  have hbyte : ∀ i, (s.put c).byteAt i = if (s.w.toNat + i) % 128 = (s.w.toNat + n) % 128 then c else s.byteAt i := by
    intro i
    have hend : ¬(c ≠ newline ∧ 0 < s.a) := fun hm => ha hm.2
    rw [byteAt, put_w, put, if_neg hend]
    simp only [store, hE]
    rfl
  have hprints : Screen.Prints c.toNat := by
    have h10 : c.toNat ≠ 10 := fun he => hc (UInt8.toNat_inj.1 he)
    have h1 : c.toNat ≠ KEY_LF.toNat := fun he => hkey.1 (UInt8.toNat_inj.1 he)
    have h2 : c.toNat ≠ KEY_RT.toNat := fun he => hkey.2 (UInt8.toNat_inj.1 he)
    have hlt := c.toNat_lt
    unfold Screen.Prints BACKSPACE
    omega
  have hlow : UInt8.ofNat ((c.toNat : ℤ) % 256).toNat = c := by
    have hlt := c.toNat_lt
    have hmod : ((c.toNat : ℤ) % 256).toNat = c.toNat := by omega
    rw [hmod, UInt8.ofNat_toNat]
  obtain ⟨hpos, hcrt⟩ := Screen.cgaputc_prints scr hprints (by omega)
  rw [hlow] at hcrt
  constructor
  · exact sound_put h.sound hfree
  · apply newline_notMem
    intro i hi
    rw [← length_line, hlen'] at hi
    rw [hbyte]
    split
    · exact hc
    · apply byteAt_ne h.typed
      have : i ≠ n := by
        rintro rfl
        exact absurd rfl ‹_›
      omega
  · constructor
    · intro i hi
      rw [hlen'] at hi
      rw [getElem_line, hbyte, hcrt, if_neg (by omega)]
      by_cases hin : i = n
      · rw [if_pos (by omega), if_pos (by rw [hin])]
      · rw [if_neg (by omega), if_neg (by omega)]
        have := h.shows.line i (by omega)
        rwa [getElem_line] at this
    · intro j hj hj'
      rw [hcrt]
      split
      · exact Or.inl rfl
      · rw [if_neg (by omega)]
        exact h.shows.blank j (by omega) hj'
    · intro j hj
      rw [hcrt, if_neg (by omega), if_neg (by omega)]
      exact h.shows.before j hj
    · rw [hpos, hlen', put_a]
      omega

/-- A change of the indices that leaves the line as it is. -/
lemma echoed_move {s' : Input} {p : ℕ} (h : Echoed start old s scr) (hs : s'.Sound) (hl : s'.line = s.line)
    (hp : p + s'.a.toNat = start + s.line.length) : Echoed start old s' { scr with pos := p } := by
  constructor
  · exact hs
  · rw [hl]
    exact h.typed
  · constructor
    · intro i hi
      simp only [hl] at hi ⊢
      exact h.shows.line i hi
    · rw [hl]
      exact h.shows.blank
    · exact h.shows.before
    · rw [hl]
      exact hp

lemma left_line : s.left.line = s.line := by
  unfold left
  split <;> rfl

lemma right_line : s.right.line = s.line := by
  unfold right
  split <;> rfl

lemma echoed_left (h : Echoed start old s scr) (hroom : start + s.line.length < 24 * 80) (hlt : s.w < s.e - s.a) :
    Echoed start old s.left (scr.cgaputc KEY_LF.toNat) := by
  have hcur := h.shows.cursor
  rw [Screen.cgaputc_left (by omega)]
  have hs := sound_left h.sound
  have hcursor := hs.cursor
  apply echoed_move h hs left_line
  rw [length_line] at hcur ⊢
  rw [left, if_pos hlt] at hcursor ⊢
  have ha : (s.a + 1).toNat = s.a.toNat + 1 := by
    have h1 := h.sound.cursor
    have h2 := h.sound.line
    have h3 := h.sound.held_le
    simp only [UInt32.toNat_add, UInt32.toNat_one]
    omega
  simp only at hcursor ⊢
  omega

lemma echoed_right (h : Echoed start old s scr) (hroom : start + s.line.length < 24 * 80)
    (hgo : 0 < s.a ∧ s.e % INPUT_BUF < INPUT_BUF - 1) : Echoed start old s.right (scr.cgaputc KEY_RT.toNat) := by
  have hcur := h.shows.cursor
  have hpos : 0 < s.a.toNat := UInt32.lt_iff_toNat_lt.1 hgo.1
  rw [Screen.cgaputc_right (by omega)]
  apply echoed_move h (sound_right h.sound) right_line
  rw [right, if_pos hgo]
  have ha : (s.a - 1).toNat = s.a.toNat - 1 := UInt32.toNat_sub_of_le _ _ hpos
  simp only
  omega

/-- The byte leaves the line uncommitted. -/
def OneLine (s : Input) (c : UInt8) : Prop := c ≠ C 'P' ∧ (s.consoleintr c).w = s.w

/-- A byte that commits moves `w`. -/
lemma commit_eq (h : s.Sound) (hfree : s.held < 128) (hw : ((s.put c).commit c).w = s.w) :
    (s.put c).commit c = s.put c := by
  unfold commit at hw ⊢
  split
  · rename_i hc
    rw [if_pos hc] at hw
    have he : (s.put c).e = s.e + 1 := by
      unfold put
      split <;> rfl
    have hl := h.line
    have hne : (s.e + 1).toNat = s.w.toNat := by
      rw [← he]
      exact congrArg UInt32.toNat hw
    have h1 := s.w.toNat_lt
    have h2 := s.e.toNat_lt
    simp only [UInt32.toNat_sub, UInt32.toNat_add, UInt32.toNat_one] at hl hne
    omega
  · rfl

/-- One byte: the screen goes on showing the line. -/
theorem echoed_consoleintr (h : Echoed start old s scr) (hok : s.EchoOk c) (hline : s.OneLine c)
    (hroom : start + s.line.length < 24 * 80) (hroom' : start + (s.consoleintr c).line.length < 24 * 80) :
    Echoed start old (s.consoleintr c) ((s.echo c).foldl Screen.cgaputc scr) := by
  obtain ⟨hP, hw⟩ := hline
  unfold consoleintr at hw hroom' ⊢
  unfold echo
  rw [if_neg hP] at hw hroom' ⊢
  rw [if_neg hP]
  by_cases hU : c = C 'U'
  · rw [if_pos hU, if_pos hU]
    by_cases hne : s.e = s.w
    · have hz : (s.e - s.w).toNat = 0 := by simp [hne]
      rw [killLine, hz]
      exact h
    · exact echoed_kill h (hok.kill hU hne) hroom _
  rw [if_neg hU] at hw hroom' ⊢
  rw [if_neg hU]
  by_cases hH : c = C 'H' ∨ c = delete
  · rw [if_pos hH, if_pos hH]
    by_cases hne : s.e ≠ s.w
    · by_cases ha : 0 < s.a
      · exact echoed_backspace h hne ha (hok.erase hH hne ha) hroom
      · have ha0 : s.a = 0 := by
          have := UInt32.lt_iff_toNat_lt.not.1 ha
          exact UInt32.toNat_inj.1 (by simpa using this)
        rw [backspace, if_pos hne, if_neg ha, backspaceEcho, if_pos hne, if_neg ha]
        exact echoed_shrink h hne ha0 hroom
    · rw [backspace, if_neg hne, backspaceEcho, if_neg hne]
      exact h
  rw [if_neg hH] at hw hroom' ⊢
  rw [if_neg hH]
  by_cases hL : c = KEY_LF
  · rw [if_pos hL, if_pos hL]
    by_cases hlt : s.w < s.e - s.a
    · rw [if_pos hlt]
      exact echoed_left h hroom hlt
    · rw [if_neg hlt, left, if_neg hlt]
      exact h
  rw [if_neg hL] at hw hroom' ⊢
  rw [if_neg hL]
  by_cases hR : c = KEY_RT
  · rw [if_pos hR, if_pos hR]
    by_cases hgo : 0 < s.a ∧ s.e % INPUT_BUF < INPUT_BUF - 1
    · rw [if_pos hgo]
      exact echoed_right h hroom hgo
    · rw [if_neg hgo, right, if_neg hgo]
      exact h
  rw [if_neg hR] at hw hroom' ⊢
  rw [if_neg hR]
  unfold insert at hw hroom' ⊢
  unfold insertEcho
  by_cases hin : c ≠ 0 ∧ s.e - s.r < INPUT_BUF
  · rw [if_pos hin] at hw hroom' ⊢
    rw [if_pos hin]
    have hfree := room hin.2
    have hnl : cooked c ≠ newline := by
      intro hnl
      have hcommit : (s.put (cooked c)).commit (cooked c) =
          { s.put (cooked c) with w := (s.put (cooked c)).e, a := 0 } := if_pos (Or.inl hnl)
      have heq := commit_eq h.sound hfree hw
      have hfixed : (s.put (cooked c)).w = (s.put (cooked c)).e := by
        rw [← heq, hcommit]
      have hlen := @put_line_length s (cooked c) (by have := h.sound.line; omega)
      rw [length_line, hfixed, UInt32.sub_self] at hlen
      simp at hlen
    rw [commit_eq h.sound hfree hw] at hroom' ⊢
    by_cases ha : 0 < s.a
    · rw [if_pos ⟨hnl, ha⟩]
      have := hok.insert ⟨hP, hU, hH, hL, hR⟩ hnl hin.1 hin.2 ha
      exact echoed_put h hnl hfree ha this.1 this.2 hroom'
    · rw [if_neg (fun hm => ha hm.2)]
      have hkey : cooked c ≠ KEY_LF ∧ cooked c ≠ KEY_RT := by
        unfold cooked
        split
        · exact ⟨by decide, by decide⟩
        · exact ⟨hL, hR⟩
      exact echoed_append h hnl hkey hfree ha hroom'
  · rw [if_neg hin, if_neg hin]
    exact h

end Input

/-! ### Runs -/

/-- The console with its screen. -/
structure Terminal where
  device : Device
  screen : Screen

namespace Terminal

def step (ev : Event) (t : Terminal) : Terminal where
  device := t.device.step ev
  screen :=
    match ev with
    | .byte c => (t.device.input.echo c).foldl Screen.cgaputc t.screen
    | .read .. => t.screen
    | .resume .. => t.screen

/-- A line may begin here: nothing is typed, and the screen is blank from the cursor on. -/
def LineStart (t : Terminal) : Prop :=
  t.device.input.Sound ∧ t.device.input.e = t.device.input.w ∧
    ∀ j, t.screen.pos ≤ j → j < 24 * 80 → Input.Blank (t.screen.crt j)

end Terminal

/-- Runs from the start of a line on: any input bytes, and readers of the lines before. -/
abbrev Typing (n : ℕ) := Lts.Run Terminal.LineStart (fun ev t => some (Terminal.step ev t)) n

variable {n : ℕ}

/-- No byte of the run ends the line or lists the processes, and the line stays on the screen. -/
structure OnOneLine (r : Typing n) : Prop where
  line : r.Meets fun t ev => OnKey Input.OneLine t.device ev
  fits : ∀ k, k ≤ n → (r.state 0).screen.pos + (r.state k).device.input.line.length < 24 * 80

lemma echoed_takes {start : ℕ} {old : ℕ → UInt16} {s s' : Input} {scr : Screen} {bytes : List UInt8}
    (h : Input.Echoed start old s scr) (ht : Takes s s' bytes) : Input.Echoed start old s' scr := by
  have hl : s'.line = s.line := by
    rw [Input.line, ht.buf, ht.w, ht.e]
    rfl
  have hmove := Input.echoed_move (p := scr.pos) h ht.sound hl (by rw [ht.a]; exact h.shows.cursor)
  exact hmove

lemma echoed_step {start : ℕ} {old : ℕ → UInt16} {t : Terminal} {ev : Event}
    (h : Input.Echoed start old t.device.input t.screen) (hok : OnKey Input.EchoOk t.device ev)
    (hline : OnKey Input.OneLine t.device ev) (hroom : start + t.device.input.line.length < 24 * 80)
    (hroom' : start + (t.step ev).device.input.line.length < 24 * 80) :
    Input.Echoed start old (t.step ev).device.input (t.step ev).screen := by
  cases ev with
  | byte c => exact Input.echoed_consoleintr h (hok c rfl) (hline c rfl) hroom hroom'
  | read p m killed =>
    unfold Terminal.step Device.step
    dsimp only
    split
    · exact echoed_takes h (consoleread_takes killed m m h.sound)
    · exact h
  | resume p killed =>
    unfold Terminal.step Device.step
    dsimp only
    split
    · exact echoed_takes h (consoleread_takes killed _ _ h.sound)
    · exact h

instance (s : Input) (c : UInt8) : Decidable (s.EchoOk c) :=
  decidable_of_iff ((c = C 'U' ∧ s.e ≠ s.w → s.a = 0) ∧
    ((c = C 'H' ∨ c = delete) ∧ s.e ≠ s.w ∧ 0 < s.a → s.a < s.e - s.w ∧ s.a < s.e ∧ s.e + 1 ≠ 0) ∧
    (Input.Ordinary c ∧ Input.cooked c ≠ newline ∧ c ≠ 0 ∧ s.e - s.r < INPUT_BUF ∧ 0 < s.a →
      (s.a ≤ s.e ∧ s.e + 1 ≠ 0) ∧ (s.a ≤ s.e % INPUT_BUF ∨ s.buf 4294967295 ≠ newline)))
    ⟨fun ⟨hk, he, hi⟩ => ⟨fun h1 h2 => hk ⟨h1, h2⟩, fun h1 h2 h3 => he ⟨h1, h2, h3⟩,
      fun h1 h2 h3 h4 h5 => hi ⟨h1, h2, h3, h4, h5⟩⟩,
     fun h => ⟨fun h1 => h.kill h1.1 h1.2, fun h1 => h.erase h1.1 h1.2.1 h1.2.2,
      fun h1 => h.insert h1.1 h1.2.1 h1.2.2.1 h1.2.2.2.1 h1.2.2.2.2⟩⟩

instance (s : Input) (c : UInt8) : Decidable (s.OneLine c) :=
  inferInstanceAs (Decidable (c ≠ C 'P' ∧ (s.consoleintr c).w = s.w))

/-- The console after power-on with a prompt in the first two cells of the screen. -/
def prompt : Terminal := ⟨.boot, ⟨fun j => if j = 0 then cell 36 else cell 32, 2⟩⟩

lemma lineStart_prompt : prompt.LineStart := by
  refine ⟨Input.Sound.boot, rfl, fun j hj _ => ?_⟩
  have hj : 2 ≤ j := hj
  left
  simp only [prompt]
  rw [if_neg (by omega)]

/-- The run that types these events behind the prompt. -/
def typing (evs : List Event) : Typing evs.length where
  state k := (evs.take k).foldl (fun t ev => Terminal.step ev t) prompt
  label k := evs.getD k (.byte 0)
  starts := lineStart_prompt
  steps k hk := by
    rw [List.take_add_one, List.foldl_append, List.getD_eq_getElem?_getD, List.getElem?_eq_getElem hk]
    rfl

/-- `ac`, left arrow, `b`, right arrow, backspace. -/
def acb : List Event := [.byte 97, .byte 99, .byte KEY_LF, .byte 98, .byte KEY_RT, .byte delete]

/-- `a`, left arrow, Control-U. -/
def killMidline : List Event := [.byte 97, .byte KEY_LF, .byte (C 'U')]

end Console

end Os132

import Os132.Console.Device

/-!
# The console refines a line editor

The reference is a line with a cursor, a queue of committed bytes that are not yet read, and the
record of all bytes committed so far. A key edits the line; a newline, a `^D` or a full buffer
commits it. The console's `[r, w)` is the queue, `[w, e)` is the line, and `a` counts the bytes
behind the cursor.
-/

namespace Os132

namespace Console

/-- A line and a position in it. -/
structure Editor where
  line : List UInt8
  cursor : ℕ
  cursor_le : cursor ≤ line.length

namespace Editor

def empty : Editor := ⟨[], 0, Nat.le_refl 0⟩

def left (t : Editor) : Editor := ⟨t.line, t.cursor - 1, by have := t.cursor_le; omega⟩

def right (t : Editor) : Editor := ⟨t.line, min (t.cursor + 1) t.line.length, Nat.min_le_right _ _⟩

/-- Delete the byte before the cursor, if there is one. -/
def rubout (t : Editor) : Editor :=
  ⟨if t.cursor = 0 then t.line else t.line.eraseIdx (t.cursor - 1), t.cursor - 1, by
    have := t.cursor_le
    split
    · omega
    · rw [List.length_eraseIdx_of_lt (by omega)]
      omega⟩

/-- A newline goes to the end of the line, any other byte to the cursor. -/
def put (t : Editor) (c : UInt8) : Editor :=
  if c = newline then ⟨t.line ++ [c], t.line.length + 1, by simp⟩
  else ⟨t.line.insertIdx t.cursor c, t.cursor + 1, by
    rw [List.length_insertIdx_of_le_length t.cursor_le]
    exact Nat.succ_le_succ t.cursor_le⟩

end Editor

/-- The reference console: the line being edited, the bytes that may be read, all bytes committed. -/
structure Desk where
  editor : Editor
  queue : List UInt8
  committed : List UInt8

namespace Desk

def boot : Desk := ⟨.empty, [], []⟩

/-- Newline, `^D` and a full buffer end the line. -/
def commit (t : Desk) (c : UInt8) : Desk :=
  if c = newline ∨ c = C 'D' ∨ t.queue.length + t.editor.line.length = 128 then
    ⟨.empty, t.queue ++ t.editor.line, t.committed ++ t.editor.line⟩
  else t

/-- Bytes that arrive at a full buffer are dropped, and so is the NUL byte. -/
def insert (t : Desk) (c : UInt8) : Desk :=
  if c ≠ 0 ∧ t.queue.length + t.editor.line.length < 128 then commit { t with editor := t.editor.put c } c
  else t

def key (t : Desk) (c : UInt8) : Desk :=
  if c = C 'P' then t
  else if c = C 'U' then { t with editor := .empty }
  else if c = C 'H' ∨ c = delete then { t with editor := t.editor.rubout }
  else if c = KEY_LF then { t with editor := t.editor.left }
  else if c = KEY_RT then { t with editor := t.editor.right }
  else t.insert (Input.cooked c)

/-- A reader that wants `n` of `target` bytes: what it takes off the queue and how it ends. -/
def read (killed : Bool) (target : ℕ) : ℕ → List UInt8 → List UInt8 × Status
  | 0, _ => ([], .returned target)
  | n + 1, [] => ([], if killed then .returned (-1) else .asleep (n + 1))
  | n + 1, c :: queue =>
    if c = C 'D' then
      if n + 1 < target then ([], .returned (target - (n + 1) : ℕ)) else ([c], .returned (target - (n + 1) : ℕ))
    else if c = newline then ([c], .returned (target - n : ℕ))
    else (c :: (read killed target n queue).1, (read killed target n queue).2)

end Desk

/-- The reference console with its readers. -/
structure Office where
  desk : Desk
  sleeper : Sleepers
  taken : List UInt8

namespace Office

def boot : Office := ⟨.boot, fun _ => none, []⟩

def reading (t : Office) (p : ℕ) (killed : Bool) (target n : ℕ) : Office :=
  let q := Desk.read killed target n t.desk.queue
  ⟨{ t.desk with queue := t.desk.queue.drop q.1.length }, t.sleeper.settle p target q.2, t.taken ++ q.1⟩

def step (ev : Event) (t : Office) : Office :=
  match ev with
  | .byte c => { t with desk := t.desk.key c }
  | .read p n killed => if t.sleeper p = none then t.reading p killed n n else t
  | .resume p killed =>
    match t.sleeper p with
    | some (target, n) => t.reading p killed target n
    | none => t

/-- The reference after the first `k` events. -/
def after (label : ℕ → Event) : ℕ → Office
  | 0 => boot
  | k + 1 => step (label k) (after label k)

end Office

/-! ### The refinement -/

/-- `[r, w)` is the queue, `[w, e)` the line, and `a` bytes stand behind the cursor. -/
structure Refines (s : Input) (t : Desk) : Prop where
  sound : s.Sound
  bytes : s.contents = t.queue ++ t.editor.line
  unread : s.unread = t.queue.length
  cursor : t.editor.cursor + s.a.toNat = t.editor.line.length
  plain : newline ∉ t.editor.line

/-- When the console does with a key what the reference does. Beyond `EditOk`: the arrows compare
`e - a` with `w` as numbers, which differs when the indices wrap around at `2 ^ 32`, and refuse to
go right at the end of the array. -/
structure KeyOk (s : Input) (c : UInt8) : Prop extends s.EditOk c where
  back : c = KEY_LF → s.a < s.e - s.w → s.w < s.e - s.a
  forth : c = KEY_RT → 0 < s.a → s.e % INPUT_BUF < INPUT_BUF - 1

namespace Refines

variable {s : Input} {t : Desk} {c : UInt8}

lemma boot : Refines .boot .boot where
  sound := Input.Sound.boot
  bytes := rfl
  unread := rfl
  cursor := rfl
  plain := by simp [Desk.boot, Editor.empty]

lemma held (h : Refines s t) : s.held = t.queue.length + t.editor.line.length := by
  have := congrArg List.length h.bytes
  simpa using this

lemma committed (h : Refines s t) : s.committed = t.queue := by
  rw [Input.committed_eq h.sound, h.bytes, h.unread]
  simp

lemma room (h : Refines s t) :
    s.e - s.r < INPUT_BUF ↔ t.queue.length + t.editor.line.length < 128 := by
  rw [← h.held]
  rfl

/-! #### Insertion -/

lemma insertIdx_append {α : Type} (l₁ l₂ : List α) (k : ℕ) (x : α) :
    (l₁ ++ l₂).insertIdx (l₁.length + k) x = l₁ ++ l₂.insertIdx k x := by
  induction l₁ with
  | nil => simp
  | cons y l₁ ih => simpa [Nat.succ_add] using ih

/-- Before a commit the line may hold a newline at its end. -/
lemma put_bytes (h : Refines s t) (hroom : s.e - s.r < INPUT_BUF)
    (hfit : c ≠ newline → s.a.toNat ≤ (s.e % INPUT_BUF).toNat) :
    (s.put c).contents = t.queue ++ (t.editor.put c).line := by
  rw [Input.contents_put h.sound hroom hfit, h.bytes]
  have hc := h.cursor
  have hh := h.held
  unfold Input.behind Editor.put
  split
  · rw [Nat.sub_zero, hh, insertIdx_append]
    simp
  · rw [hh, show t.queue.length + t.editor.line.length - s.a.toNat = t.queue.length + t.editor.cursor by omega,
      insertIdx_append]

lemma length_put : (t.editor.put c).line.length = t.editor.line.length + 1 := by
  unfold Editor.put
  split
  · simp
  · exact List.length_insertIdx_of_le_length t.editor.cursor_le c

lemma full_iff : s.e = s.r + INPUT_BUF ↔ s.held = 128 := by
  have hr := s.r.toNat_lt
  have he := s.e.toNat_lt
  have hn : INPUT_BUF.toNat = 128 := rfl
  rw [← UInt32.toNat_inj]
  simp only [Input.held, UInt32.toNat_sub, UInt32.toNat_add, hn]
  omega

lemma insert (h : Refines s t) (hc0 : Input.cooked c ≠ 0 ↔ c ≠ 0)
    (hfit : c ≠ 0 → s.e - s.r < INPUT_BUF → Input.cooked c ≠ newline → s.a.toNat ≤ (s.e % INPUT_BUF).toNat) :
    Refines (s.insert c) (t.insert (Input.cooked c)) := by
  unfold Input.insert Desk.insert
  by_cases hin : c ≠ 0 ∧ s.e - s.r < INPUT_BUF
  · rw [if_pos hin, if_pos ⟨hc0.2 hin.1, h.room.1 hin.2⟩]
    have hroom := Input.room hin.2
    have hb := h.put_bytes hin.2 (hfit hin.1 hin.2)
    have hs := Input.sound_put (c := Input.cooked c) h.sound hroom
    have hheld : (s.put (Input.cooked c)).held = t.queue.length + (t.editor.put (Input.cooked c)).line.length := by
      simpa using congrArg List.length hb
    have hfull : (s.put (Input.cooked c)).e = (s.put (Input.cooked c)).r + INPUT_BUF ↔
        t.queue.length + (t.editor.put (Input.cooked c)).line.length = 128 := by
      rw [full_iff, hheld]
    unfold Input.commit Desk.commit
    dsimp only
    by_cases hend : Input.cooked c = newline ∨ Input.cooked c = C 'D' ∨
        (s.put (Input.cooked c)).e = (s.put (Input.cooked c)).r + INPUT_BUF
    · have hend' := hend
      rw [hfull] at hend'
      rw [if_pos hend, if_pos hend']
      refine ⟨?_, ?_, ?_, rfl, ?_⟩
      · exact ⟨Nat.le_refl _, hs.held_le, by simp⟩
      · exact hb.trans (List.append_nil _).symm
      · show (s.put (Input.cooked c)).held = _
        rw [hheld]
        simp
      · simp [Editor.empty]
    · have hend' := hend
      rw [hfull] at hend'
      rw [if_neg hend, if_neg hend']
      have hnl : Input.cooked c ≠ newline := fun hc => hend (Or.inl hc)
      refine ⟨hs, hb, ?_, ?_, ?_⟩
      · rw [Input.unread_put, h.unread]
      · have := h.cursor
        rw [Input.put_a, length_put]
        simp only [Editor.put, if_neg hnl]
        omega
      · simp only [Editor.put, if_neg hnl, List.mem_insertIdx t.editor.cursor_le]
        rintro (hc | hc)
        · exact hnl hc.symm
        · exact h.plain hc
  · rw [if_neg hin, if_neg (by rw [hc0, ← h.room]; exact hin)]
    exact h

/-! #### The other keys -/

lemma backspace (h : Refines s t)
    (hfit : s.e ≠ s.w → 0 < s.a → s.a < s.e - s.w ∧ s.a ≤ (s.e - 1) % INPUT_BUF) :
    Refines s.backspace { t with editor := t.editor.rubout } := by
  have hcur := h.cursor
  have hh := h.held
  by_cases hne : s.e = s.w
  · -- an empty line
    have hu := (Input.e_ne_w h.sound).not.1 (by simpa using hne)
    have hun := h.unread
    have hz : t.editor.cursor = 0 := by omega
    rw [Input.backspace, if_neg (by simpa using hne)]
    refine ⟨h.sound, ?_, h.unread, ?_, ?_⟩
    · simpa only [Editor.rubout, if_pos hz] using h.bytes
    · simp only [Editor.rubout, if_pos hz]
      omega
    · simpa only [Editor.rubout, if_pos hz] using h.plain
  · have hpos := Input.cursor_pos h.sound hne fun ha => (hfit hne ha).1
    rw [h.unread, hh] at hpos
    have hz : t.editor.cursor ≠ 0 := by omega
    have hlen : (t.editor.line.eraseIdx (t.editor.cursor - 1)).length = t.editor.line.length - 1 :=
      List.length_eraseIdx_of_lt (by omega)
    refine ⟨(Input.sound_backspace_iff h.sound hne).2 fun ha => (hfit hne ha).1, ?_, ?_, ?_, ?_⟩
    · rw [Input.contents_backspace h.sound hne (hfit hne), h.bytes, hh,
        List.eraseIdx_append_of_length_le (by omega)]
      simp only [Editor.rubout, if_neg hz]
      congr 2
      omega
    · rw [Input.unread_backspace, h.unread]
    · simp only [Editor.rubout, if_neg hz]
      rw [Input.backspace_a, hlen]
      omega
    · simp only [Editor.rubout, if_neg hz]
      exact fun hm => h.plain (List.mem_of_mem_eraseIdx hm)

/-- The byte before the edit index is the last one of the line. -/
lemma last_ne_newline (h : Refines s t) (hne : s.e ≠ s.w) :
    s.buf ((s.e - 1) % INPUT_BUF).toNat ≠ newline := by
  have hu := (Input.e_ne_w h.sound).1 hne
  have hh := h.held
  have hun := h.unread
  have hlt : s.held - 1 < s.contents.length := by simp; omega
  have hget : s.contents[s.held - 1] = s.buf ((s.e - 1) % INPUT_BUF).toNat := by
    rw [Input.slot_last (by omega)]
    exact Ring.getElem_window hlt
  intro hc
  apply h.plain
  rw [← hc, ← hget]
  simp only [h.bytes]
  rw [List.getElem_append_right (by omega)]
  exact List.getElem_mem _

/-- The loop of Control-U runs down to `w`: the line holds no newline. -/
lemma killLoop (k : ℕ) (h : Refines s t) (ha : s.a = 0) (hk : (s.e - s.w).toNat = k) :
    Refines (s.killLoop k) { t with editor := .empty } := by
  induction k generalizing s t with
  | zero =>
    have hl := h.sound.line
    have hh := h.held
    have hu := h.unread
    have hle := h.sound.unread_le
    have hline : t.editor.line = [] := List.eq_nil_of_length_eq_zero (by omega)
    refine ⟨h.sound, ?_, h.unread, ?_, ?_⟩
    · show s.contents = t.queue ++ []
      simpa [hline] using h.bytes
    · show 0 + s.a.toNat = 0
      simp [ha]
    · simp [Editor.empty]
  | succ k ih =>
    have hne : s.e ≠ s.w := by
      intro he
      simp [he] at hk
    rw [Input.killLoop, if_pos ⟨hne, h.last_ne_newline hne⟩]
    have hfit : s.e ≠ s.w → 0 < s.a → s.a < s.e - s.w ∧ s.a ≤ (s.e - 1) % INPUT_BUF := by
      intro _ hp
      simp [ha] at hp
    have hb := h.backspace hfit
    have hs : s.backspace = { s with e := s.e - 1 } := by
      rw [Input.backspace, if_pos hne, if_neg (by simp [ha])]
    rw [hs] at hb
    have hlen : ((s.e - 1) - s.w).toNat = k := by
      have hw := s.w.toNat_lt
      have he := s.e.toNat_lt
      simp only [UInt32.toNat_sub, UInt32.toNat_one] at hk ⊢
      omega
    have hrest := ih hb ha hlen
    exact hrest

lemma left (h : Refines s t) (hok : s.a < s.e - s.w → s.w < s.e - s.a) :
    Refines s.left { t with editor := t.editor.left } := by
  have hcur := h.cursor
  have hh := h.held
  have hu := h.unread
  have hl := h.sound.line
  by_cases ha : s.a < s.e - s.w
  · have hlt := UInt32.lt_iff_toNat_lt.1 ha
    have hs := Input.sound_left h.sound
    rw [Input.left, if_pos (hok ha)] at hs ⊢
    have hadd : (s.a + 1).toNat = s.a.toNat + 1 := by
      have he := (s.e - s.w).toNat_lt
      simp only [UInt32.toNat_add, UInt32.toNat_one]
      omega
    refine ⟨hs, h.bytes, h.unread, ?_, h.plain⟩
    simp only [Editor.left]
    omega
  · have hge := UInt32.lt_iff_toNat_lt.not.1 ha
    have hz : t.editor.cursor = 0 := by omega
    have hstay : ¬ s.w < s.e - s.a := by
      have hle := h.sound.unread_le
      have hw := s.w.toNat_lt
      have he := s.e.toNat_lt
      rw [UInt32.lt_iff_toNat_lt]
      simp only [UInt32.toNat_sub] at hl hge ⊢
      omega
    rw [Input.left, if_neg hstay]
    refine ⟨h.sound, h.bytes, h.unread, ?_, h.plain⟩
    simp only [Editor.left]
    omega

lemma right (h : Refines s t) (hok : 0 < s.a → s.e % INPUT_BUF < INPUT_BUF - 1) :
    Refines s.right { t with editor := t.editor.right } := by
  have hcur := h.cursor
  have hs := Input.sound_right h.sound
  by_cases ha : 0 < s.a
  · have hpos := UInt32.lt_iff_toNat_lt.1 ha
    rw [Input.right, if_pos ⟨ha, hok ha⟩] at hs ⊢
    have hsub : (s.a - 1).toNat = s.a.toNat - 1 := UInt32.toNat_sub_of_le _ _ hpos
    refine ⟨hs, h.bytes, h.unread, ?_, h.plain⟩
    have : (0 : UInt32).toNat = 0 := rfl
    simp only [Editor.right]
    omega
  · have hz : s.a.toNat = 0 := by
      have := UInt32.lt_iff_toNat_lt.not.1 ha
      simpa using this
    rw [Input.right, if_neg (fun hp => ha hp.1)]
    refine ⟨h.sound, h.bytes, h.unread, ?_, h.plain⟩
    simp only [Editor.right]
    omega

lemma cooked_ne_zero : Input.cooked c ≠ 0 ↔ c ≠ 0 := by
  unfold Input.cooked
  split
  · rename_i hc
    subst hc
    decide
  · rfl

lemma key (h : Refines s t) (hok : KeyOk s c) : Refines (s.consoleintr c) (t.key c) := by
  unfold Input.consoleintr Desk.key
  split_ifs with hP hU hH hL hR
  · exact h
  · exact h.killLoop _ (hok.kill hU) rfl
  · exact h.backspace (hok.erase hH)
  · exact h.left (hok.back hL)
  · exact h.right (hok.forth hR)
  · exact h.insert cooked_ne_zero fun h0 hroom hc => hok.shift ⟨hP, hU, hH, hL, hR⟩ h0 hc hroom

end Refines

/-! ### Readers -/

/-- A stretch of `consoleread` takes off `[r, w)` what the reference takes off its queue. -/
lemma consoleread_eq_read (killed : Bool) (target n : ℕ) {s : Input} (h : s.Sound) :
    (consoleread killed target n s).taken = (Desk.read killed target n s.committed).1 ∧
    (consoleread killed target n s).status = (Desk.read killed target n s.committed).2 := by
  induction n generalizing s with
  | zero => exact ⟨rfl, rfl⟩
  | succ n ih =>
    by_cases hne : s.r = s.w
    · have hnil : s.committed = [] := by
        rw [Input.committed, Input.r_eq_w.1 hne]
        rfl
      rw [consoleread, if_pos hne, hnil]
      exact ⟨rfl, rfl⟩
    · have hq := ih (Input.sound_advance h hne)
      rw [Input.committed_advance hne]
      simp only [consoleread, if_neg hne, Desk.read]
      split_ifs
      · exact ⟨rfl, rfl⟩
      · exact ⟨rfl, rfl⟩
      · exact ⟨rfl, rfl⟩
      · exact ⟨congrArg _ hq.1, hq.2⟩

/-- The whole console refines the reference, and what was taken and what may be read is what was
committed. -/
structure Serves (d : Device) (t : Office) : Prop where
  refines : Refines d.input t.desk
  sleeper : d.sleeper = t.sleeper
  taken : d.taken = t.taken
  committed : t.desk.committed = t.taken ++ t.desk.queue

namespace Serves

variable {d : Device} {t : Office}

lemma boot : Serves .boot .boot := ⟨Refines.boot, rfl, rfl, rfl⟩

lemma key {c : UInt8} (h : Serves d t) (hok : KeyOk d.input c) :
    Serves (d.step (.byte c)) (t.step (.byte c)) := by
  refine ⟨h.refines.key hok, h.sleeper, h.taken, ?_⟩
  show (t.desk.key c).committed = t.taken ++ (t.desk.key c).queue
  unfold Desk.key Desk.insert Desk.commit
  have hc := h.committed
  split_ifs <;> simp [hc]

lemma reading (h : Serves d t) (p : ℕ) (killed : Bool) (target n : ℕ) :
    Serves (d.reading p killed target n) (t.reading p killed target n) := by
  have hr := h.refines
  have hq := consoleread_takes killed target n hr.sound
  obtain ⟨htaken, hstatus⟩ := consoleread_eq_read killed target n hr.sound
  rw [hr.committed] at htaken hstatus
  have hpre : t.desk.queue = (Desk.read killed target n t.desk.queue).1 ++
      (consoleread killed target n d.input).input.committed := by
    rw [← htaken, ← hq.committed, hr.committed]
  have hrest : (consoleread killed target n d.input).input.committed =
      t.desk.queue.drop (Desk.read killed target n t.desk.queue).1.length := by
    have := congrArg (List.drop (Desk.read killed target n t.desk.queue).1.length) hpre
    rw [List.drop_left] at this
    exact this.symm
  refine ⟨⟨hq.sound, ?_, ?_, ?_, hr.plain⟩, ?_, ?_, ?_⟩
  · have hb := hr.bytes
    rw [hq.contents, htaken, hpre, List.append_assoc] at hb
    rw [← hpre] at hb
    have := List.append_cancel_left hb
    show (consoleread killed target n d.input).input.contents = _
    rw [this, hrest]
    rfl
  · show (consoleread killed target n d.input).input.unread = (List.drop _ t.desk.queue).length
    rw [← hrest, Input.committed, Ring.length_window]
  · show _ + (consoleread killed target n d.input).input.a.toNat = _
    rw [hq.a]
    exact hr.cursor
  · show d.sleeper.settle p target _ = t.sleeper.settle p target _
    rw [h.sleeper, hstatus]
  · show d.taken ++ _ = t.taken ++ _
    rw [h.taken, htaken]
  · show t.desk.committed = (t.taken ++ _) ++ _
    rw [h.committed, List.append_assoc]
    conv_lhs => rw [hpre, hrest]
    rfl

lemma step {ev : Event} (h : Serves d t) (hok : OnKey KeyOk d ev) : Serves (d.step ev) (t.step ev) := by
  cases ev with
  | byte c => exact h.key (hok c rfl)
  | read p n killed =>
    unfold Device.step Office.step
    dsimp only
    rw [h.sleeper]
    split
    · exact h.reading p killed n n
    · exact h
  | resume p killed =>
    unfold Device.step Office.step
    dsimp only
    rw [h.sleeper]
    cases t.sleeper p with
    | none => exact h
    | some v => exact h.reading p killed v.1 v.2

end Serves

/-- In a session whose keys all meet `KeyOk` the console refines the reference editor: the bytes
that readers have taken, followed by those of `[r, w)`, are the committed lines. -/
theorem readers_take_committed {n : ℕ} (r : Session n) (hok : r.Meets (OnKey KeyOk)) :
    ∀ k, k ≤ n → Serves (r.state k) (Office.after r.label k) ∧
      (Office.after r.label k).desk.committed = (r.state k).taken ++ (r.state k).input.committed := by
  have hserves : ∀ k, k ≤ n → Serves (r.state k) (Office.after r.label k) := by
    intro k hk
    induction k with
    | zero =>
      rw [r.starts]
      exact Serves.boot
    | succ k ih =>
      have hstep := Option.some.inj (r.steps k hk)
      rw [← hstep]
      exact (ih (by omega)).step (hok k hk)
  intro k hk
  have h := hserves k hk
  refine ⟨h, ?_⟩
  rw [h.committed, h.taken, h.refines.committed]

instance (s : Input) (c : UInt8) : Decidable (KeyOk s c) :=
  decidable_of_iff (s.EditOk c ∧ (c = KEY_LF → s.a < s.e - s.w → s.w < s.e - s.a) ∧
    (c = KEY_RT → 0 < s.a → s.e % INPUT_BUF < INPUT_BUF - 1))
    ⟨fun ⟨he, hb, hf⟩ => ⟨he, hb, hf⟩, fun h => ⟨h.toEditOk, h.back, h.forth⟩⟩

theorem readers_take_committed_abc : (session abc).Meets (OnKey KeyOk) ∧
    ∀ k, k ≤ abc.length → Serves ((session abc).state k) (Office.after (session abc).label k) ∧
      (Office.after (session abc).label k).desk.committed =
        ((session abc).state k).taken ++ ((session abc).state k).input.committed :=
  have hok : (session abc).Meets (OnKey KeyOk) := by
    unfold Lts.Run.Meets
    decide
  ⟨hok, readers_take_committed (session abc) hok⟩

/-- After the backspace at the start of the second line a reader gets `xya` instead of `xy` and a
newline, which is all that was committed. -/
theorem reader_takes_uncommitted : ¬ ∀ n (r : Session n) k, k ≤ n →
    (r.state k).taken <+: (Office.after r.label k).desk.committed := by
  intro h
  have hk := h _ (session (overrun ++ [.read 1 3 false])) 9 (by decide)
  exact absurd hk (by decide)

end Console

end Os132

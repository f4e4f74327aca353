import Os132.Pipe.Machine

/-!
# What one step of a process in a pipe call does

`Move` lists the branches of `State.act` with what each finds and leaves. The contents of the pipe are
the window of the circular array between the two counters; a store appends to it and a read takes its front.
-/

namespace Os132

namespace Pipes

namespace Pipe

variable {b : Pipe} {v : UInt8}

/-- `nwrite - nread`. -/
def count (b : Pipe) : ℕ := (b.nwrite - b.nread).toNat

/-- The bytes in the pipe. -/
def contents (b : Pipe) : List UInt8 := Ring.window 512 b.data b.nread.toNat b.count

lemma full_iff : b.full = true ↔ b.count = 512 := by
  have hr := b.nread.toNat_lt
  have hw := b.nwrite.toNat_lt
  simp only [full, count, beq_iff_eq, ← UInt32.toNat_inj, UInt32.toNat_sub, UInt32.toNat_add, PIPESIZE, UInt32.reduceToNat]
  omega

lemma empty_iff : b.empty = true ↔ b.count = 0 := by
  have hr := b.nread.toNat_lt
  have hw := b.nwrite.toNat_lt
  simp only [empty, count, beq_iff_eq, ← UInt32.toNat_inj, UInt32.toNat_sub]
  omega

lemma slot (x : UInt32) : (x % PIPESIZE).toNat = x.toNat % 512 := by
  rw [UInt32.toNat_mod]
  rfl

lemma count_put (h : b.count < 512) : (b.put v).count = b.count + 1 := by
  have hr := b.nread.toNat_lt
  have hw := b.nwrite.toNat_lt
  simp only [count, put, UInt32.toNat_sub, UInt32.toNat_add, UInt32.toNat_one] at h ⊢
  omega

lemma contents_put (h : b.count < 512) : (b.put v).contents = b.contents ++ [v] := by
  have hr := b.nread.toNat_lt
  have hw := b.nwrite.toNat_lt
  have hslot : (b.nwrite % PIPESIZE).toNat = (b.nread.toNat + b.count) % 512 := by
    rw [slot]
    simp only [count, UInt32.toNat_sub]
    omega
  rw [contents, contents, count_put h]
  refine Ring.window_push ?_ fun i hi => ?_
  · simp only [put, hslot, if_true]
  · have hne : (b.nread.toNat + i) % 512 ≠ (b.nread.toNat + b.count) % 512 := Ring.slot_ne hi (by omega)
    simp only [put, hslot, if_neg hne]

lemma count_drop (h : b.count ≠ 0) : b.drop.count + 1 = b.count := by
  have hr := b.nread.toNat_lt
  have hw := b.nwrite.toNat_lt
  simp only [count, drop, UInt32.toNat_sub, UInt32.toNat_add, UInt32.toNat_one] at h ⊢
  omega

lemma contents_drop (h : b.count ≠ 0) : b.contents = b.front :: b.drop.contents := by
  have hr := b.nread.toNat_lt
  rw [contents, ← count_drop h, Ring.window_cons, front, slot]
  refine congrArg _ (Ring.window_start ?_)
  simp only [drop, UInt32.toNat_add, UInt32.toNat_one]
  omega

end Pipe

variable {P : Type} [DecidableEq P] {s s' : State P} {p q : P}

/-- The process holds `p->lock`. -/
def Pc.holds : Pc → Bool
  | .write _ .test | .write _ .tosleep | .read _ .test | .read _ .tosleep | .read _ .copy => true
  | _ => false

/-! ### What `wakeup` changes -/

section wake

variable {c : Chan} {pc : Pc} {w : Write} {r : Read} {a : At} {b : Bool}

@[simp, grind =] lemma wake_holds : (pc.wake c).holds = pc.holds := by
  cases pc with
  | write w a => cases a <;> cases c <;> rfl
  | read r a => cases a <;> cases c <;> rfl
  | _ => rfl

@[grind →] lemma wake_read (h : pc.wake c = .read r a) : ∃ a', pc = .read r a' ∧ (a' = a ∨ a' = .asleep ∧ a = .woken) := by
  cases pc with
  | read r' a' => cases a' <;> cases c <;> simp_all [Pc.wake]
  | write w a' => cases a' <;> cases c <;> simp_all [Pc.wake]
  | _ => cases h

@[grind →] lemma wake_write (h : pc.wake c = .write w a) : ∃ a', pc = .write w a' ∧ (a' = a ∨ a' = .asleep ∧ a = .woken) := by
  cases pc with
  | read r' a' => cases a' <;> cases c <;> simp_all [Pc.wake]
  | write w a' => cases a' <;> cases c <;> simp_all [Pc.wake]
  | _ => cases h

@[grind →] lemma wake_close (h : pc.wake c = .close b) : pc = .close b := by
  cases pc with
  | read r' a' => cases a' <;> cases c <;> simp_all [Pc.wake]
  | write w a' => cases a' <;> cases c <;> simp_all [Pc.wake]
  | _ => exact h

lemma wake_nread : pc.wake .nread ≠ .read r .asleep := by
  cases pc with
  | read r' a' => cases a' <;> simp [Pc.wake]
  | write w a' => cases a' <;> simp [Pc.wake]
  | _ => simp [Pc.wake]

lemma wake_nwrite : pc.wake .nwrite ≠ .write w .asleep := by
  cases pc with
  | read r' a' => cases a' <;> simp [Pc.wake]
  | write w a' => cases a' <;> simp [Pc.wake]
  | _ => simp [Pc.wake]

lemma wake_of_holds (h : pc.holds = true) : pc.wake c = pc := by
  cases pc with
  | read r' a' => cases a' <;> cases c <;> first | rfl | cases h
  | write w a' => cases a' <;> cases c <;> first | rfl | cases h
  | _ => rfl

end wake

/-- The branches of `State.act`. -/
inductive Move (s : State P) (p : P) : State P → Prop where
  | acquireWrite (w : Write) (a : At) (h : s.pc p = .write w a) (ha : a = .enter ∨ a = .woken) (hl : s.lock = none) :
    Move s p { s.goto p (.write w .test) with lock := some p }
  | quit (w : Write) (h : s.pc p = .write w .test) (hi : (w.i : ℤ) < w.n) (hf : s.pipe.full = true)
    (hq : s.pipe.readopen = false ∨ s.killed p = true) : Move s p (s.release p .idle)
  | wait (w : Write) (h : s.pc p = .write w .test) (hi : (w.i : ℤ) < w.n) (hf : s.pipe.full = true)
    (ho : s.pipe.readopen = true) (hk : s.killed p = false) : Move s p ((s.wakeup .nread).goto p (.write w .tosleep))
  | store (w : Write) (h : s.pc p = .write w .test) (hi : (w.i : ℤ) < w.n) (hf : s.pipe.full = false) :
    Move s p { s.goto p (.write { w with i := w.i + 1 } .test) with
      pipe := s.pipe.put (w.src w.i)
      stored := s.stored ++ [(p, w.src w.i)] }
  | wrote (w : Write) (h : s.pc p = .write w .test) (hi : ¬(w.i : ℤ) < w.n) : Move s p ((s.wakeup .nread).release p .idle)
  | sleepWrite (w : Write) (h : s.pc p = .write w .tosleep) : Move s p (s.release p (.write w .asleep))
  | acquireRead (r : Read) (a : At) (h : s.pc p = .read r a) (ha : a = .enter ∨ a = .woken) (hl : s.lock = none) :
    Move s p { s.goto p (.read r .test) with lock := some p }
  | killedRead (r : Read) (h : s.pc p = .read r .test) (he : s.pipe.empty = true) (ho : s.pipe.writeopen = true)
    (hk : s.killed p = true) : Move s p (s.release p .idle)
  | waitRead (r : Read) (h : s.pc p = .read r .test) (he : s.pipe.empty = true) (ho : s.pipe.writeopen = true)
    (hk : s.killed p = false) : Move s p (s.goto p (.read r .tosleep))
  | sleepRead (r : Read) (h : s.pc p = .read r .tosleep) : Move s p (s.release p (.read r .asleep))
  | toCopy (r : Read) (h : s.pc p = .read r .test) (he : s.pipe.empty = true → s.pipe.writeopen = false) :
    Move s p (s.goto p (.read r .copy))
  | take (r : Read) (h : s.pc p = .read r .copy) (hi : (r.got.length : ℤ) < r.n) (he : s.pipe.empty = false) :
    Move s p { s.goto p (.read { r with got := r.got ++ [s.pipe.front] } .copy) with pipe := s.pipe.drop }
  | done (r : Read) (h : s.pc p = .read r .copy) (hi : (r.got.length : ℤ) < r.n → s.pipe.empty = true) :
    Move s p { (s.wakeup .nwrite).release p .idle with returned := s.returned ++ r.got }
  | closeWrite (h : s.pc p = .close true) (hl : s.lock = none) :
    Move s p { (s.wakeup .nread).goto p .idle with pipe := { s.pipe with writeopen := false } }
  | closeRead (h : s.pc p = .close false) (hl : s.lock = none) :
    Move s p { (s.wakeup .nwrite).goto p .idle with pipe := { s.pipe with readopen := false } }

lemma acquire_some {pc : Pc} (h : s.acquire p pc = some s') : s.lock = none ∧ s' = { s.goto p pc with lock := some p } := by
  unfold State.acquire at h
  split_ifs at h with hl
  cases h
  exact ⟨Option.isNone_iff_eq_none.1 hl, rfl⟩

theorem move_of_act (h : s.act p = some s') : Move s p s' := by
  unfold State.act at h
  split at h
  case h_1 w hpc =>
    obtain ⟨hl, rfl⟩ := acquire_some h
    exact .acquireWrite w .enter hpc (Or.inl rfl) hl
  case h_2 w hpc =>
    obtain ⟨hl, rfl⟩ := acquire_some h
    exact .acquireWrite w .woken hpc (Or.inr rfl) hl
  case h_3 w hpc =>
    split_ifs at h with hi hf hq <;> cases h
    · exact .quit w hpc hi hf (by simpa using hq)
    · rw [Bool.or_eq_true, not_or, Bool.not_eq_true', Bool.not_eq_false, Bool.not_eq_true] at hq
      exact .wait w hpc hi hf hq.1 hq.2
    · exact .store w hpc hi (by simpa using hf)
    · exact .wrote w hpc hi
  case h_4 w hpc =>
    cases h
    exact .sleepWrite w hpc
  case h_5 r hpc =>
    obtain ⟨hl, rfl⟩ := acquire_some h
    exact .acquireRead r .enter hpc (Or.inl rfl) hl
  case h_6 r hpc =>
    obtain ⟨hl, rfl⟩ := acquire_some h
    exact .acquireRead r .woken hpc (Or.inr rfl) hl
  case h_7 r hpc =>
    split_ifs at h with he hk <;> cases h
    · rw [Bool.and_eq_true] at he
      exact .killedRead r hpc he.1 he.2 hk
    · rw [Bool.and_eq_true] at he
      exact .waitRead r hpc he.1 he.2 (by simpa using hk)
    · exact .toCopy r hpc (by simpa using he)
  case h_8 r hpc =>
    cases h
    exact .sleepRead r hpc
  case h_9 r hpc =>
    split_ifs at h with he <;> cases h
    · rw [Bool.and_eq_true, decide_eq_true_eq, Bool.not_eq_true'] at he
      exact .take r hpc he.1 he.2
    · exact .done r hpc (by simpa using he)
  case h_10 writable hpc =>
    split_ifs at h with hl hw <;> cases h
    · obtain rfl : writable = true := hw
      exact .closeWrite hpc (Option.isNone_iff_eq_none.1 hl)
    · obtain rfl : writable = false := by simpa using hw
      exact .closeRead hpc (Option.isNone_iff_eq_none.1 hl)
  case h_11 => cases h

end Pipes

end Os132

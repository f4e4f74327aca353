import Os132.Pipe.Moves

/-!
# The invariant of a pipe

`Who` says who holds the lock and the descriptors, `Flow` where the stored bytes are, `Sleepers` that whoever
sleeps has reason to or is about to be woken. The last fails if a writer that was killed gives up without its
`wakeup(&p->nread)` while a reader sleeps; `State.Abandons` is that step.
-/

namespace Os132

namespace Pipes

variable {P : Type} [DecidableEq P] {s s' : State P} {p q : P}

/-- Who holds the lock and the descriptors. A process in a call keeps its descriptor, so an end that is closed
has nobody in a call. -/
structure Who (s : State P) : Prop where
  holder : ∀ q, s.lock = some q ↔ (s.pc q).holds = true
  reads : ∀ q r a, s.pc q = .read r a → q ∈ s.rfds
  writes : ∀ q w a, s.pc q = .write w a → q ∈ s.wfds
  shutR : s.pipe.readopen = false → s.rfds = []
  shutW : s.pipe.writeopen = false → s.wfds = []
  closeR : ∀ q, s.pc q = .close false → s.rfds = []
  closeW : ∀ q, s.pc q = .close true → s.wfds = []

lemma holder_move (h : Who s) (m : Move s p s') (q : P) : s'.lock = some q ↔ (s'.pc q).holds = true := by
  have h1 := h.holder
  cases m <;> simp only [State.goto, State.release, State.wakeup] <;> grind [Pc.holds]

lemma reads_move (h : Who s) (m : Move s p s') (q : P) (r : Read) (a : At) (hq : s'.pc q = .read r a) : q ∈ s'.rfds := by
  have h2 := h.reads
  cases m <;> simp only [State.goto, State.release, State.wakeup] at hq ⊢ <;> grind

lemma writes_move (h : Who s) (m : Move s p s') (q : P) (w : Write) (a : At) (hq : s'.pc q = .write w a) : q ∈ s'.wfds := by
  have h3 := h.writes
  cases m <;> simp only [State.goto, State.release, State.wakeup] at hq ⊢ <;> grind

lemma close_move (h : Who s) (m : Move s p s') (q : P) (b : Bool) (hq : s'.pc q = .close b) :
    (if b then s'.wfds else s'.rfds) = [] := by
  have h6 := h.closeR
  have h7 := h.closeW
  cases m <;> simp only [State.goto, State.release, State.wakeup] at hq ⊢ <;> grind

lemma shut_move (h : Who s) (m : Move s p s') : (s'.pipe.readopen = false → s'.rfds = []) ∧
    (s'.pipe.writeopen = false → s'.wfds = []) := by
  have h4 := h.shutR
  have h5 := h.shutW
  cases m
  case closeWrite hc hl => exact ⟨h4, fun _ => h.closeW p hc⟩
  case closeRead hc hl => exact ⟨fun _ => h.closeR p hc, h5⟩
  all_goals exact ⟨h4, h5⟩

lemma who_move (h : Who s) (m : Move s p s') : Who s' :=
  ⟨holder_move h m, reads_move h m, writes_move h m, (shut_move h m).1, (shut_move h m).2,
    fun q => close_move h m q false, fun q => close_move h m q true⟩

/-- The bytes that the holder of the lock has copied out. -/
def Pc.got : Pc → List UInt8
  | .read r .copy => r.got
  | _ => []

def State.inHand (s : State P) : List UInt8 := (s.lock.map fun p => (s.pc p).got).getD []

/-- The bytes on their way: stored, in the pipe, in a reader's hand, returned. -/
structure Flow (s : State P) : Prop where
  bound : s.pipe.count ≤ 512
  bytes : s.stored.map Prod.snd = s.returned ++ s.inHand ++ s.pipe.contents
  got : ∀ q r a, s.pc q = .read r a → a = .copy ∨ r.got = []
  wrote : ∀ q w a, s.pc q = .write w a → ((w.i : ℤ) ≤ w.n ∨ w.i = 0) ∧ w.base ≤ (s.storedBy q).length ∧
    (s.storedBy q).drop w.base = (List.range w.i).map w.src
  eof : ∀ q r, s.pc q = .read r .copy → r.got = [] → s.pipe.empty = true → s.pipe.writeopen = false

/-- A step that stores and takes nothing. -/
lemma Flow.same (h : Flow s) (hp : s'.pipe.contents = s.pipe.contents) (hc : s'.pipe.count = s.pipe.count) (hs : s'.stored = s.stored)
    (hr : s'.returned ++ s'.inHand = s.returned ++ s.inHand)
    (hg : ∀ q r a, s'.pc q = .read r a → a = .copy ∨ r.got = [])
    (hwr : ∀ q w a, s'.pc q = .write w a → (∃ a', s.pc q = .write w a') ∨ w.i = 0 ∧ w.base = (s.storedBy q).length)
    (he : ∀ q r, s'.pc q = .read r .copy → r.got = [] → s'.pipe.empty = true → s'.pipe.writeopen = false) : Flow s' := by
  have hby (q : P) : s'.storedBy q = s.storedBy q := by rw [State.storedBy, State.storedBy, hs]
  refine ⟨hc ▸ h.bound, by rw [hs, hr, hp]; exact h.bytes, hg, fun q w a hq => ?_, he⟩
  rw [hby]
  rcases hwr q w a hq with ⟨a', hq'⟩ | ⟨hi, hb⟩
  · exact h.wrote q w a' hq'
  · exact ⟨Or.inr hi, hb.le, by simp [hi, hb]⟩

lemma got_move (h : Flow s) (m : Move s p s') (q : P) (r : Read) (a : At) (hq : s'.pc q = .read r a) :
    a = .copy ∨ r.got = [] := by
  have hg := h.got
  cases m <;> simp only [State.goto, State.release, State.wakeup] at hq <;> grind

lemma eof_move (hw : Who s) (h : Flow s) (m : Move s p s') (q : P) (r : Read) (hq : s'.pc q = .read r .copy) (hr : r.got = [])
    (he : s'.pipe.empty = true) : s'.pipe.writeopen = false := by
  have hh := hw.holder
  have hf := h.eof
  cases m
  case take r' hpc hi hemp =>
    simp only [State.goto] at hq
    split_ifs at hq with hqp
    · cases hq
      simp at hr
    · have := (hh q).2 (by rw [hq]; rfl)
      grind [Pc.holds]
  case store w hpc hi hfull =>
    simp only [State.goto] at hq
    grind [Pc.holds]
  all_goals
    simp only [State.goto, State.release, State.wakeup] at hq he ⊢ <;> grind [Pc.holds]

lemma flow_move (hw : Who s) (h : Flow s) (m : Move s p s') : Flow s' := by
  have hh := hw.holder
  have hg := h.got
  have hm := m
  cases m
  case store w hpc hi hf =>
    have hc : s.pipe.count < 512 := by
      have hb := h.bound
      have hne : s.pipe.count ≠ 512 := mt Pipe.full_iff.2 (by simp [hf])
      omega
    have hlock : s.lock = some p := (hh p).2 (by rw [hpc]; rfl)
    have hby (q : P) (s' : State P) (hs' : s'.stored = s.stored ++ [(p, w.src w.i)]) :
        s'.storedBy q = s.storedBy q ++ if p = q then [w.src w.i] else [] := by
      rw [State.storedBy, State.storedBy, hs', List.filter_append, List.map_append]
      split_ifs with hq <;> simp [hq]
    refine ⟨?_, ?_, ?_, fun q w' a hq => ?_, ?_⟩
    · exact (Pipe.count_put hc).trans_le hc
    · have hin : s.inHand = [] := by simp [State.inHand, hlock, hpc, Pc.got]
      have hb := h.bytes
      rw [hin, List.append_nil] at hb
      simp only [State.goto, State.inHand, hlock, Option.map_some, Option.getD_some, if_true, Pc.got, List.append_nil, List.map_append,
        Pipe.contents_put hc, hb, List.map_cons, List.map_nil, List.append_assoc]
    · exact got_move h hm
    · rw [hby q _ rfl]
      by_cases hqp : q = p
      · subst hqp
        simp only [State.goto, if_true, Pc.write.injEq] at hq
        obtain ⟨rfl, -⟩ := hq
        obtain ⟨-, hlen, hdrop⟩ := h.wrote q w .test hpc
        refine ⟨Or.inl (by push_cast; omega), by simp; omega, ?_⟩
        rw [if_pos rfl, List.drop_append_of_le_length hlen, hdrop, List.range_succ, List.map_append]
        rfl
      · simp only [State.goto, if_neg hqp] at hq
        rw [if_neg (Ne.symm hqp), List.append_nil]
        exact h.wrote q w' a hq
    · exact eof_move hw h hm
  case take r hpc hi hemp =>
    have hc : s.pipe.count ≠ 0 := mt Pipe.empty_iff.2 (by simp [hemp])
    have hlock : s.lock = some p := (hh p).2 (by rw [hpc]; rfl)
    have hd := Pipe.count_drop hc
    have hb := h.bound
    refine ⟨?_, ?_, ?_, fun q w' a hq => ?_, ?_⟩
    · exact Nat.le_of_succ_le (hd.trans_le hb)
    · have hin : s.inHand = r.got := by simp [State.inHand, hlock, hpc, Pc.got]
      have hb := h.bytes
      rw [hin, Pipe.contents_drop hc] at hb
      simp only [State.goto, State.inHand, hlock, Option.map_some, Option.getD_some, if_true, Pc.got, hb, List.append_assoc,
        List.cons_append, List.nil_append]
    · exact got_move h hm
    · refine h.wrote q w' a ?_
      simp only [State.goto] at hq
      grind
    · exact eof_move hw h hm
  all_goals
    refine h.same rfl rfl rfl ?_ (got_move h hm) ?_ (eof_move hw h hm) <;>
      simp only [State.goto, State.release, State.wakeup, State.inHand] <;> grind [Pc.holds, Pc.got]

/-- Who sleeps on the pipe, or is about to be woken. -/
structure Sleepers (s : State P) : Prop where
  readers : ∀ q r, s.pc q = .read r .asleep → (s.pipe.empty = true ∧ s.pipe.writeopen = true) ∨ ∃ q w, s.pc q = .write w .test
  writers : ∀ q w, s.pc q = .write w .asleep → (s.pipe.full = true ∧ s.pipe.readopen = true) ∨ ∃ q r, s.pc q = .read r .copy
  tosleep : ∀ q w, s.pc q = .write w .tosleep → s.pipe.full = true ∧ s.pipe.readopen = true
  toread : ∀ q r, s.pc q = .read r .tosleep → s.pipe.empty = true ∧ s.pipe.writeopen = true

/-- The writer gives up because it was killed, while a reader sleeps. -/
def State.Abandons (s : State P) (p : P) : Prop :=
  ∃ w, s.pc p = .write w .test ∧ (w.i : ℤ) < w.n ∧ s.pipe.full = true ∧ s.pipe.readopen = true ∧ s.killed p = true ∧
    ∃ q r, s.pc q = .read r .asleep

lemma readers_move (hw : Who s) (h : Sleepers s) (m : Move s p s') (hok : ¬ s.Abandons p) (q : P) (r : Read)
    (hq : s'.pc q = .read r .asleep) :
    (s'.pipe.empty = true ∧ s'.pipe.writeopen = true) ∨ ∃ q w, s'.pc q = .write w .test := by
  have hh := hw.holder
  have hr := h.readers
  have hto := h.toread
  have hreads := hw.reads
  have hshut := hw.shutR
  have hempty := Pipe.empty_iff (b := s.pipe)
  have hn (pc : Pc) (r : Read) : pc.wake .nread ≠ .read r .asleep := wake_nread
  have hone (q₁ q₂ : P) (h₁ : (s.pc q₁).holds = true) (h₂ : (s.pc q₂).holds = true) : q₁ = q₂ := by
    have := (hh q₁).2 h₁
    have := (hh q₂).2 h₂
    simp_all
  have hclose (b : Bool) : ({ s.pipe with readopen := b } : Pipe).empty = s.pipe.empty := rfl
  unfold State.Abandons at hok
  cases m <;> simp only [State.goto, State.release, State.wakeup] at hq ⊢ <;> grind [Pc.holds]

lemma writers_move (hw : Who s) (h : Sleepers s) (m : Move s p s') (q : P) (w : Write)
    (hq : s'.pc q = .write w .asleep) :
    (s'.pipe.full = true ∧ s'.pipe.readopen = true) ∨ ∃ q r, s'.pc q = .read r .copy := by
  have hh := hw.holder
  have hwr := h.writers
  have hto := h.tosleep
  have hfull := Pipe.full_iff (b := s.pipe)
  have hn (pc : Pc) (w : Write) : pc.wake .nwrite ≠ .write w .asleep := wake_nwrite
  have hone (q₁ q₂ : P) (h₁ : (s.pc q₁).holds = true) (h₂ : (s.pc q₂).holds = true) : q₁ = q₂ := by
    have := (hh q₁).2 h₁
    have := (hh q₂).2 h₂
    simp_all
  have hclose (b : Bool) : ({ s.pipe with writeopen := b } : Pipe).full = s.pipe.full := rfl
  cases m <;> simp only [State.goto, State.release, State.wakeup] at hq ⊢ <;> grind [Pc.holds]

lemma tosleep_move (hw : Who s) (h : Sleepers s) (m : Move s p s') (q : P) (w : Write)
    (hq : s'.pc q = .write w .tosleep) : s'.pipe.full = true ∧ s'.pipe.readopen = true := by
  have hh := hw.holder
  have hto := h.tosleep
  have hone (q₁ q₂ : P) (h₁ : (s.pc q₁).holds = true) (h₂ : (s.pc q₂).holds = true) : q₁ = q₂ := by
    have := (hh q₁).2 h₁
    have := (hh q₂).2 h₂
    simp_all
  have hclose (b : Bool) : ({ s.pipe with writeopen := b } : Pipe).full = s.pipe.full := rfl
  cases m <;> simp only [State.goto, State.release, State.wakeup] at hq ⊢ <;> grind [Pc.holds]

lemma toread_move (hw : Who s) (h : Sleepers s) (m : Move s p s') (q : P) (r : Read)
    (hq : s'.pc q = .read r .tosleep) : s'.pipe.empty = true ∧ s'.pipe.writeopen = true := by
  have hh := hw.holder
  have hto := h.toread
  have hone (q₁ q₂ : P) (h₁ : (s.pc q₁).holds = true) (h₂ : (s.pc q₂).holds = true) : q₁ = q₂ := by
    have := (hh q₁).2 h₁
    have := (hh q₂).2 h₂
    simp_all
  have hclose (b : Bool) : ({ s.pipe with readopen := b } : Pipe).empty = s.pipe.empty := rfl
  cases m <;> simp only [State.goto, State.release, State.wakeup] at hq ⊢ <;> grind [Pc.holds]

lemma sleepers_move (hw : Who s) (h : Sleepers s) (m : Move s p s') (hok : ¬ s.Abandons p) : Sleepers s' :=
  ⟨readers_move hw h m hok, writers_move hw h m, tosleep_move hw h m, toread_move hw h m⟩

/-! ### Calls, descriptors and kill -/

/-- The invariant. -/
structure Inv (s : State P) : Prop where
  who : Who s
  flow : Flow s
  sleepers : Sleepers s

omit [DecidableEq P] in
lemma idle_iff : s.Idle p = true ↔ s.pc p = .idle := by
  unfold State.Idle
  split <;> simp_all

/-- A step that leaves pipe, lock and history and moves no process into or out of the locked part. -/
lemma Inv.aside (h : Inv s) (hp : s'.pipe = s.pipe) (hl : s'.lock = s.lock) (hs : s'.stored = s.stored)
    (hr : s'.returned = s.returned) (hholds : ∀ q, (s'.pc q).holds = (s.pc q).holds ∧ ((s.pc q).holds = true → s'.pc q = s.pc q))
    (hread : ∀ q r a, s'.pc q = .read r a → q ∈ s'.rfds ∧ (r.got = [] ∨ s.pc q = .read r a) ∧ (a = .asleep → s.pc q = .read r a))
    (hwrite : ∀ q w a, s'.pc q = .write w a → q ∈ s'.wfds ∧ (a = .asleep → s.pc q = .write w a) ∧
      ((∃ a', s.pc q = .write w a') ∨ w.i = 0 ∧ w.base = (s.storedBy q).length))
    (hclose : ∀ q, (s'.pc q = .close false → s'.rfds = []) ∧ (s'.pc q = .close true → s'.wfds = []))
    (hfds : (s.rfds = [] → s'.rfds = []) ∧ (s.wfds = [] → s'.wfds = [])) : Inv s' := by
  obtain ⟨hwho, hflow, hsl⟩ := h
  refine ⟨⟨fun q => ?_, fun q r a hq => (hread q r a hq).1, fun q w a hq => (hwrite q w a hq).1, fun ho => ?_, fun ho => ?_,
    fun q => (hclose q).1, fun q => (hclose q).2⟩, ?_, ⟨fun q r hq => ?_, fun q w hq => ?_, fun q w hq => ?_,
    fun q r hq => ?_⟩⟩
  · rw [hl, (hholds q).1, hwho.holder]
  · rw [hp] at ho
    exact hfds.1 (hwho.shutR ho)
  · rw [hp] at ho
    exact hfds.2 (hwho.shutW ho)
  · have hin : s'.inHand = s.inHand := by
      unfold State.inHand
      rw [hl]
      cases hlock : s.lock with
      | none => rfl
      | some p => simp only [Option.map_some, (hholds p).2 ((hwho.holder p).1 hlock)]
    refine hflow.same (by rw [hp]) (by rw [hp]) hs (by rw [hr, hin]) (fun q r a hq => ?_) (fun q w a hq => (hwrite q w a hq).2.2)
      fun q r hq hg he => ?_
    · rcases (hread q r a hq).2.1 with hg | hq'
      · exact Or.inr hg
      · exact hflow.got q r a hq'
    · have hq' : s'.pc q = s.pc q := (hholds q).2 (by rw [← (hholds q).1, hq]; rfl)
      rw [hp] at he ⊢
      exact hflow.eof q r (hq' ▸ hq) hg he
  · rw [hp]
    refine (hsl.readers q r ((hread q r _ hq).2.2 rfl)).imp_right ?_
    rintro ⟨q', w, h'⟩
    exact ⟨q', w, ((hholds q').2 (by rw [h']; rfl)).trans h'⟩
  · rw [hp]
    refine (hsl.writers q w ((hwrite q w _ hq).2.1 rfl)).imp_right ?_
    rintro ⟨q', r, h'⟩
    exact ⟨q', r, ((hholds q').2 (by rw [h']; rfl)).trans h'⟩
  · rw [hp]
    have hq' : s'.pc q = s.pc q := (hholds q).2 (by rw [← (hholds q).1, hq]; rfl)
    exact hsl.tosleep q w (hq' ▸ hq)
  · rw [hp]
    have hq' : s'.pc q = s.pc q := (hholds q).2 (by rw [← (hholds q).1, hq]; rfl)
    exact hsl.toread q r (hq' ▸ hq)

/-- Steps that leave the pipe alone. -/
lemma inv_step {l : Label P} (h : Inv s) (hok : ∀ p, l = .act p → ¬ s.Abandons p) (hstep : step l s = some s') : Inv s' := by
  have hreads := h.who.reads
  have hwrites := h.who.writes
  have hcr := h.who.closeR
  have hcw := h.who.closeW
  have hgot := h.flow.got
  cases l with
  | act p =>
    have m := move_of_act hstep
    exact ⟨who_move h.who m, flow_move h.who h.flow m, sleepers_move h.who h.sleepers m (hok p rfl)⟩
  | write p src n =>
    simp only [step] at hstep
    split_ifs at hstep with hc
    cases hstep
    rw [idle_iff] at hc
    refine h.aside rfl rfl rfl rfl ?_ ?_ ?_ ?_ ?_ <;> simp only [State.goto] <;> grind [Pc.holds]
  | read p n =>
    simp only [step] at hstep
    split_ifs at hstep with hc
    cases hstep
    rw [idle_iff] at hc
    refine h.aside rfl rfl rfl rfl ?_ ?_ ?_ ?_ ?_ <;> simp only [State.goto] <;> grind [Pc.holds]
  | close p b =>
    have hr (q : P) (hq : q ≠ p) : q ∈ s.rfds.erase p ↔ q ∈ s.rfds := List.mem_erase_of_ne hq
    have hw (q : P) (hq : q ≠ p) : q ∈ s.wfds.erase p ↔ q ∈ s.wfds := List.mem_erase_of_ne hq
    cases b <;> simp only [step] at hstep <;> split_ifs at hstep with hc he <;> cases hstep <;> rw [idle_iff] at hc <;>
      refine h.aside rfl rfl rfl rfl ?_ ?_ ?_ ?_ ?_ <;> simp only [State.goto] <;> grind [Pc.holds]
  | share p q b =>
    cases b <;> simp only [step] at hstep <;> split_ifs at hstep with hc <;> cases hstep
    · rw [idle_iff, idle_iff] at hc
      refine h.aside rfl rfl rfl rfl ?_ ?_ ?_ ?_ ?_ <;> grind [Pc.holds]
    · rw [idle_iff, idle_iff] at hc
      refine h.aside rfl rfl rfl rfl ?_ ?_ ?_ ?_ ?_ <;> grind [Pc.holds]
  | kill p =>
    cases hstep
    have hn1 (pc : Pc) (r : Read) : (pc.wake .nread).wake .nwrite ≠ .read r .asleep := fun hpc => by
      obtain ⟨a, ha, h' | h'⟩ := wake_read hpc
      · exact wake_nread (h' ▸ ha)
      · cases h'.2
    have hn2 (pc : Pc) (w : Write) : (pc.wake .nread).wake .nwrite ≠ .write w .asleep := wake_nwrite
    have hn3 (pc : Pc) (c : Chan) (h : pc.holds = true) : pc.wake c = pc := wake_of_holds h
    refine h.aside rfl rfl rfl rfl ?_ ?_ ?_ ?_ ?_ <;> simp only [State.goto] <;> grind

lemma inv_start (h : Start s) : Inv s := by
  have hpc := h.pc
  have hcount : s.pipe.count = 0 := by simp [Pipe.count, h.nread, h.nwrite]
  refine ⟨⟨fun q => ?_, ?_, ?_, ?_, ?_, ?_, ?_⟩, ⟨by omega, ?_, ?_, ?_, ?_⟩, ⟨?_, ?_, ?_, ?_⟩⟩
  · simp [h.lock, hpc, Pc.holds]
  all_goals simp [hpc, h.readopen, h.writeopen, h.stored, h.returned, State.inHand, h.lock, Pipe.contents, hcount]

end Pipes

end Os132

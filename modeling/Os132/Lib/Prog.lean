import Os132.Lib.Run

/-!
# Programs of atomic actions

A program is a tree of labelled atomic actions on a shared state; an action returns a value on
which the rest of the program depends, or fails. One program has three meanings here. `run` executes
it alone, and `wp` is its weakest precondition, with a guard on its actions. `Obeys` says that along every path the labels follow
a discipline: an automaton whose modes change with the labels. `Interleave.step` executes many
programs on one state, an action at a time, and every thread keeps to the discipline its program
obeys.
-/

/-- A program over a state `σ` with failures `ε` and action labels `ℓ`. -/
inductive Prog (σ ε ℓ α : Type) : Type 1 where
  | ret (a : α)
  | step {β : Type} (l : ℓ) (f : σ → Except ε (β × σ)) (k : β → Prog σ ε ℓ α)

namespace Prog

variable {σ ε ℓ μ α β : Type}

def bind : Prog σ ε ℓ α → (α → Prog σ ε ℓ β) → Prog σ ε ℓ β
  | ret a, g => g a
  | step l f k, g => step l f fun b => bind (k b) g

instance : Monad (Prog σ ε ℓ) where
  pure := ret
  bind := bind

/-- A single action. -/
def act (l : ℓ) (f : σ → Except ε (β × σ)) : Prog σ ε ℓ β := step l f ret

/-- The program executed alone. -/
def run : Prog σ ε ℓ α → σ → Except ε (α × σ)
  | ret a, s => .ok (a, s)
  | step _ f k, s =>
    match f s with
    | .ok (b, s') => run (k b) s'
    | .error e => .error e

/-! ### Weakest preconditions -/

/-- What may be assumed of the state at an action with a label, and what the action has to do. -/
structure Guard (σ ℓ : Type) where
  may : ℓ → σ → Prop
  does : ℓ → σ → σ → Prop

/-- Executed alone from `s`, the program does what it has to as long as the assumptions are met, and
returns with `post` or fails with `stop`. -/
def wp (d : Guard σ ℓ) : Prog σ ε ℓ α → σ → (α → σ → Prop) → (ε → Prop) → Prop
  | ret a, s, post, _ => post a s
  | step l f k, s, post, stop => d.may l s →
    match f s with
    | .ok (b, s') => d.does l s s' ∧ wp d (k b) s' post stop
    | .error e => stop e

/-- The assumptions are met at every action of the program executed alone. -/
def Meets (d : Guard σ ℓ) : Prog σ ε ℓ α → σ → Prop
  | ret _, _ => True
  | step l f k, s => d.may l s ∧
    match f s with
    | .ok (b, s') => Meets d (k b) s'
    | .error _ => True

/-- A test of the state at every action of the program executed alone. -/
def checks (ok : ℓ → σ → Bool) : Prog σ ε ℓ α → σ → Bool
  | ret _, _ => true
  | step l f k, s => ok l s &&
    match f s with
    | .ok (b, s') => checks ok (k b) s'
    | .error _ => true

lemma Meets.of_checks {d : Guard σ ℓ} {ok : ℓ → σ → Bool} (hok : ∀ l s, ok l s = true → d.may l s) {p : Prog σ ε ℓ α} {s : σ}
    (h : checks ok p s = true) : Meets d p s := by
  induction p generalizing s with
  | ret a => trivial
  | step l f k ih =>
    simp only [checks, Bool.and_eq_true, Meets] at h ⊢
    refine ⟨hok l s h.1, ?_⟩
    cases hf : f s with
    | error e => trivial
    | ok v =>
      rw [hf] at h
      exact ih v.1 h.2

/-- Every action of the program executed alone does what it has to. -/
def Does (d : Guard σ ℓ) : Prog σ ε ℓ α → σ → Prop
  | ret _, _ => True
  | step l f k, s =>
    match f s with
    | .ok (b, s') => d.does l s s' ∧ Does d (k b) s'
    | .error _ => True

/-- Whether an action of the program executed alone passes a test of the states before and after it. -/
def anywhere (t : σ → σ → Bool) : Prog σ ε ℓ α → σ → Bool
  | ret _, _ => false
  | step _ f k, s =>
    match f s with
    | .ok (b, s') => t s s' || anywhere t (k b) s'
    | .error _ => false

lemma Does.not_anywhere {d : Guard σ ℓ} {t : σ → σ → Bool} (ht : ∀ l s s', d.does l s s' → t s s' = false) {p : Prog σ ε ℓ α} {s : σ}
    (h : Does d p s) : anywhere t p s = false := by
  induction p generalizing s with
  | ret a => rfl
  | step l f k ih =>
    simp only [Does, anywhere] at h ⊢
    cases hf : f s with
    | error e => rfl
    | ok v =>
      rw [hf] at h
      simp only [Bool.or_eq_false_iff]
      exact ⟨ht l s v.2 h.1, ih v.1 h.2⟩

section wp

variable {d : Guard σ ℓ} {p : Prog σ ε ℓ α} {s : σ} {post post' : α → σ → Prop} {stop stop' : ε → Prop}

lemma wp.mono (h : wp d p s post stop) (hp : ∀ a s', post a s' → post' a s') (hs : ∀ e, stop e → stop' e) :
    wp d p s post' stop' := by
  induction p generalizing s with
  | ret a => exact hp a s h
  | step l f k ih =>
    simp only [wp] at h ⊢
    intro hm
    have h := h hm
    cases hf : f s with
    | error e =>
      rw [hf] at h
      exact hs e h
    | ok v =>
      rw [hf] at h
      exact ⟨h.1, ih v.1 h.2⟩

lemma wp.imp (h : wp d p s post stop) (hp : ∀ a s', post a s' → post' a s') : wp d p s post' stop :=
  h.mono hp fun _ he => he

lemma wp_pure {a : α} (h : post a s) : wp d (pure a : Prog σ ε ℓ α) s post stop := h

lemma wp_bind {g : α → Prog σ ε ℓ β} {post : β → σ → Prop}
    (h : wp d p s (fun a s' => wp d (g a) s' post stop) stop) : wp d (p >>= g) s post stop := by
  show wp d (bind p g) s post stop
  induction p generalizing s with
  | ret a => exact h
  | step l f k ih =>
    simp only [wp, bind] at h ⊢
    intro hm
    have h := h hm
    cases hf : f s with
    | error e =>
      rw [hf] at h
      exact h
    | ok v =>
      rw [hf] at h
      exact ⟨h.1, ih v.1 h.2⟩

lemma wp_act {l : ℓ} {f : σ → Except ε (β × σ)} {post : β → σ → Prop}
    (hok : d.may l s → ∀ b s', f s = .ok (b, s') → d.does l s s' ∧ post b s')
    (herr : d.may l s → ∀ e, f s = .error e → stop e) : wp d (act l f) s post stop := by
  simp only [act, wp]
  intro hm
  cases hf : f s with
  | error e => exact herr hm e hf
  | ok v => exact hok hm v.1 v.2 hf

/-- What `wp` says of an execution that meets the assumptions. -/
theorem wp.run (h : wp d p s post stop) (hm : Meets d p s) :
    Does d p s ∧ (∀ a s', p.run s = .ok (a, s') → post a s') ∧ ∀ e, p.run s = .error e → stop e := by
  induction p generalizing s with
  | ret a =>
    refine ⟨trivial, fun a' s' ha => ?_, fun e he => (by cases he)⟩
    cases ha
    exact h
  | step l f k ih =>
    simp only [wp, Prog.run, Meets, Does] at h hm ⊢
    have h := h hm.1
    cases hf : f s with
    | error e =>
      rw [hf] at h
      refine ⟨trivial, fun _ _ ha => (by cases ha), fun e' he => ?_⟩
      cases he
      exact h
    | ok v =>
      rw [hf] at h hm
      obtain ⟨h1, h2⟩ := ih v.1 h.2 hm.2
      exact ⟨⟨h.1, h1⟩, h2⟩

end wp

/-! ### Disciplines -/

/-- A discipline: which labels a mode admits, what an action with a label does to the state, what
may be assumed of the state when it is taken, and the mode after it. -/
structure Discipline (σ ℓ μ : Type) where
  ok : μ → ℓ → Prop
  does : ℓ → σ → σ → Prop
  may : μ → ℓ → σ → Prop
  next : ℓ → μ → μ

variable {p : Prog σ ε ℓ α} {d : Discipline σ ℓ μ} {m : μ} {post post' : α → μ → Prop}

/-- From mode `m` the program keeps to the discipline, whatever other threads do to the state
between its actions, and returns in a mode with `post`. -/
def Obeys (d : Discipline σ ℓ μ) : Prog σ ε ℓ α → μ → (α → μ → Prop) → Prop
  | ret a, m, post => post a m
  | step l f k, m, post =>
    d.ok m l ∧ ∀ s b s', f s = .ok (b, s') →
      d.does l s s' ∧ (d.may m l s → Obeys d (k b) (d.next l m) post)

lemma Obeys.mono (h : Obeys d p m post) (hp : ∀ a m', post a m' → post' a m') : Obeys d p m post' := by
  induction p generalizing m with
  | ret a => exact hp a m h
  | step l f k ih => exact ⟨h.1, fun s b s' hf => ⟨(h.2 s b s' hf).1, fun hm => ih b ((h.2 s b s' hf).2 hm)⟩⟩

lemma obeys_pure {a : α} (h : post a m) : Obeys d (pure a : Prog σ ε ℓ α) m post := h

lemma obeys_bind {g : α → Prog σ ε ℓ β} {post : β → μ → Prop}
    (h : Obeys d p m fun a m' => Obeys d (g a) m' post) : Obeys d (p >>= g) m post := by
  show Obeys d (bind p g) m post
  induction p generalizing m with
  | ret a => exact h
  | step l f k ih => exact ⟨h.1, fun s b s' hf => ⟨(h.2 s b s' hf).1, fun hm => ih b ((h.2 s b s' hf).2 hm)⟩⟩

lemma obeys_act {l : ℓ} {f : σ → Except ε (β × σ)} {post : β → μ → Prop} (hok : d.ok m l)
    (hdoes : ∀ s b s', f s = .ok (b, s') → d.does l s s')
    (h : ∀ s b s', d.may m l s → f s = .ok (b, s') → post b (d.next l m)) : Obeys d (act l f) m post :=
  ⟨hok, fun s b s' hf => ⟨hdoes s b s' hf, fun hm => h s b s' hm hf⟩⟩

/-- The label of the next action. -/
def head : Prog σ ε ℓ α → Option ℓ
  | ret _ => none
  | step l _ _ => some l

end Prog

/-! ### Interleavings -/

namespace Interleave

open Prog

variable {σ ε ℓ μ κ : Type}

/-- A shared state and the rest of each thread's program. -/
structure World (σ ε ℓ : Type) : Type 1 where
  shared : σ
  thread : ℕ → Prog σ ε ℓ Unit

inductive Event (κ : Type) where
  /-- idle thread `p` begins the call `c` -/
  | call (p : ℕ) (c : κ)
  /-- thread `p` takes its next action -/
  | go (p : ℕ)

/-- An action that fails blocks its thread. -/
def step (program : ℕ → κ → Prog σ ε ℓ Unit) (ev : Event κ) (w : World σ ε ℓ) : Option (World σ ε ℓ) :=
  match ev with
  | .call p c =>
    match w.thread p with
    | .ret _ => some { w with thread := fun q => if q = p then program p c else w.thread q }
    | .step .. => none
  | .go p =>
    match w.thread p with
    | .ret _ => none
    | .step _ f k =>
      match f w.shared with
      | .ok (b, s') => some ⟨s', fun q => if q = p then k b else w.thread q⟩
      | .error _ => none

/-- The thread and the label of the action that the event takes. -/
def action (w : World σ ε ℓ) : Event κ → Option (ℕ × ℓ)
  | .call .. => none
  | .go p => (w.thread p).head.map (p, ·)

variable {d : Discipline σ ℓ μ} {enter : κ → μ} {rest : μ → Prop}

/-- The modes after an event; `enter` is the mode in which a call begins. -/
def advance (d : Discipline σ ℓ μ) (enter : κ → μ) (w : World σ ε ℓ) (ev : Event κ) (mode : ℕ → μ) : ℕ → μ :=
  match ev with
  | .call p c => fun q => if q = p then enter c else mode q
  | .go _ =>
    match action w ev with
    | some (p, l) => fun q => if q = p then d.next l (mode q) else mode q
    | none => mode

/-- The action that the event takes meets what the discipline assumes of it. -/
def Assumes (d : Discipline σ ℓ μ) (mode : ℕ → μ) (w : World σ ε ℓ) (ev : Event κ) : Prop :=
  ∀ p l, action w ev = some (p, l) → d.may (mode p) l w.shared

/-- Every thread obeys the discipline from its mode on and ends in a mode with `rest`. -/
def Disciplined (d : Discipline σ ℓ μ) (rest : μ → Prop) (mode : ℕ → μ) (w : World σ ε ℓ) : Prop :=
  ∀ p, Obeys d (w.thread p) (mode p) fun _ m => rest m

/-- If every call obeys the discipline, then so does every thread after each step. -/
lemma Disciplined.step {program : ℕ → κ → Prog σ ε ℓ Unit} {mode : ℕ → μ} {w w' : World σ ε ℓ} {ev : Event κ}
    (hprog : ∀ p c, Obeys d (program p c) (enter c) fun _ m => rest m) (h : Disciplined d rest mode w)
    (hev : Assumes d mode w ev) (hs : Interleave.step program ev w = some w') :
    Disciplined d rest (advance d enter w ev mode) w' := by
  intro q
  cases ev with
  | call p c =>
    simp only [Interleave.step] at hs
    cases hp : w.thread p with
    | step l f k =>
      rw [hp] at hs
      cases hs
    | ret u =>
      rw [hp] at hs
      cases hs
      show Obeys d (if q = p then program p c else w.thread q) (if q = p then enter c else mode q) _
      split
      · exact hprog p c
      · exact h q
  | go p =>
    simp only [Interleave.step] at hs
    cases hp : w.thread p with
    | ret u =>
      rw [hp] at hs
      cases hs
    | step l f k =>
      rw [hp] at hs
      have hact : action w (Event.go p : Event κ) = some (p, l) := by simp [action, hp, head]
      cases hf : f w.shared with
      | error e =>
        simp only [hf] at hs
        cases hs
      | ok v =>
        simp only [hf] at hs
        cases hs
        have hobey := h p
        rw [hp] at hobey
        have hnext := (hobey.2 w.shared v.1 v.2 hf).2 (hev p l hact)
        simp only [advance, hact]
        split
        · rw [‹q = p›]
          exact hnext
        · exact h q

/-- An action does to the shared state what the discipline says of its label. -/
lemma Disciplined.does {program : ℕ → κ → Prog σ ε ℓ Unit} {mode : ℕ → μ} {w w' : World σ ε ℓ} {ev : Event κ}
    (h : Disciplined d rest mode w) (hs : Interleave.step program ev w = some w') :
    match action w ev with
    | some (p, l) => d.ok (mode p) l ∧ d.does l w.shared w'.shared
    | none => w'.shared = w.shared := by
  cases ev with
  | call p c =>
    simp only [Interleave.step] at hs
    cases hp : w.thread p with
    | step l f k =>
      rw [hp] at hs
      cases hs
    | ret u =>
      rw [hp] at hs
      cases hs
      rfl
  | go p =>
    simp only [Interleave.step] at hs
    cases hp : w.thread p with
    | ret u =>
      rw [hp] at hs
      cases hs
    | step l f k =>
      rw [hp] at hs
      have hact : action w (Event.go p : Event κ) = some (p, l) := by simp [action, hp, head]
      cases hf : f w.shared with
      | error e =>
        simp only [hf] at hs
        cases hs
      | ok v =>
        simp only [hf] at hs
        cases hs
        have hobey := h p
        rw [hp] at hobey
        rw [hact]
        exact ⟨hobey.1, (hobey.2 w.shared v.1 v.2 hf).1⟩

/-- A thread that obeys the discipline is about to take an action that its mode admits. -/
lemma Disciplined.ok {mode : ℕ → μ} {w : World σ ε ℓ} (h : Disciplined d rest mode w) {p : ℕ} {l : ℓ}
    (hl : (w.thread p).head = some l) : d.ok (mode p) l := by
  have := h p
  cases hp : w.thread p with
  | ret u =>
    rw [hp] at hl
    cases hl
  | step l' f k =>
    rw [hp] at hl this
    cases hl
    exact this.1

end Interleave

import Mathlib.Tactic.Common
import Mathlib.Order.Interval.Finset.Nat

/-!
# Runs of a labelled transition system

A partial step function `step : ℓ → σ → Option σ` and a set of initial states generate the
runs of a system. An invariant is proved once for the initial states and once for a step;
`Run.invariant` carries it to every state of every run, `Run.preserved` carries a fact that
begins to hold in the middle of a run to the rest of it. `Run.count` counts the steps of a
kind between two times.
-/

namespace Lts

universe u v

variable {σ : Type u} {ℓ : Type v} {init : σ → Prop} {step : ℓ → σ → Option σ} {n : ℕ}

/-- The first `n` steps of an execution; what `state` and `label` say later is irrelevant. -/
structure Run (init : σ → Prop) (step : ℓ → σ → Option σ) (n : ℕ) where
  state : ℕ → σ
  label : ℕ → ℓ
  starts : init (state 0)
  steps : ∀ k, k < n → step (label k) (state k) = some (state (k + 1))

namespace Run

/-- Every step of the run is taken in a state and with a label that `ok` admits. -/
def Meets (r : Run init step n) (ok : σ → ℓ → Prop) : Prop :=
  ∀ k, k < n → ok (r.state k) (r.label k)

theorem invariant_of (r : Run init step n) {ok : σ → ℓ → Prop} (hok : r.Meets ok) {P : σ → Prop}
    (h0 : ∀ s, init s → P s)
    (hs : ∀ s l s', P s → ok s l → step l s = some s' → P s') : ∀ k, k ≤ n → P (r.state k) := by
  intro k hk
  induction k with
  | zero => exact h0 _ r.starts
  | succ k ih => exact hs _ _ _ (ih (by omega)) (hok k (by omega)) (r.steps k (by omega))

theorem invariant (r : Run init step n) {P : σ → Prop} (h0 : ∀ s, init s → P s)
    (hs : ∀ s l s', P s → step l s = some s' → P s') : ∀ k, k ≤ n → P (r.state k) :=
  have hok : r.Meets fun _ _ => True := fun _ _ => trivial
  r.invariant_of hok h0 (fun s l s' h _ => hs s l s' h)

/-- A fact that holds at time `a` and survives each step up to `b` holds from `a` to `b`. -/
theorem preserved (r : Run init step n) {P : ℕ → σ → Prop} {a b : ℕ} (hb : b ≤ n)
    (ha : P a (r.state a))
    (hs : ∀ k, a ≤ k → k < b → P k (r.state k) →
      step (r.label k) (r.state k) = some (r.state (k + 1)) → P (k + 1) (r.state (k + 1))) :
    ∀ k, a ≤ k → k ≤ b → P k (r.state k) := by
  intro k hak
  induction k, hak using Nat.le_induction with
  | base => exact fun _ => ha
  | succ k hak ih => exact fun hk => hs k hak (by omega) (ih (by omega)) (r.steps k (by omega))

/-- The number of times in `[a, b)` at which `Q` holds. -/
def count (Q : ℕ → Prop) [DecidablePred Q] (a b : ℕ) : ℕ :=
  ((Finset.Ico a b).filter Q).card

variable {Q Q' : ℕ → Prop} [DecidablePred Q] [DecidablePred Q']

@[simp] lemma count_self (a : ℕ) : count Q a a = 0 := by
  simp [count]

lemma count_succ {a b : ℕ} (h : a ≤ b) :
    count Q a (b + 1) = count Q a b + if Q b then 1 else 0 := by
  unfold count
  rw [Nat.Ico_succ_right_eq_insert_Ico h, Finset.filter_insert]
  split_ifs with hq
  · rw [Finset.card_insert_of_notMem (by simp)]
  · rfl

end Run

/-- Executes a list of labels. -/
def exec (step : ℓ → σ → Option σ) : List ℓ → σ → Option σ
  | [], s => some s
  | l :: ls, s => (step l s).bind (exec step ls)

/-- Executes a list of labels from time `k` on, testing every step with `q` and the end with `p`. -/
def check (step : ℓ → σ → Option σ) (q : ℕ → σ → ℓ → Bool) (p : σ → Bool) : ℕ → List ℓ → σ → Bool
  | _, [], s => p s
  | k, l :: ls, s => q k s l &&
    match step l s with
    | some s' => check step q p (k + 1) ls s'
    | none => false

/-- An execution that passes its tests is a run. -/
theorem exists_run_of_check [Inhabited ℓ] (step : ℓ → σ → Option σ) (ls : List ℓ)
    (q : ℕ → σ → ℓ → Bool) (p : σ → Bool) {s₀ : σ} (h₀ : init s₀) (h : check step q p 0 ls s₀ = true) : ∃ r : Run init step ls.length,
      (∀ k, k < ls.length → q k (r.state k) (r.label k) = true) ∧ p (r.state ls.length) = true := by
  have path : ∀ (ls : List ℓ) (k : ℕ) (s : σ), check step q p k ls s = true →
      ∃ (state : ℕ → σ) (label : ℕ → ℓ), state 0 = s ∧
        (∀ j, j < ls.length → step (label j) (state j) = some (state (j + 1)) ∧
          q (k + j) (state j) (label j) = true) ∧ p (state ls.length) = true := by
    intro ls
    induction ls with
    | nil => exact fun k s hs => ⟨fun _ => s, fun _ => default, rfl, by simp, hs⟩
    | cons l ls ih =>
      intro k s hs
      simp only [check, Bool.and_eq_true] at hs
      obtain ⟨hq, hs⟩ := hs
      cases hstep : step l s with
      | none => simp [hstep] at hs
      | some s' =>
        rw [hstep] at hs
        obtain ⟨state, label, h0, hj, hp⟩ := ih (k + 1) s' hs
        refine ⟨fun j => j.casesOn s state, fun j => j.casesOn l label, rfl, fun j hlt => ?_, hp⟩
        cases j with
        | zero => exact ⟨by simpa [h0] using hstep, hq⟩
        | succ j =>
          have := hj j (by simpa using hlt)
          exact ⟨this.1, by rw [← this.2]; congr 1; omega⟩
  obtain ⟨state, label, h0, hj, hp⟩ := path ls 0 s₀ h
  exact ⟨⟨state, label, h0 ▸ h₀, fun k hk => (hj k hk).1⟩, fun k hk => by simpa using (hj k hk).2, hp⟩

end Lts

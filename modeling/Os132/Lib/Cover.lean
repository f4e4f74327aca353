import Mathlib.Data.List.Count
import Mathlib.Data.List.Perm.Basic
import Mathlib.Tactic.Common

/-!
# Covering by intervals

A list of intervals, each a start and a length, covers a point a number of times. Intervals that
cover every point at most once are pairwise separate, and cutting an interval in two or joining
two that meet leaves the cover as it was.
-/

namespace Cover

def Covers (c : ℕ × ℕ) (x : ℕ) : Prop := c.1 ≤ x ∧ x < c.1 + c.2

instance (c : ℕ × ℕ) (x : ℕ) : Decidable (Covers c x) :=
  inferInstanceAs (Decidable (c.1 ≤ x ∧ x < c.1 + c.2))

/-- How many intervals of the list cover a point. -/
def cover (l : List (ℕ × ℕ)) (x : ℕ) : ℕ := l.countP fun c => Covers c x

/-- One of the two ends before the other begins. -/
def Separate (a b : ℕ × ℕ) : Prop := a.1 + a.2 ≤ b.1 ∨ b.1 + b.2 ≤ a.1

variable {l l' : List (ℕ × ℕ)} {a b : ℕ × ℕ} {x : ℕ}

@[simp] lemma cover_nil : cover [] x = 0 := rfl

lemma cover_cons : cover (a :: l) x = cover l x + if Covers a x then 1 else 0 := by
  simp [cover, List.countP_cons]

@[simp] lemma cover_append : cover (l ++ l') x = cover l x + cover l' x :=
  List.countP_append

lemma cover_perm (h : l.Perm l') (x : ℕ) : cover l x = cover l' x :=
  h.countP_eq _

lemma cover_pos_iff : 0 < cover l x ↔ ∃ c ∈ l, Covers c x := by
  simp [cover, List.countP_pos_iff]

lemma cover_empty (h : a.2 = 0) : cover (a :: l) x = cover l x := by
  rw [cover_cons, if_neg (by simp [Covers]; omega)]
  omega

lemma cover_cut (s m n : ℕ) : cover ((s, m + n) :: l) x = cover ((s, m) :: (s + m, n) :: l) x := by
  simp only [cover_cons]
  by_cases h1 : Covers (s, m) x
  · have h2 : ¬Covers (s + m, n) x := fun h => by simp only [Covers] at h h1; omega
    rw [if_pos h1, if_neg h2, if_pos (by simp only [Covers] at h1 ⊢; omega)]
  · by_cases h2 : Covers (s + m, n) x
    · rw [if_neg h1, if_pos h2, if_pos (by simp only [Covers] at h2 ⊢; omega)]
    · rw [if_neg h1, if_neg h2, if_neg (by simp only [Covers] at h1 h2 ⊢; omega)]

lemma separate_of_cover (h : ∀ x, cover l x + cover l' x ≤ 1) (ha : a ∈ l) (hb : b ∈ l')
    (hpa : 0 < a.2) (hpb : 0 < b.2) : Separate a b := by
  by_contra hn
  simp only [Separate, not_or, Nat.not_le] at hn
  have h1 : 0 < cover l (max a.1 b.1) := cover_pos_iff.2 ⟨a, ha, by simp only [Covers]; omega⟩
  have h2 : 0 < cover l' (max a.1 b.1) := cover_pos_iff.2 ⟨b, hb, by simp only [Covers]; omega⟩
  have := h (max a.1 b.1)
  omega

theorem pairwise_of_cover (h : ∀ x, cover l x ≤ 1) (hp : ∀ c ∈ l, 0 < c.2) : l.Pairwise Separate := by
  induction l with
  | nil => exact .nil
  | cons a l ih =>
    have hsum : ∀ x, cover [a] x + cover l x ≤ 1 := by
      intro x
      have := h x
      rw [← List.singleton_append, cover_append] at this
      exact this
    apply List.Pairwise.cons
    · intro b hb
      apply separate_of_cover hsum (by simp) hb (hp a (by simp)) (hp b (by simp [hb]))
    · apply ih
      · intro x
        have := hsum x
        omega
      · intro c hc
        exact hp c (by simp [hc])

end Cover

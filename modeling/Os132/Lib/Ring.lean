import Mathlib.Tactic.Common
import Mathlib.Data.List.InsertIdx

/-!
# The contents of a circular array

An array of `cap` cells is a function of the cell's number. `window cap f x n` is the list of the
`n` entries from position `x` on, where positions are taken modulo `cap`. Each change of a queue
that lives in the array is a change of this list.
-/

namespace Ring

variable {α : Type} {cap x n : ℕ} {f f' : ℕ → α}

/-- The `n` entries of a circular array of `cap` cells from position `x` on. -/
def window (cap : ℕ) (f : ℕ → α) (x n : ℕ) : List α :=
  (List.range n).map fun i => f ((x + i) % cap)

@[simp] lemma length_window : (window cap f x n).length = n := by
  simp [window]

@[simp] lemma getElem_window {i : ℕ} (hi : i < (window cap f x n).length) :
    (window cap f x n)[i] = f ((x + i) % cap) := by
  simp [window]

@[simp] lemma window_zero : window cap f x 0 = [] := rfl

lemma slot_ne {i j : ℕ} (hij : i < j) (hj : j < i + cap) : (x + i) % cap ≠ (x + j) % cap := by
  intro h
  have hd : cap ∣ (x + j) - (x + i) := Nat.dvd_of_mod_eq_zero (Nat.sub_mod_eq_zero_of_mod_eq h.symm)
  have := Nat.le_of_dvd (by omega) hd
  omega

lemma window_congr (h : ∀ i, i < n → f' ((x + i) % cap) = f ((x + i) % cap)) :
    window cap f' x n = window cap f x n := by
  ext i
  simp only [window, List.getElem?_map]
  by_cases hi : i < n
  · simp [hi, h i hi]
  · simp [hi]

lemma window_start {y : ℕ} (h : x % cap = y % cap) : window cap f x n = window cap f y n := by
  unfold window
  apply List.map_congr_left
  intro i hi
  rw [Nat.add_mod, h, ← Nat.add_mod]

lemma window_succ : window cap f x (n + 1) = window cap f x n ++ [f ((x + n) % cap)] := by
  simp [window, List.range_succ]

lemma window_cons : window cap f x (n + 1) = f (x % cap) :: window cap f (x + 1) n := by
  simp only [window, List.range_succ_eq_map, List.map_cons, List.map_map, Nat.add_zero]
  congr 1
  apply List.map_congr_left
  intro i hi
  simp only [Function.comp, Nat.succ_eq_add_one]
  congr 2
  omega

lemma take_window {k : ℕ} (hk : k ≤ n) : (window cap f x n).take k = window cap f x k := by
  apply List.ext_getElem
  · simp [hk]
  · intro i hi hi'
    simp

lemma window_push {c : α} (hc : f' ((x + n) % cap) = c)
    (h : ∀ i, i < n → f' ((x + i) % cap) = f ((x + i) % cap)) :
    window cap f' x (n + 1) = window cap f x n ++ [c] := by
  rw [window_succ, hc, window_congr h]

/-- Moving the cells from `k` on one place back and writing cell `k` inserts at `k`. -/
lemma window_insert {k : ℕ} {c : α} (hk : k ≤ n) (hlo : ∀ i, i < k → f' ((x + i) % cap) = f ((x + i) % cap))
    (hc : f' ((x + k) % cap) = c)
    (hhi : ∀ i, k < i → i ≤ n → f' ((x + i) % cap) = f ((x + (i - 1)) % cap)) :
    window cap f' x (n + 1) = (window cap f x n).insertIdx k c := by
  apply List.ext_getElem
  · rw [List.length_insertIdx_of_le_length (by simpa using hk)]
    simp
  · intro i hi hi'
    rw [List.getElem_insertIdx]
    simp only [length_window] at hi
    split
    · simp [hlo i ‹_›]
    · split
      · simp [‹i = k›, hc]
      · simp [hhi i (by omega) (by omega)]

/-- Moving the cells behind `k` one place forward erases cell `k`. -/
lemma window_erase {k : ℕ} (hk : k ≤ n) (hlo : ∀ i, i < k → f' ((x + i) % cap) = f ((x + i) % cap))
    (hhi : ∀ i, k ≤ i → i < n → f' ((x + i) % cap) = f ((x + (i + 1)) % cap)) :
    window cap f' x n = (window cap f x (n + 1)).eraseIdx k := by
  apply List.ext_getElem
  · rw [List.length_eraseIdx_of_lt (by simp; omega)]
    simp
  · intro i hi hi'
    rw [List.getElem_eraseIdx]
    simp only [length_window] at hi
    split
    · simp [hlo i ‹_›]
    · simp [hhi i (by omega) hi]

end Ring

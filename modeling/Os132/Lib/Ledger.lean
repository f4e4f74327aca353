import Mathlib.Tactic.Common
import Mathlib.Algebra.BigOperators.Group.Finset.Basic
import Mathlib.Data.Fintype.BigOperators
import Mathlib.Algebra.Order.BigOperators.Group.Finset

/-!
# Ledgers

A counter for every key, and holders of two kinds, each with a list of keys: the counter says how often the key
is held, up to what has been settled for good. A step that changes one holder of each kind keeps the ledger if it changes the counter to match.
-/

variable {K ι κ : Type} [DecidableEq K] [Fintype ι] [Fintype κ]

/-- Key `k` has been entered `total k` times, settled `paid k` times and is held for the rest. -/
structure Ledger (total paid : K → ℕ) (a : ι → List K) (b : κ → List K) : Prop where
  eq : ∀ k, total k = paid k + ∑ i, (a i).count k + ∑ j, (b j).count k

namespace Ledger

variable {total total' paid paid' : K → ℕ} {a a' : ι → List K} {b b' : κ → List K}

lemma sum_change {α : Type} [Fintype α] {g e : α → ℕ} (x : α) (h : ∀ y, y ≠ x → e y = g y) :
    ∑ y, e y + g x = ∑ y, g y + e x := by
  classical
  have h1 := Finset.add_sum_erase Finset.univ e (Finset.mem_univ x)
  have h2 := Finset.add_sum_erase Finset.univ g (Finset.mem_univ x)
  have h3 : ∑ y ∈ Finset.univ.erase x, e y = ∑ y ∈ Finset.univ.erase x, g y :=
    Finset.sum_congr rfl fun y hy => h y (Finset.ne_of_mem_erase hy)
  omega

/-- One holder of each kind changes, and the counters with them. -/
theorem move (h : Ledger total paid a b) (i : ι) (j : κ) (ha : ∀ x, x ≠ i → a' x = a x) (hb : ∀ x, x ≠ j → b' x = b x)
    (hk : ∀ k, total' k + paid k + (a i).count k + (b j).count k = total k + paid' k + (a' i).count k + (b' j).count k) :
    Ledger total' paid' a' b' := by
  refine ⟨fun k => ?_⟩
  have h1 := h.eq k
  have h2 := hk k
  have h3 := sum_change (g := fun x => (a x).count k) (e := fun x => (a' x).count k) i fun x hx => by
    simp only [ha x hx]
  have h4 := sum_change (g := fun x => (b x).count k) (e := fun x => (b' x).count k) j fun x hx => by
    simp only [hb x hx]
  omega

/-- The same, where holders of the second kind stay as they are. -/
theorem move_left (h : Ledger total paid a b) (i : ι) (ha : ∀ x, x ≠ i → a' x = a x)
    (hk : ∀ k, total' k + paid k + (a i).count k = total k + paid' k + (a' i).count k) : Ledger total' paid' a' b := by
  refine ⟨fun k => ?_⟩
  have h1 := h.eq k
  have h2 := hk k
  have h3 := sum_change (g := fun x => (a x).count k) (e := fun x => (a' x).count k) i fun x hx => by
    simp only [ha x hx]
  omega

/-- Nothing changes. -/
theorem same (h : Ledger total paid a b) (ht : ∀ k, total' k = total k) (hp : ∀ k, paid' k = paid k) (ha : ∀ i, a' i = a i)
    (hb : ∀ j, b' j = b j) : Ledger total' paid' a' b' := by
  obtain rfl : total' = total := funext ht
  obtain rfl : paid' = paid := funext hp
  obtain rfl : a' = a := funext ha
  obtain rfl : b' = b := funext hb
  exact h

lemma left_pos (h : Ledger total paid a b) {i : ι} {k : K} (hk : k ∈ a i) : 0 < total k := by
  have h1 := h.eq k
  have h2 := Finset.single_le_sum (f := fun x => (a x).count k) (fun _ _ => Nat.zero_le _) (Finset.mem_univ i)
  have h3 := List.count_pos_iff.2 hk
  omega

lemma right_pos (h : Ledger total paid a b) {j : κ} {k : K} (hk : k ∈ b j) : 0 < total k := by
  have h1 := h.eq k
  have h2 := Finset.single_le_sum (f := fun x => (b x).count k) (fun _ _ => Nat.zero_le _) (Finset.mem_univ j)
  have h3 := List.count_pos_iff.2 hk
  omega

lemma both (h : Ledger total paid a b) {i : ι} {j : κ} {k : K} (hi : k ∈ a i) (hj : k ∈ b j) : 1 < total k := by
  have h1 := h.eq k
  have h2 := Finset.single_le_sum (f := fun x => (a x).count k) (fun _ _ => Nat.zero_le _) (Finset.mem_univ i)
  have h3 := Finset.single_le_sum (f := fun x => (b x).count k) (fun _ _ => Nat.zero_le _) (Finset.mem_univ j)
  have h4 := List.count_pos_iff.2 hi
  have h5 := List.count_pos_iff.2 hj
  omega

lemma left_two (h : Ledger total paid a b) {i i' : ι} (hne : i ≠ i') {k : K} (hi : k ∈ a i) (hi' : k ∈ a i') : 1 < total k := by
  classical
  have h1 := h.eq k
  have h2 : ∑ x ∈ ({i, i'} : Finset ι), (a x).count k ≤ ∑ x, (a x).count k :=
    Finset.sum_le_sum_of_subset (Finset.subset_univ _)
  rw [Finset.sum_pair hne] at h2
  have h4 := List.count_pos_iff.2 hi
  have h5 := List.count_pos_iff.2 hi'
  omega

lemma right_two (h : Ledger total paid a b) {j j' : κ} (hne : j ≠ j') {k : K} (hj : k ∈ b j) (hj' : k ∈ b j') : 1 < total k := by
  classical
  have h1 := h.eq k
  have h2 : ∑ x ∈ ({j, j'} : Finset κ), (b x).count k ≤ ∑ x, (b x).count k :=
    Finset.sum_le_sum_of_subset (Finset.subset_univ _)
  rw [Finset.sum_pair hne] at h2
  have h4 := List.count_pos_iff.2 hj
  have h5 := List.count_pos_iff.2 hj'
  omega

lemma left_twice (h : Ledger total paid a b) {i : ι} {k : K} (hi : 1 < (a i).count k) : 1 < total k := by
  have h1 := h.eq k
  have h2 := Finset.single_le_sum (f := fun x => (a x).count k) (fun _ _ => Nat.zero_le _) (Finset.mem_univ i)
  omega

end Ledger

import Mathlib.Data.List.Basic

/-!
# Fields of a list

A list cut at the members that equal a delimiter: the fields that a delimiter closes, and what
stands behind the last delimiter. What a reader of the list needs are the two equations for a field
at its begin, with the delimiter and without.
-/

namespace Fields

universe u

variable {α : Type u} [DecidableEq α]

/-- The fields that a delimiter closes. -/
def closed (d : α) (l : List α) : List (List α) := (l.splitOn d).dropLast

/-- What stands behind the last delimiter. -/
def last (d : α) (l : List α) : List α := (l.splitOn d).getLastD []

variable {d c : α} {f l r : List α}

lemma closed_of_notMem (h : d ∉ l) : closed d l = [] := by
  rw [closed, List.splitOn_eq_singleton h, List.dropLast_singleton]

lemma last_of_notMem (h : d ∉ l) : last d l = l := by
  rw [last, List.splitOn_eq_singleton h, List.getLastD_cons, List.getLastD_nil]

lemma closed_append (h : d ∉ f) : closed d (f ++ d :: r) = f :: closed d r := by
  rw [closed, List.splitOn_append_cons_self_of_not_mem h, List.dropLast_cons_of_ne_nil (List.splitOn_ne_nil d r),
    closed]

lemma last_append (h : d ∉ f) : last d (f ++ d :: r) = last d r := by
  rw [last, List.splitOn_append_cons_self_of_not_mem h, last, List.getLastD_eq_getLast?,
    List.getLastD_eq_getLast?, List.getLast?_cons_of_ne_nil (List.splitOn_ne_nil d r)]

lemma splitOn_eq (d : α) (l : List α) : l.splitOn d = closed d l ++ [last d l] := by
  have hne := List.splitOn_ne_nil d l
  have hlast : last d l = (l.splitOn d).getLast hne := by
    rw [last, List.getLastD_eq_getLast?, List.getLast?_eq_some_getLast hne, Option.getD_some]
  rw [closed, hlast, List.dropLast_append_getLast]

/-- Induction on the number of delimiters: the first field is cut off. -/
@[elab_as_elim] lemma cut_induction (d : α) {P : List α → Prop} (last : ∀ l, d ∉ l → P l)
    (closed : ∀ f r, d ∉ f → P r → P (f ++ d :: r)) (l : List α) : P l := by
  have bounded : ∀ n l, l.length ≤ n → P l := by
    intro n
    induction n with
    | zero =>
      intro l hl
      exact last l (by simp [List.length_eq_zero_iff.mp (Nat.le_zero.mp hl)])
    | succ n ih =>
      intro l hl
      by_cases h : d ∈ l
      · obtain ⟨f, r, rfl, hf⟩ := List.eq_append_cons_of_mem h
        rw [List.length_append, List.length_cons] at hl
        exact closed f r hf (ih r (by omega))
      · exact last l h
  exact bounded l.length l (Nat.le_refl _)

lemma notMem_last (d : α) (l : List α) : d ∉ last d l := by
  induction l using cut_induction d with
  | last l h => rwa [last_of_notMem h]
  | closed f r hf ih => rwa [last_append hf]

lemma mem_of_mem_last (h : c ∈ last d l) : c ∈ l := by
  induction l using cut_induction d with
  | last l hl => rwa [last_of_notMem hl] at h
  | closed f r hf ih =>
    rw [last_append hf] at h
    exact List.mem_append_right f (List.mem_cons_of_mem d (ih h))

lemma mem_of_mem_closed (hf : f ∈ closed d l) (hc : c ∈ f) : c ∈ l := by
  induction l using cut_induction d with
  | last l h => simp [closed_of_notMem h] at hf
  | closed g r hg ih =>
    rw [closed_append hg] at hf
    rcases List.mem_cons.mp hf with rfl | hf
    · exact List.mem_append_left _ hc
    · exact List.mem_append_right g (List.mem_cons_of_mem d (ih hf))

lemma length_last_le (d : α) (l : List α) : (last d l).length ≤ l.length := by
  induction l using cut_induction d with
  | last l h => exact Nat.le_of_eq (congrArg List.length (last_of_notMem h))
  | closed f r hf ih =>
    rw [last_append hf, List.length_append, List.length_cons]
    omega

lemma length_last_lt (h : d ∈ l) : (last d l).length < l.length := by
  obtain ⟨f, r, rfl, hf⟩ := List.eq_append_cons_of_mem h
  have hle := length_last_le d r
  rw [last_append hf, List.length_append, List.length_cons]
  omega

lemma closed_add (l r : List α) : closed d (l ++ r) = closed d l ++ closed d (last d l ++ r) := by
  induction l using cut_induction d with
  | last l h => rw [closed_of_notMem h, last_of_notMem h, List.nil_append]
  | closed f l hf ih =>
    rw [List.append_assoc, List.cons_append, closed_append hf, closed_append hf, last_append hf, ih, List.cons_append]

end Fields

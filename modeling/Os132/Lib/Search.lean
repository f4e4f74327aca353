import Mathlib.Tactic.Common
import Mathlib.Data.List.Induction

/-!
# Minimum searches that take zero for "none yet"

A search keeps the least key seen and its holder, and starts with key 0 for "nothing seen". So an element with key 0
empties the search again: the next element takes its place whatever its key is. `Wins` says which element comes out.
-/

variable {α : Type} {q : α → ℕ} {l a b : List α} {s : ℕ × Option α} {w x : α}

namespace Search

/-- One element is compared with the least key so far. -/
def look (q : α → ℕ) (s : ℕ × Option α) (x : α) : ℕ × Option α :=
  if s.1 = 0 ∨ q x < s.1 then (q x, some x) else s

def run (q : α → ℕ) (l : List α) (s : ℕ × Option α) : ℕ × Option α := l.foldl (look q) s

@[simp] lemma run_nil : run q [] s = s := rfl

lemma run_append : run q (a ++ b) s = run q b (run q a s) := List.foldl_append

lemma run_concat : run q (l ++ [x]) s = look q (run q l s) x := by
  simp [run]

/-- `w` is the first element with the least key after the last one with key 0, or it is that one and the last of all. -/
structure Wins (q : α → ℕ) (a : List α) (w : α) (b : List α) : Prop where
  after : ∀ x ∈ b, q x ≠ 0 ∧ q w ≤ q x
  zero : q w = 0 → b = []
  before : q w ≠ 0 → ∀ a₁ x a₂, a = a₁ ++ x :: a₂ → q w < q x ∨ ∃ y ∈ x :: a₂, q y = 0

/-- The elements so far leave a search that `v` takes over. -/
lemma run_open {v : ℕ} {h : Option α} (hl : ∀ a₁ x a₂, l = a₁ ++ x :: a₂ → v < q x ∨ ∃ y ∈ x :: a₂, q y = 0) :
    (run q l (0, h)).1 = 0 ∨ v < (run q l (0, h)).1 := by
  induction l using List.reverseRecOn with
  | nil => exact Or.inl rfl
  | append_singleton l x ih =>
    rw [run_concat]
    by_cases hx : q x = 0
    · apply Or.inl
      unfold look
      split_ifs with hlook
      · exact hx
      · push Not at hlook
        omega
    · have hvx : v < q x := by
        rcases hl l x [] rfl with hv | ⟨y, hy, hy0⟩
        · exact hv
        · rw [List.mem_singleton.1 hy] at hy0
          exact absurd hy0 hx
      have hprev := ih fun a₁ z a₂ hz => by
        rcases hl a₁ z (a₂ ++ [x]) (by rw [hz]; simp) with hv | ⟨y, hy, hy0⟩
        · exact Or.inl hv
        · apply Or.inr
          rcases List.mem_append.1 (List.cons_append ▸ hy) with hy | hy
          · exact ⟨y, hy, hy0⟩
          · rw [List.mem_singleton.1 hy] at hy0
            exact absurd hy0 hx
      unfold look
      split_ifs with hlook
      · exact Or.inr hvx
      · exact hprev

lemma run_keep (hb : ∀ x ∈ b, q x ≠ 0 ∧ q w ≤ q x) (hw : q w = 0 → b = []) : run q b (q w, some w) = (q w, some w) := by
  induction b with
  | nil => rfl
  | cons x b ih =>
    have hw0 : q w ≠ 0 := fun h0 => List.cons_ne_nil x b (hw h0)
    have hx := (hb x List.mem_cons_self).2
    have hlook : look q (q w, some w) x = (q w, some w) := by
      unfold look
      apply if_neg
      rintro (h0 | hlt)
      · exact hw0 h0
      · exact absurd hlt (Nat.not_lt.2 hx)
    rw [run, List.foldl_cons, hlook]
    exact ih (fun y hy => hb y (List.mem_cons_of_mem _ hy)) fun h0 => absurd h0 hw0

/-- A winner comes out. -/
theorem Wins.run {h : Option α} (hw : Wins q a w b) : run q (a ++ w :: b) (0, h) = (q w, some w) := by
  rw [run_append]
  have htake : look q (Search.run q a (0, h)) w = (q w, some w) := by
    unfold look
    apply if_pos
    by_cases h0 : q w = 0
    · by_cases hm : (Search.run q a (0, h)).1 = 0
      · exact Or.inl hm
      · apply Or.inr
        omega
    · exact run_open (hw.before h0)
  rw [Search.run, List.foldl_cons, htake]
  exact run_keep hw.after hw.zero

lemma Wins.unique {a' b' : List α} {w' : α} (hw : Wins q a w b) (hw' : Wins q a' w' b') (h : a ++ w :: b = a' ++ w' :: b') :
    w = w' := by
  have h1 := hw.run (h := none)
  rw [h, hw'.run] at h1
  exact (Option.some.inj (Prod.mk.inj h1).2).symm

lemma Wins.behind (hw : Wins q a w b) (hl : ∀ z ∈ l.getLast?, q z = 0) : Wins q (l ++ a) w b := by
  refine ⟨hw.after, hw.zero, fun h0 a₁ x a₂ he => ?_⟩
  rcases List.append_eq_append_iff.1 he with ⟨c, rfl, hc⟩ | ⟨c, rfl, hc⟩
  · exact hw.before h0 c x a₂ hc
  · rcases List.eq_nil_or_concat c with rfl | ⟨d, z, rfl⟩
    · exact hw.before h0 [] x a₂ (by simpa using hc.symm)
    · have hz : q z = 0 := hl z (by simp [List.getLast?_append])
      exact Or.inr ⟨z, by rw [hc]; simp, hz⟩

/-- Every list that is not empty has a winner. -/
theorem exists_wins (hl : l ≠ []) : ∃ a w b, l = a ++ w :: b ∧ Wins q a w b := by
  induction l using List.reverseRecOn with
  | nil => exact absurd rfl hl
  | append_singleton l x ih =>
    by_cases hnil : l = []
    · subst hnil
      refine ⟨[], x, [], rfl, by simp, fun _ => rfl, fun _ a₁ y a₂ he => ?_⟩
      simp at he
    · obtain ⟨a, w, b, rfl, hw⟩ := ih hnil
      by_cases h0 : q w = 0
      · -- the search is empty again, and `x` takes it over
        obtain rfl := hw.zero h0
        refine ⟨a ++ [w], x, [], rfl, by simp, fun _ => rfl, fun _ a₁ y a₂ he => Or.inr ⟨w, ?_, h0⟩⟩
        have hlast : w ∈ (y :: a₂).getLast? := by
          have := congrArg List.getLast? he
          simpa [List.getLast?_append] using this.symm
        exact List.mem_of_getLast? hlast
      · by_cases hlt : q x ≠ 0 ∧ q w ≤ q x
        · refine ⟨a, w, b ++ [x], by simp, fun y hy => ?_, fun h => absurd h h0, hw.before⟩
          rcases List.mem_append.1 hy with hy | hy
          · exact hw.after y hy
          · rw [List.mem_singleton.1 hy]
            exact hlt
        · have hxw : q x < q w := by
            by_contra hge
            exact hlt ⟨by omega, by omega⟩
          refine ⟨a ++ w :: b, x, [], rfl, by simp, fun _ => rfl, fun _ a₁ y a₂ he => ?_⟩
          rcases List.append_eq_append_iff.1 he with ⟨c, -, hc⟩ | ⟨c, ha, hc⟩
          · have hy : y ∈ w :: b := by
              rw [hc]
              simp
            rcases List.mem_cons.1 hy with rfl | hy
            · exact Or.inl hxw
            · exact Or.inl (Nat.lt_of_lt_of_le hxw (hw.after y hy).2)
          · cases c with
            | nil =>
              rw [List.nil_append] at hc
              rw [(List.cons.inj hc).1]
              exact Or.inl hxw
            | cons z c =>
              obtain ⟨rfl, rfl⟩ := List.cons.inj hc
              rcases hw.before h0 a₁ y c ha with hv | ⟨z, hz, hz0⟩
              · exact Or.inl (Nat.lt_trans hxw hv)
              · exact Or.inr ⟨z, List.mem_append_left (w :: b) hz, hz0⟩

/-- The search finds the least key if and only if no key is 0 or the last one is. -/
theorem Wins.least_iff (hw : Wins q a w b) :
    (∀ x ∈ a ++ w :: b, q w ≤ q x) ↔ (∀ x ∈ a ++ w :: b, q x ≠ 0) ∨ ∃ y, (a ++ w :: b).getLast? = some y ∧ q y = 0 := by
  constructor
  · intro hle
    by_cases h0 : q w = 0
    · obtain rfl := hw.zero h0
      exact Or.inr ⟨w, by simp, h0⟩
    · exact Or.inl fun x hx hx0 => h0 (by have := hle x hx; omega)
  · rintro (hne | ⟨y, hy, hy0⟩)
    · intro x hx
      rcases List.mem_append.1 hx with hx | hx
      · obtain ⟨a₁, a₂, rfl⟩ := List.append_of_mem hx
        rcases hw.before (hne w (by simp)) a₁ x a₂ rfl with hlt | ⟨z, hz, hz0⟩
        · exact Nat.le_of_lt hlt
        · exact absurd hz0 (hne z (by simp only [List.mem_cons, List.mem_append] at hz ⊢; tauto))
      · rcases List.mem_cons.1 hx with rfl | hx
        · exact Nat.le_refl _
        · exact (hw.after x hx).2
    · have hb : b = [] := by
        by_contra hb
        have hlast : b.getLast? = some y := by
          rw [List.getLast?_append] at hy
          cases b with
          | nil => exact absurd rfl hb
          | cons z b => simpa using hy
        exact (hw.after y (List.mem_of_getLast? hlast)).1 hy0
      subst hb
      have hyw : w = y := by simpa using hy
      intro x _
      rw [hyw, hy0]
      exact Nat.zero_le _

end Search

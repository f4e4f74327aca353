import Mathlib.Tactic.Common

/-!
# Owners of marked things

An allocator marks the things it has handed out; places hold them. `SoleOwner` says that what a place holds
is marked and lies in the area of the allocator, and that no two places hold the same thing. `Exact`
says that nothing else in the area is marked.
-/

/-- The places hold different marked things of the area. -/
structure SoleOwner {X B : Type} (hold : X → Option B) (mark area : B → Prop) : Prop where
  marked : ∀ x b, hold x = some b → mark b
  inside : ∀ x b, hold x = some b → area b
  once : ∀ x y b, hold x = some b → hold y = some b → x = y

/-- Every marked thing of the area is held. -/
def Exact {X B : Type} (hold : X → Option B) (mark area : B → Prop) : Prop :=
  ∀ b, area b → mark b → ∃ x, hold x = some b

namespace SoleOwner

variable {X B : Type} {hold hold' : X → Option B} {mark mark' area : B → Prop}

lemma sub (h : SoleOwner hold mark area) (hs : ∀ x b, hold' x = some b → hold x = some b) : SoleOwner hold' mark area where
  marked x b hb := h.marked x b (hs x b hb)
  inside x b hb := h.inside x b (hs x b hb)
  once x y b hx hy := h.once x y b (hs x b hx) (hs y b hy)

/-- A thing that was not marked is marked and put in a place. -/
lemma put (h : SoleOwner hold mark area) {x : X} {b : B} (hb : ¬ mark b) (ha : area b) (hx : hold' x = some b)
    (hy : ∀ y, y ≠ x → hold' y = hold y) (hm : ∀ c, mark c ∨ c = b → mark' c) : SoleOwner hold' mark' area := by
  have hcases : ∀ y c, hold' y = some c → y = x ∧ c = b ∨ hold y = some c := by
    intro y c hc
    by_cases h' : y = x
    · rw [h', hx] at hc
      exact Or.inl ⟨h', (Option.some.inj hc).symm⟩
    · exact Or.inr (by rwa [← hy y h'])
  refine ⟨fun y c hc => ?_, fun y c hc => ?_, fun y z c hc hz => ?_⟩
  · rcases hcases y c hc with ⟨-, rfl⟩ | h'
    · exact hm _ (Or.inr rfl)
    · exact hm _ (Or.inl (h.marked y c h'))
  · rcases hcases y c hc with ⟨-, rfl⟩ | h'
    · exact ha
    · exact h.inside y c h'
  · rcases hcases y c hc with ⟨rfl, rfl⟩ | hc' <;> rcases hcases z c hz with ⟨rfl, hcb⟩ | hz'
    · rfl
    · exact absurd (h.marked z _ hz') hb
    · exact absurd (h.marked y c hc') (hcb ▸ hb)
    · exact h.once y z c hc' hz'

lemma drop (h : SoleOwner hold mark area) (gone : X → Prop)
    (hs : ∀ x b, hold' x = some b → hold x = some b ∧ ¬ gone x)
    (hm : ∀ b, mark b → (∀ x, gone x → hold x ≠ some b) → mark' b) : SoleOwner hold' mark' area where
  marked x b hb := by
    obtain ⟨hx, hg⟩ := hs x b hb
    refine hm b (h.marked x b hx) fun y hy hyb => hg ?_
    rwa [h.once x y b hx hyb]
  inside x b hb := h.inside x b (hs x b hb).1
  once x y b hx hy := h.once x y b (hs x b hx).1 (hs y b hy).1

end SoleOwner

namespace Exact

variable {X B : Type} {hold hold' : X → Option B} {mark mark' area : B → Prop}

lemma of_eq (h : Exact hold mark area) (hs : ∀ x b, hold x = some b → hold' x = some b) : Exact hold' mark area := by
  intro b ha hm
  obtain ⟨x, hx⟩ := h b ha hm
  exact ⟨x, hs x b hx⟩

/-- A thing is marked and put in a place that was empty. -/
lemma put (h : Exact hold mark area) {x : X} {b : B} (hn : hold x = none) (hx : hold' x = some b)
    (hy : ∀ y, y ≠ x → hold' y = hold y) (hm : ∀ c, mark' c → mark c ∨ c = b) : Exact hold' mark' area := by
  intro c ha hc
  rcases hm c hc with hc | rfl
  · obtain ⟨y, hc⟩ := h c ha hc
    refine ⟨y, ?_⟩
    rwa [hy y]
    rintro rfl
    rw [hn] at hc
    cases hc
  · exact ⟨x, hx⟩

lemma drop (h : Exact hold mark area) (gone : X → Prop) (hs : ∀ x b, hold x = some b → ¬ gone x → hold' x = some b)
    (hm : ∀ b, mark' b → mark b ∧ ∀ x, gone x → hold x ≠ some b) : Exact hold' mark' area := by
  intro b ha hb
  obtain ⟨hb, hg⟩ := hm b hb
  obtain ⟨x, hx⟩ := h b ha hb
  exact ⟨x, hs x b hx fun hgx => hg x hgx hx⟩

end Exact

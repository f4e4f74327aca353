import Mathlib.Logic.Relation
import Mathlib.Tactic.Common

/-!
# Circular waits

Agents that hold locks and wait for locks. A ranking of the locks excludes circular waits as
long as every agent waits for a lock of higher rank than those it holds; `exists_inversion`
finds the agent that breaks the order in a circular wait, and the one it waits for.
-/

namespace Locks

variable {α lock : Type} {holder : lock → Option α} {wants : α → Option lock}

/-- Agent `a` waits for a lock that agent `b` holds. -/
def WaitsFor (holder : lock → Option α) (wants : α → Option lock) (a b : α) : Prop :=
  ∃ l, wants a = some l ∧ holder l = some b

/-- Some agent waits for itself, through any number of others. -/
def CircularWait (holder : lock → Option α) (wants : α → Option lock) : Prop :=
  ∃ a, Relation.TransGen (WaitsFor holder wants) a a

lemma circularWait_of_two {a b : α} (hab : WaitsFor holder wants a b) (hba : WaitsFor holder wants b a) :
    CircularWait holder wants :=
  ⟨a, .tail (.single hab) hba⟩

lemma exists_succ {W : α → α → Prop} {a b : α} (h : Relation.TransGen W a b) : ∃ c, W a c := by
  rcases Relation.TransGen.head'_iff.mp h with ⟨c, hc, -⟩
  exact ⟨c, hc⟩

/-- A cycle has an edge along which the rank does not grow, and its end has a successor of its own. -/
theorem exists_descent {W : α → α → Prop} (rank : α → ℕ) {a : α} (h : Relation.TransGen W a a) :
    ∃ b c d e, W b c ∧ W c d ∧ W d e ∧ rank c ≤ rank b := by
  by_contra hno
  have step : ∀ {x y}, W x y → Relation.TransGen W y a → rank x < rank y := by
    intro x y hxy hya
    obtain ⟨d, hyd, hda⟩ := Relation.TransGen.head'_iff.mp hya
    obtain ⟨e, hde⟩ : ∃ e, W d e := by
      rcases Relation.reflTransGen_iff_eq_or_transGen.mp hda with rfl | hda
      · exact exists_succ h
      · exact exists_succ hda
    exact Nat.lt_of_not_le fun hle => hno ⟨x, y, d, e, hxy, hyd, hde, hle⟩
  have grow : ∀ {y}, Relation.TransGen W a y → Relation.TransGen W y a → rank a < rank y := by
    intro y hay
    induction hay with
    | single hay => exact step hay
    | tail _ hyz ih => exact fun hza => Nat.lt_trans (ih (.head hyz hza)) (step hyz hza)
  exact absurd (grow h h) (Nat.lt_irrefl _)

/-- In a circular wait some agent holds a lock and waits for one that does not rank higher, whose
holder waits as well. -/
theorem exists_inversion (rank : lock → ℕ) (h : CircularWait holder wants) :
    ∃ a b l l' l'', holder l = some a ∧ wants a = some l' ∧ rank l' ≤ rank l ∧
      holder l' = some b ∧ wants b = some l'' := by
  obtain ⟨a, ha⟩ := h
  obtain ⟨b, c, d, e, ⟨l, hbl, hlc⟩, ⟨l', hcl, hld⟩, ⟨l'', hdl, -⟩, hr⟩ :=
    exists_descent (fun x => ((wants x).map rank).getD 0) ha
  refine ⟨c, d, l, l', l'', hlc, hcl, ?_, hld, hdl⟩
  simpa [hbl, hcl] using hr

end Locks

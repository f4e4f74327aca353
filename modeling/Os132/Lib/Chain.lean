import Mathlib.Tactic.Common
import Mathlib.Logic.Function.Basic
import Mathlib.Data.List.Nodup

/-!
# Doubly linked circular lists

The nodes of a circular list are a head, `none`, and the cells `some x`. Two fields `next` and `prev` of
every node link them. `Linked` says that the cells are those of a list, in its order; `unlink` takes a
cell out, `push` puts one in behind the head, and `seek` is the loop that goes along one of the fields
from the head until a test succeeds.
-/

namespace Chain

variable {α : Type} {next prev next' prev' : Option α → Option α}

/-- From node `a` the links lead through the cells `l` to node `c`, and back. -/
def Path (next prev : Option α → Option α) : Option α → List α → Option α → Prop
  | a, [], c => next a = c ∧ prev c = a
  | a, x :: l, c => next a = some x ∧ prev (some x) = a ∧ Path next prev (some x) l c

/-- One circular list of the head and the cells `l`. -/
structure Linked (next prev : Option α → Option α) (l : List α) : Prop where
  path : Path next prev none l none
  nodup : l.Nodup

lemma path_append {x : α} {v : List α} {c : Option α} (u : List α) : ∀ a,
    Path next prev a (u ++ x :: v) c ↔ Path next prev a u (some x) ∧ Path next prev (some x) v c := by
  induction u with
  | nil => intro a; simp [Path, and_assoc]
  | cons y u ih => intro a; simp [Path, ih, and_assoc]

/-- The links of other nodes do not matter. -/
lemma Path.congr {c : Option α} (l : List α) : ∀ a, Path next prev a l c →
    (∀ y, y = a ∨ (∃ x ∈ l, y = some x) → next' y = next y) →
    (∀ y, y = c ∨ (∃ x ∈ l, y = some x) → prev' y = prev y) → Path next' prev' a l c := by
  induction l with
  | nil =>
    intro a h hn hp
    exact ⟨(hn a (Or.inl rfl)).trans h.1, (hp c (Or.inl rfl)).trans h.2⟩
  | cons x l ih =>
    intro a h hn hp
    refine ⟨(hn a (Or.inl rfl)).trans h.1, (hp _ (Or.inr ⟨x, by simp, rfl⟩)).trans h.2.1, ih _ h.2.2 ?_ ?_⟩
    · rintro y (rfl | ⟨z, hz, rfl⟩)
      · exact hn _ (Or.inr ⟨x, by simp, rfl⟩)
      · exact hn _ (Or.inr ⟨z, by simp [hz], rfl⟩)
    · rintro y (rfl | ⟨z, hz, rfl⟩)
      · exact hp _ (Or.inl rfl)
      · exact hp _ (Or.inr ⟨z, by simp [hz], rfl⟩)

lemma Path.prev_end {c : Option α} (l : List α) : ∀ a, Path next prev a l c →
    prev c = a ∨ ∃ x ∈ l, prev c = some x := by
  induction l with
  | nil => exact fun a h => Or.inl h.2
  | cons x l ih =>
    intro a h
    right
    rcases ih _ h.2.2 with hx | ⟨y, hy, hc⟩
    · exact ⟨x, by simp, hx⟩
    · exact ⟨y, by simp [hy], hc⟩

lemma Path.next_start {a c : Option α} (l : List α) (h : Path next prev a l c) :
    next a = c ∨ ∃ x ∈ l, next a = some x := by
  cases l with
  | nil => exact Or.inl h.1
  | cons x l => exact Or.inr ⟨x, by simp, h.1⟩

section seek

/-- The loop `for(b = head.next; b != &head; b = b->next)` up to the first cell that passes the test. -/
def seek (next : Option α → Option α) (p : α → Bool) : ℕ → Option α → Option α
  | 0, _ => none
  | _ + 1, none => none
  | n + 1, some x => if p x then some x else seek next p n (next (some x))

lemma seek_path {p : α → Bool} (l : List α) : ∀ (n : ℕ) (a : Option α), Path next prev a l none → l.length < n →
    seek next p n (next a) = l.find? p := by
  induction l with
  | nil =>
    intro n a h hn
    obtain ⟨n, rfl⟩ : ∃ m, n = m + 1 := ⟨n - 1, by simp at hn; omega⟩
    rw [h.1]
    rfl
  | cons x l ih =>
    intro n a h hn
    obtain ⟨n, rfl⟩ : ∃ m, n = m + 1 := ⟨n - 1, by simp at hn; omega⟩
    rw [h.1, seek, List.find?_cons]
    by_cases hx : p x
    · simp [hx]
    · simp only [hx, Bool.false_eq_true, if_false]
      exact ih n _ h.2.2 (by simpa using hn)

lemma Path.reverse {c : Option α} (l : List α) : ∀ a, Path next prev a l c → Path prev next c l.reverse a := by
  induction l with
  | nil => exact fun a h => ⟨h.2, h.1⟩
  | cons x l ih =>
    intro a h
    rw [List.reverse_cons, path_append]
    exact ⟨ih _ h.2.2, h.2.1, h.1⟩

lemma Linked.seek {l : List α} (h : Linked next prev l) {n : ℕ} (hn : l.length < n) (p : α → Bool) :
    seek next p n (next none) = l.find? p := seek_path l n none h.path hn

lemma Linked.seek_back {l : List α} (h : Linked next prev l) {n : ℕ} (hn : l.length < n) (p : α → Bool) :
    Chain.seek prev p n (prev none) = l.reverse.find? p :=
  seek_path l.reverse n none (h.path.reverse l) (by simpa using hn)

end seek

lemma mid_notMem {x : α} {u v : List α} (h : (u ++ x :: v).Nodup) : x ∉ u ∧ x ∉ v ∧ ∀ y ∈ u, y ∉ v := by
  rw [List.nodup_append] at h
  obtain ⟨-, h2, h3⟩ := h
  exact ⟨fun hx => h3 x hx x (by simp) rfl, (List.nodup_cons.1 h2).1, fun y hu hv => h3 y hu y (by simp [hv]) rfl⟩

variable [DecidableEq α]

/-- `b->next->prev = b->prev; b->prev->next = b->next` -/
def unlink (x : α) (l : (Option α → Option α) × (Option α → Option α)) :
    (Option α → Option α) × (Option α → Option α) :=
  let prev := Function.update l.2 (l.1 (some x)) (l.2 (some x))
  (Function.update l.1 (prev (some x)) (l.1 (some x)), prev)

/-- `b->next = head.next; b->prev = &head; head.next->prev = b; head.next = b` -/
def push (x : α) (l : (Option α → Option α) × (Option α → Option α)) :
    (Option α → Option α) × (Option α → Option α) :=
  let next := Function.update l.1 (some x) (l.1 none)
  let prev := Function.update l.2 (some x) none
  (Function.update next none (some x), Function.update prev (next none) (some x))

lemma path_unlink {x : α} {v : List α} (u : List α) : ∀ a, Path next prev a (u ++ x :: v) none →
    (u ++ x :: v).Nodup → (∀ y ∈ u ++ x :: v, a ≠ some y) →
    Path (Function.update next (prev (some x)) (next (some x))) (Function.update prev (next (some x)) (prev (some x)))
      a (u ++ v) none := by
  induction u with
  | nil =>
    rintro a ⟨ha, hx, hv⟩ hnd hne
    rw [hx]
    cases v with
    | nil =>
      rw [hv.1]
      simp [Path]
    | cons y v =>
      obtain ⟨hy, -, hv⟩ := hv
      rw [hy]
      refine ⟨by simp, by simp, hv.congr v _ ?_ ?_⟩
      · rintro z (rfl | ⟨w, hw, rfl⟩)
        · exact Function.update_of_ne (hne y (by simp)).symm _ _
        · exact Function.update_of_ne (hne w (by simp [hw])).symm _ _
      · rintro z (rfl | ⟨w, hw, rfl⟩)
        · exact Function.update_of_ne (by simp) _ _
        · have : w ≠ y := by
            rintro rfl
            simp_all
          exact Function.update_of_ne (by simpa using this) _ _
  | cons w u ih =>
    rintro a ⟨ha, hw, hu⟩ hnd hne
    obtain ⟨hwnd, hnd'⟩ := List.nodup_cons.1 hnd
    obtain ⟨hux, hxv⟩ := (path_append u _).1 hu
    refine ⟨?_, ?_, ih _ hu hnd' fun y hy h => hwnd (Option.some_inj.1 h ▸ hy)⟩
    · have : a ≠ prev (some x) := by
        rcases hux.prev_end u with hp | ⟨y, hy, hp⟩
        · exact hp ▸ hne w (by simp)
        · exact hp ▸ hne y (by simp [hy])
      rw [Function.update_of_ne this, ha]
    · have : some w ≠ next (some x) := by
        rcases hxv.next_start v with hn | ⟨y, hy, hn⟩
        · simp [hn]
        · rw [hn, Ne, Option.some_inj]
          rintro rfl
          exact hwnd (by simp [hy])
      rw [Function.update_of_ne this, hw]

theorem Linked.unlink {l : List α} {x : α} (h : Linked next prev l) (hx : x ∈ l) :
    Linked (Chain.unlink x (next, prev)).1 (Chain.unlink x (next, prev)).2 (l.erase x) := by
  obtain ⟨u, v, rfl⟩ := List.append_of_mem hx
  obtain ⟨hxu, hxv, -⟩ := mid_notMem h.nodup
  have hself : next (some x) ≠ some x := by
    rcases ((path_append u _).1 h.path).2.next_start v with hn | ⟨y, hy, hn⟩
    · simp [hn]
    · rw [hn, Ne, Option.some_inj]
      rintro rfl
      exact hxv hy
  have he : (u ++ x :: v).erase x = u ++ v := by
    rw [List.erase_append_right _ hxu, List.erase_cons_head]
  have hp := path_unlink u none h.path h.nodup (by simp)
  refine ⟨?_, h.nodup.erase x⟩
  rw [he]
  unfold Chain.unlink
  dsimp only
  rw [Function.update_of_ne hself.symm]
  exact hp

theorem Linked.push {l : List α} {x : α} (h : Linked next prev l) (hx : x ∉ l) :
    Linked (Chain.push x (next, prev)).1 (Chain.push x (next, prev)).2 (x :: l) := by
  have hne : next none ≠ some x := by
    rcases h.path.next_start l with hn | ⟨y, hy, hn⟩
    · simp [hn]
    · rw [hn, Ne, Option.some_inj]
      rintro rfl
      exact hx hy
  refine ⟨⟨by simp [Chain.push], ?_, ?_⟩, List.nodup_cons.2 ⟨hx, h.nodup⟩⟩
  · simp [Chain.push, Function.update_of_ne hne.symm]
  · have hp := h.path
    cases l with
    | nil => simp [Path, Chain.push, hp.1]
    | cons y l =>
      obtain ⟨hn, -, hl⟩ := hp
      have hxy : y ≠ x := fun h => hx (by simp [h])
      refine ⟨by simp [Chain.push, hn], by simp [Chain.push, hn], hl.congr l _ ?_ ?_⟩
      · rintro z (rfl | ⟨w, hw, rfl⟩)
        · simp [Chain.push, hxy]
        · have : w ≠ x := fun h => hx (by simp [← h, hw])
          simp [Chain.push, this]
      · have hy := (List.nodup_cons.1 h.nodup).1
        rintro z (rfl | ⟨w, hw, rfl⟩)
        · simp [Chain.push, hn]
        · have h1 : w ≠ x := fun h => hx (by simp [← h, hw])
          have h2 : w ≠ y := fun h => hy (h ▸ hw)
          simp [Chain.push, hn, h1, h2]

end Chain

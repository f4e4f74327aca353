import Mathlib.Computability.Language

/-!
# The matcher of grep

A string is the list of its characters before the terminating NUL. `match`, `matchhere` and
`matchstar` decide by looking one character ahead; a pattern is also read, once and from left to
right, as a list of items between two anchors, and the items denote languages. The matcher finds
exactly the texts with a substring in the concatenation of these languages.
-/

namespace Os132.User

namespace Grep

/-- `c=='.' || c==t` for a character `t` of the text. -/
def charMatches (c t : Char) : Bool := c == '.' || c == t

/-- `matchstar(c, re, text)`, for the function `here` that calls `matchhere(re, ·)`. -/
def matchstar (c : Char) (here : List Char → Bool) : List Char → Bool
  | [] => here []
  | t :: text => here (t :: text) || ((t == c || c == '.') && matchstar c here text)

def matchhere : List Char → List Char → Bool
  | [], _ => true
  | [c], text =>
    if c = '$' then text.isEmpty
    else match text with
      | [] => false
      | t :: _ => c == '.' || c == t
  | c :: d :: re, text =>
    if d = '*' then matchstar c (matchhere re) text
    else match text with
      | [] => false
      | t :: text => (c == '.' || c == t) && matchhere (d :: re) text

/-- The loop of `match`, which looks at the empty string too. -/
def matchSuffix (re : List Char) : List Char → Bool
  | [] => matchhere re []
  | t :: text => matchhere re (t :: text) || matchSuffix re text

/-- `match`. -/
def matchRe : List Char → List Char → Bool
  | [], text => matchSuffix [] text
  | c :: re, text => if c = '^' then matchhere re text else matchSuffix (c :: re) text

/-- An item of a pattern: `c*` or `c`. -/
inductive Item where
  | star (c : Char)
  | one (c : Char)

/-- A pattern without `^`: its items, and whether a `$` follows them. -/
structure Anchored where
  items : List Item
  dollar : Bool

/-- The items and the final `$` of a pattern, from left to right. -/
def items : List Char → Anchored
  | [] => ⟨[], false⟩
  | [c] => if c = '$' then ⟨[], true⟩ else ⟨[.one c], false⟩
  | c :: d :: re =>
    if d = '*' then ⟨.star c :: (items re).items, (items re).dollar⟩
    else ⟨.one c :: (items (d :: re)).items, (items (d :: re)).dollar⟩

/-- The strings of length one that `c` matches. -/
def single (c : Char) : Language Char := {w | ∃ t, (c = '.' ∨ c = t) ∧ w = [t]}

def Item.lang : Item → Language Char
  | .star c => KStar.kstar (single c)
  | .one c => single c

/-- The concatenations of strings that match the items in order. -/
def lang : List Item → Language Char
  | [] => 1
  | i :: is => i.lang * lang is

/-- Some substring of the text is in the language of the items; it begins the text if the pattern has
`^`, and ends it if the pattern has `$`. -/
def Finds (hat : Bool) (p : Anchored) (text : List Char) : Prop :=
  ∃ pre w post, text = pre ++ w ++ post ∧ (hat → pre = []) ∧ (p.dollar → post = []) ∧ w ∈ lang p.items

/-- What a whole pattern means. -/
def Denotes (pattern text : List Char) : Prop :=
  if pattern.head? = some '^' then Finds true (items pattern.tail) text
  else Finds false (items pattern) text

variable {c : Char} {re text w post : List Char} {here : List Char → Bool}

lemma mem_single : w ∈ single c ↔ ∃ t, (c = '.' ∨ c = t) ∧ w = [t] := Iff.rfl

lemma mem_star : w ∈ (Item.star c).lang ↔ ∀ t ∈ w, c = '.' ∨ c = t := by
  constructor
  · intro h
    obtain ⟨L, hL, hs⟩ := Language.mem_kstar.mp h
    intro t ht
    obtain ⟨y, hy, hty⟩ := List.mem_flatten.mp (hL ▸ ht)
    obtain ⟨u, hu, rfl⟩ := mem_single.mp (hs y hy)
    rwa [List.mem_singleton.mp hty]
  · intro h
    apply Language.mem_kstar.mpr
    refine ⟨w.map fun t => [t], by simp [← List.flatMap_def], ?_⟩
    intro y hy
    obtain ⟨t, ht, rfl⟩ := List.mem_map.mp hy
    exact mem_single.mpr ⟨t, h t ht, rfl⟩

/-- `matchstar` tries every run of characters that `c` matches. -/
lemma matchstar_iff : matchstar c here text = true ↔
    ∃ u v, text = u ++ v ∧ u ∈ (Item.star c).lang ∧ here v = true := by
  induction text with
  | nil =>
    constructor
    · intro h
      exact ⟨[], [], rfl, mem_star.mpr (by simp), h⟩
    · rintro ⟨u, v, huv, _, hv⟩
      have hnil : v = [] := (List.append_eq_nil_iff.mp huv.symm).2
      rwa [matchstar, ← hnil]
  | cons t text ih =>
    simp only [matchstar, Bool.or_eq_true, Bool.and_eq_true, beq_iff_eq, ih]
    constructor
    · rintro (h | ⟨ht, u, v, rfl, hu, hv⟩)
      · exact ⟨[], t :: text, rfl, mem_star.mpr (by simp), h⟩
      · refine ⟨t :: u, v, rfl, mem_star.mpr ?_, hv⟩
        intro x hx
        rcases List.mem_cons.mp hx with rfl | hx
        · exact ht.symm.imp id Eq.symm
        · exact mem_star.mp hu x hx
    · rintro ⟨u, v, huv, hu, hv⟩
      cases u with
      | nil =>
        left
        rw [huv]
        exact hv
      | cons x u =>
        right
        injection huv with hx htext
        have hall := mem_star.mp hu
        have hc := hall x List.mem_cons_self
        refine ⟨?_, u, v, htext, mem_star.mpr fun y hy => hall y (List.mem_cons_of_mem x hy), hv⟩
        rw [hx]
        exact hc.symm.imp Eq.symm id

lemma mem_lang_cons {i : Item} {is : List Item} :
    w ∈ lang (i :: is) ↔ ∃ u ∈ i.lang, ∃ v ∈ lang is, u ++ v = w :=
  Language.mem_mul

/-- A prefix of the text is in the language of the items; it is the whole text if a `$` follows. -/
def Begins (p : Anchored) (text : List Char) : Prop :=
  ∃ w post, text = w ++ post ∧ (p.dollar → post = []) ∧ w ∈ lang p.items

lemma begins_nil {b : Bool} : Begins ⟨[], b⟩ text ↔ (b → text = []) := by
  constructor
  · rintro ⟨w, post, rfl, hb, rfl⟩ h
    simpa using hb h
  · intro h
    exact ⟨[], text, rfl, h, rfl⟩

lemma begins_cons {i : Item} {is : List Item} {b : Bool} : Begins ⟨i :: is, b⟩ text ↔
    ∃ u v, text = u ++ v ∧ u ∈ i.lang ∧ Begins ⟨is, b⟩ v := by
  constructor
  · rintro ⟨w, post, rfl, hb, hw⟩
    obtain ⟨u, hu, v, hv, rfl⟩ := mem_lang_cons.mp hw
    exact ⟨u, v ++ post, List.append_assoc u v post, hu, v, post, rfl, hb, hv⟩
  · rintro ⟨u, v, rfl, hu, w, post, rfl, hb, hw⟩
    exact ⟨u ++ w, post, (List.append_assoc u w post).symm, hb, mem_lang_cons.mpr ⟨u, hu, w, hw, rfl⟩⟩

lemma begins_one {is : List Item} {b : Bool} : Begins ⟨.one c :: is, b⟩ text ↔
    ∃ t v, text = t :: v ∧ (c = '.' ∨ c = t) ∧ Begins ⟨is, b⟩ v := by
  rw [begins_cons]
  constructor
  · rintro ⟨u, v, htext, hu, hv⟩
    obtain ⟨t, ht, rfl⟩ := mem_single.mp hu
    exact ⟨t, v, htext, ht, hv⟩
  · rintro ⟨t, v, htext, ht, hv⟩
    exact ⟨[t], v, htext, mem_single.mpr ⟨t, ht, rfl⟩, hv⟩

/-- `matchhere` finds the items at the beginning of the text. -/
lemma matchhere_iff : matchhere re text = true ↔ Begins (items re) text := by
  induction re using items.induct generalizing text with
  | case1 => simp [matchhere, items, begins_nil]
  | case2 => simp [matchhere, items, begins_nil]
  | case3 c hc =>
    rw [items, if_neg hc, begins_one]
    cases text with
    | nil => simp [matchhere, hc]
    | cons t text => simp [matchhere, hc, begins_nil]
  | case4 c re ih =>
    have hstar : matchhere (c :: '*' :: re) text = matchstar c (matchhere re) text := by simp [matchhere]
    rw [items, if_pos rfl, begins_cons, hstar, matchstar_iff]
    simp only [ih]
  | case5 c d re hd ih =>
    rw [items, if_neg hd, begins_one]
    cases text with
    | nil => simp [matchhere, hd]
    | cons t text => simp [matchhere, hd, ih]

/-- The loop of `match` tries every suffix. -/
lemma matchSuffix_iff : matchSuffix re text = true ↔ ∃ pre v, text = pre ++ v ∧ matchhere re v = true := by
  induction text with
  | nil =>
    constructor
    · intro h
      exact ⟨[], [], rfl, h⟩
    · rintro ⟨pre, v, hpre, hv⟩
      have hnil : v = [] := (List.append_eq_nil_iff.mp hpre.symm).2
      rwa [matchSuffix, ← hnil]
  | cons t text ih =>
    rw [matchSuffix, Bool.or_eq_true, ih]
    constructor
    · rintro (h | ⟨pre, v, rfl, hv⟩)
      · exact ⟨[], t :: text, rfl, h⟩
      · exact ⟨t :: pre, v, rfl, hv⟩
    · rintro ⟨pre, v, hpre, hv⟩
      cases pre with
      | nil =>
        left
        rw [hpre]
        exact hv
      | cons x pre =>
        right
        injection hpre with _ htext
        exact ⟨pre, v, htext, hv⟩

lemma finds_anchored {p : Anchored} : Finds true p text ↔ Begins p text := by
  constructor
  · rintro ⟨pre, w, post, rfl, hpre, hpost, hw⟩
    exact ⟨w, post, by rw [hpre rfl, List.nil_append], hpost, hw⟩
  · rintro ⟨w, post, rfl, hpost, hw⟩
    exact ⟨[], w, post, rfl, fun _ => rfl, hpost, hw⟩

lemma finds_anywhere {p : Anchored} : Finds false p text ↔ ∃ pre v, text = pre ++ v ∧ Begins p v := by
  constructor
  · rintro ⟨pre, w, post, rfl, _, hpost, hw⟩
    exact ⟨pre, w ++ post, List.append_assoc pre w post, w, post, rfl, hpost, hw⟩
  · rintro ⟨pre, v, rfl, w, post, rfl, hpost, hw⟩
    exact ⟨pre, w, post, (List.append_assoc pre w post).symm, by simp, hpost, hw⟩

/-- `match` returns 1 exactly on the texts that the pattern denotes. -/
theorem matchRe_iff (pattern text : List Char) : matchRe pattern text = true ↔ Denotes pattern text := by
  have hfree : ∀ re, matchSuffix re text = true ↔ Finds false (items re) text := by
    intro re
    simp only [matchSuffix_iff, finds_anywhere, matchhere_iff]
  cases pattern with
  | nil => exact hfree []
  | cons c re =>
    by_cases hc : c = '^'
    · simp [matchRe, Denotes, hc, matchhere_iff, finds_anchored]
    · simpa [matchRe, Denotes, hc] using hfree (c :: re)

end Grep

end Os132.User

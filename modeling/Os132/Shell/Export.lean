import Os132.Shell.Parser
import Os132.Lib.Fields
import Os132.User.Malloc
import Mathlib.Tactic.Common

/-!
# Setting PATH

The branch of `main` for a line that begins with `export PATH`: the text from column 12 on is cut
at the colons by `strtok`, which copies a field into a slot only when it meets the colon after it.
A slot is an array of 100 characters. Behind the tenth slot `*temp` is read from the word after the ten
pointers, which in the first `export` of a shell is not mapped (`malloc_first`).
`none` is a read of that word where it is not mapped, a store or a read through a pointer that leads to no
slot, or a loop that has not ended.
-/

namespace Os132.Shell

/-- `strncpy` into the array `s`: no value if it stores outside the array. -/
def strncpy (s t : List Char) (n : ℕ) : Option (List Char) :=
  if n ≤ s.length then
    some ((cstring t).take n ++ List.replicate (n - ((cstring t).take n).length) NUL ++ s.drop n)
  else none

/-- The loop of `strtok`, with the text from `str[index]` on: where it ends, and whether a delimiter
is there. -/
def findDelim (delimeter : Char) : List Char → ℕ → ℕ × Bool
  | [], index => (index, false)
  | c :: s, index => if c ≠ delimeter then findDelim delimeter s (index + 1) else (index, true)

/-- What `strtok` returns, and what it leaves in `*dest` and `*beginIndex`. -/
structure Tokenized where
  found : Bool
  dest : Option (List Char)
  beginIndex : ℕ

def strtok (dest : Option (List Char)) (s : List Char) (delimeter : Char) (beginIndex : ℕ) : Option Tokenized :=
  if delimeter = NUL then some ⟨false, dest, beginIndex⟩
  else
    let index := findDelim delimeter (s.drop beginIndex) beginIndex
    if index.2 then
      (dest.bind fun d => strncpy d (s.drop beginIndex) (index.1 - beginIndex)).map fun d =>
        ⟨d.headD NUL ≠ NUL, some d, index.1 + 1⟩
    else some ⟨false, dest, index.1 + 1⟩

/-- The slots of PATH, the index of the slot at `temp`, and `*beginIndex`. -/
structure Export where
  slots : List (List Char)
  temp : ℕ
  beginIndex : ℕ

/-- `behind` says whether the word behind the ten pointers is mapped. -/
def exportLoop (behind : Bool) (s : List Char) : ℕ → Export → Option Export
  | 0, _ => none
  | fuel + 1, x =>
    if x.beginIndex < s.length - 1 then
      if x.temp < 10 ∨ behind = true then
        (strtok x.slots[x.temp]? s ':' x.beginIndex).bind fun t =>
          exportLoop behind s fuel
            { slots := t.dest.elim x.slots (x.slots.set x.temp)
              temp := if t.found then x.temp + 1 else x.temp
              beginIndex := t.beginIndex }
      else none
    else some x

/-- `!strncmp(buf,"export PATH",11)`. -/
def isExport (buf : List Char) : Bool :=
  buf.take 11 == ['e', 'x', 'p', 'o', 'r', 't', ' ', 'P', 'A', 'T', 'H']

/-- The ten slots of PATH after the branch. Each pass moves `beginIndex`, so the length of the text
bounds their number. -/
def exportPath (behind : Bool) (buf : List Char) : Option (List (List Char)) :=
  let s := cstring (buf.drop 12)
  (exportLoop behind s (s.length + 1) ⟨List.replicate 10 (List.replicate 100 NUL), 0, 0⟩).map Export.slots

/-- `buf` after `getcmd` has read the line `content` with its newline. -/
def buffer (content : List Char) : List Char := content ++ '\n' :: List.replicate (99 - content.length) NUL

def fields (text : List Char) : List (List Char) := text.splitOn ':'

/-- The fields of a text that a colon follows. -/
def closed (text : List Char) : List (List Char) := Fields.closed ':' text

/-- The field after the last colon. -/
def unclosed (text : List Char) : List Char := Fields.last ':' text

def nonempty (fs : List (List Char)) : List (List Char) := fs.filter (· ≠ [])

/-- Strings put into ten slots. -/
def tenSlots (fs : List (List Char)) : List (List Char) := fs ++ List.replicate (10 - fs.length) []

/-- The branch comes to its end with the non-empty fields of the line in the slots, at most ten of them. -/
def SetsPath (behind : Bool) (content : List Char) : Prop :=
  ∃ slots, exportPath behind (buffer content) = some slots ∧
    slots.map cstring = tenSlots ((nonempty (fields (content.drop 12))).take 10)

variable {c : Char} {f r s t pre text : List Char} {fs done : List (List Char)} {i k n fuel : ℕ} {behind : Bool}

lemma cstring_padded (h : NUL ∉ f) : cstring (f ++ List.replicate k NUL) = f := by
  have hf : ∀ x ∈ f, x ≠ NUL := fun x hx hn => h (hn ▸ hx)
  rw [cstring, List.takeWhile_append_of_pos (by simpa using hf)]
  cases k <;> simp [List.replicate_succ]

lemma findDelim_hit (h : c ∉ f) : findDelim c (f ++ c :: t) i = (i + f.length, true) := by
  induction f generalizing i with
  | nil => simp [findDelim]
  | cons d f ih =>
    have hd : d ≠ c := fun hd => h (hd ▸ List.mem_cons_self)
    rw [List.cons_append, findDelim, if_pos hd, ih (fun hf => h (List.mem_cons_of_mem d hf)), List.length_cons]
    congr 1
    omega

lemma findDelim_miss (h : c ∉ t) : findDelim c t i = (i + t.length, false) := by
  induction t generalizing i with
  | nil => simp [findDelim]
  | cons d t ih =>
    have hd : d ≠ c := fun hd => h (hd ▸ List.mem_cons_self)
    rw [findDelim, if_pos hd, ih (fun ht => h (List.mem_cons_of_mem d ht)), List.length_cons]
    congr 1
    omega

lemma closed_hit (h : ':' ∉ f) : closed (f ++ ':' :: r) = f :: closed r := Fields.closed_append h

lemma closed_miss (h : ':' ∉ text) : closed text = [] := Fields.closed_of_notMem h

lemma nonempty_fields : nonempty (fields text) = nonempty (closed text) ++ nonempty [unclosed text] := by
  rw [fields, Fields.splitOn_eq, nonempty, List.filter_append]
  rfl

/-- A field is copied into a slot that is there: fewer than ten were filled before it. -/
def Fits : ℕ → List (List Char) → Prop
  | _, [] => True
  | k, f :: fs => k < 10 ∧ Fits (if f = [] then k else k + 1) fs

lemma nonempty_cons : nonempty (f :: fs) = if f = [] then nonempty fs else f :: nonempty fs := by
  by_cases hf : f = [] <;> simp [nonempty, hf]

lemma fits_iff (hk : k ≤ 10) : Fits k fs ↔ fs = [] ∨ k + (nonempty fs.dropLast).length < 10 := by
  induction fs generalizing k with
  | nil => simp [Fits]
  | cons f fs ih =>
    rw [Fits]
    cases fs with
    | nil => simp [Fits, nonempty]
    | cons g fs =>
      rw [List.dropLast_cons_of_ne_nil (by simp), nonempty_cons]
      by_cases hf : f = []
      · have := ih hk
        simp only [hf, if_true, this]
        simp
        omega
      · by_cases hlt : k < 10
        · have := ih (show k + 1 ≤ 10 by omega)
          simp only [hf, if_false, this]
          simp
          omega
        · simp [hlt, hf]
          omega

lemma Fits.length (h : Fits k fs) (hk : k ≤ 10) : k + (nonempty fs).length ≤ 10 := by
  induction fs generalizing k with
  | nil => simpa [nonempty] using hk
  | cons f fs ih =>
    rw [nonempty_cons]
    by_cases hf : f = []
    · have := h.2
      rw [if_pos hf] at this ⊢
      exact ih this hk
    · have := h.2
      rw [if_neg hf] at this
      rw [if_neg hf, List.length_cons]
      have := ih this h.1
      omega

/-- No word behind the pointers is read unless it is mapped: the text ends with its last colon, or a slot is left
then, or the word may be read. -/
def Reads (behind : Bool) (k : ℕ) (text : List Char) : Prop :=
  Fits k (closed text) ∧ (unclosed text = [] ∨ k + (nonempty (closed text)).length < 10 ∨ behind = true)

lemma reads_hit (hf : ':' ∉ f) :
    Reads behind k (f ++ ':' :: r) ↔ k < 10 ∧ Reads behind (if f = [] then k else k + 1) r := by
  have hlast : unclosed (f ++ ':' :: r) = unclosed r := Fields.last_append hf
  have hcount : k + (nonempty (f :: closed r)).length = (if f = [] then k else k + 1) + (nonempty (closed r)).length := by
    rw [nonempty_cons]
    split_ifs with hnil
    · rfl
    · rw [List.length_cons]
      omega
  rw [Reads, Reads, closed_hit hf, hlast, hcount, Fits, and_assoc]

lemma reads_miss (h : ':' ∉ text) : Reads behind k text ↔ text = [] ∨ k < 10 ∨ behind = true := by
  have hlast : unclosed text = text := Fields.last_of_notMem h
  rw [Reads, closed_miss h, hlast]
  simp [Fits, nonempty]

/-- An array of 100 characters with a string in it. -/
def slot (f : List Char) : List Char := f ++ List.replicate (100 - f.length) NUL

/-- The slots when the strings of `done` have been copied. -/
def filled (done : List (List Char)) : List (List Char) :=
  done.map slot ++ List.replicate (10 - done.length) (slot [])

lemma filled_get (h : done.length < 10) : (filled done)[done.length]? = some (slot []) := by
  have hlt : done.length - (done.map slot).length < 10 - done.length := by
    rw [List.length_map]
    omega
  rw [filled, List.getElem?_append_right (by simp), List.getElem?_replicate, if_pos hlt]

lemma filled_full (h : ¬ done.length < 10) : (filled done)[done.length]? = none := by
  rw [filled, List.getElem?_append_right (by simp)]
  simp
  omega

lemma filled_set (h : done.length < 10) : (filled done).set done.length (slot f) = filled (done ++ [f]) := by
  obtain ⟨j, hj⟩ : ∃ j, 10 - done.length = j + 1 := ⟨9 - done.length, by omega⟩
  have hlen : 10 - (done ++ [f]).length = j := by
    rw [List.length_append, List.length_singleton]
    omega
  rw [filled, filled, hlen, hj, List.set_append_right _ _ (by simp)]
  simp [List.replicate_succ]

lemma filled_set_nil (h : done.length < 10) : (filled done).set done.length (slot []) = filled done := by
  apply List.ext_getElem?
  intro i
  rw [List.getElem?_set]
  split_ifs with hi hlt
  · rw [← hi, filled_get h]
  · rw [← hi, List.getElem?_eq_none (by omega)]
  · rfl

lemma strncpy_slot (hf : NUL ∉ f) (hlen : f.length ≤ 100) :
    strncpy (slot []) (f ++ c :: t) f.length = some (slot f) := by
  have hpos : ∀ x ∈ f, decide (x ≠ NUL) = true := by
    intro x hx
    exact decide_eq_true fun hn => hf (hn ▸ hx)
  have htake : (cstring (f ++ c :: t)).take f.length = f := by
    rw [cstring, List.takeWhile_append_of_pos hpos, List.take_left]
  have hfit : f.length ≤ (slot []).length := by simpa [slot] using hlen
  rw [strncpy, htake, if_pos hfit, slot, slot, List.nil_append, List.length_nil, Nat.sub_zero,
    List.drop_replicate, Nat.sub_self, List.replicate_zero, List.append_nil]

lemma headD_slot (hf : NUL ∉ f) : ((slot f).headD NUL ≠ NUL) ↔ f ≠ [] := by
  cases f with
  | nil => simp [slot, List.replicate_succ]
  | cons d f =>
    have hd : d ≠ NUL := fun hd => hf (hd ▸ List.mem_cons_self)
    simp [slot, hd]

/-- A pass that meets a colon, with a slot for the field before it. -/
lemma exportLoop_hit (fuel : ℕ) (hs : s = pre ++ (f ++ ':' :: (r ++ ['\n']))) (hf : ':' ∉ f) (hnul : NUL ∉ f)
    (hlen : f.length ≤ 100) (hd : done.length < 10) :
    exportLoop behind s (fuel + 1) ⟨filled done, done.length, pre.length⟩ =
      exportLoop behind s fuel ⟨filled (if f = [] then done else done ++ [f]),
        (if f = [] then done else done ++ [f]).length, (pre ++ (f ++ [':'])).length⟩ := by
  have hdrop : s.drop pre.length = f ++ ':' :: (r ++ ['\n']) := by rw [hs, List.drop_left]
  have hlt : pre.length < s.length - 1 := by
    rw [hs]
    simp
    omega
  have hsub : pre.length + f.length - pre.length = f.length := Nat.add_sub_cancel_left _ _
  rw [exportLoop, if_pos hlt, if_pos (Or.inl hd), filled_get hd, strtok, if_neg (by decide), hdrop, findDelim_hit hf]
  simp only [if_true, Option.bind_some, hsub, strncpy_slot hnul hlen, Option.map_some, Option.elim]
  by_cases hnil : f = []
  · have hfound : ¬ ((slot f).headD NUL ≠ NUL) := fun h => (headD_slot hnul).mp h hnil
    rw [decide_eq_false hfound, if_pos hnil, hnil, filled_set_nil hd]
    simp
  · have hfound : (slot f).headD NUL ≠ NUL := (headD_slot hnul).mpr hnil
    simp only [decide_eq_true hfound, if_neg hnil, filled_set hd]
    simp [Nat.add_assoc]

lemma exportLoop_full (hs : s = pre ++ (f ++ ':' :: (r ++ ['\n']))) (hf : ':' ∉ f)
    (hd : ¬ done.length < 10) :
    exportLoop behind s (fuel + 1) ⟨filled done, done.length, pre.length⟩ = none := by
  have hdrop : s.drop pre.length = f ++ ':' :: (r ++ ['\n']) := by rw [hs, List.drop_left]
  have hlt : pre.length < s.length - 1 := by
    rw [hs]
    simp
    omega
  rw [exportLoop, if_pos hlt]
  split_ifs with hload
  · rw [filled_full hd, strtok, if_neg (by decide), hdrop, findDelim_hit hf]
    rfl
  · rfl

lemma exportLoop_unmapped (hs : s = pre ++ (r ++ ['\n'])) (hne : r ≠ []) (hd : ¬ (done.length < 10 ∨ behind = true)) :
    exportLoop behind s (fuel + 1) ⟨filled done, done.length, pre.length⟩ = none := by
  have hpos : 0 < r.length := List.length_pos_iff.mpr hne
  have hlt : pre.length < s.length - 1 := by
    rw [hs]
    simp
    omega
  rw [exportLoop, if_pos hlt, if_neg hd]

/-- A pass that meets no colon is the last one. -/
lemma exportLoop_miss (fuel : ℕ) (x : Export) (hs : s = pre ++ (r ++ ['\n'])) (hr : ':' ∉ r) (hne : r ≠ [])
    (hx : x.beginIndex = pre.length) (hd : x.temp < 10 ∨ behind = true) :
    ∃ y, exportLoop behind s (fuel + 2) x = some y ∧ y.slots = x.slots := by
  have hdrop : s.drop x.beginIndex = r ++ ['\n'] := by rw [hx, hs, List.drop_left]
  have hpos : 0 < r.length := List.length_pos_iff.mpr hne
  have hlt : x.beginIndex < s.length - 1 := by
    rw [hs, hx]
    simp
    omega
  have hmiss : ':' ∉ r ++ ['\n'] := by simp [hr]
  rw [exportLoop, if_pos hlt, if_pos hd, strtok, if_neg (by decide), hdrop, findDelim_miss hmiss]
  simp only [Bool.false_eq_true, if_false, Option.bind_some]
  rw [exportLoop, if_neg (by rw [hs, hx]; simp; omega)]
  refine ⟨_, rfl, ?_⟩
  cases h : x.slots[x.temp]? with
  | none => rfl
  | some d =>
    apply List.ext_getElem?
    intro i
    simp only [Option.elim, List.getElem?_set]
    split_ifs with hi hlt
    · rw [← hi, h]
    · rw [← hi, List.getElem?_eq_none (by omega)]
    · rfl

/-- The loop copies the non-empty fields with a colon after them, one after the other. -/
lemma exportLoop_spec (n : ℕ) : ∀ r pre done, r.length ≤ n → s = pre ++ (r ++ ['\n']) → NUL ∉ r →
    r.length ≤ 100 → done.length ≤ 10 → ∀ fuel, r.length < fuel →
    (Reads behind done.length r → ∃ x, exportLoop behind s fuel ⟨filled done, done.length, pre.length⟩ = some x ∧
      x.slots = filled (done ++ nonempty (closed r))) ∧
    (¬ Reads behind done.length r → exportLoop behind s fuel ⟨filled done, done.length, pre.length⟩ = none) := by
  induction n with
  | zero =>
    intro r pre done hn hs _ _ _ fuel hfuel
    obtain ⟨fuel, rfl⟩ := Nat.exists_eq_add_of_lt hfuel
    have hr : r = [] := List.length_eq_zero_iff.mp (by omega)
    have hend : ¬ pre.length < s.length - 1 := by
      rw [hs, hr]
      simp
    have hclosed : closed r = [] := closed_miss (by simp [hr])
    rw [hclosed]
    refine ⟨fun _ => ⟨_, by rw [exportLoop, if_neg hend], ?_⟩, fun h => absurd ?_ h⟩
    · simp [nonempty]
    · exact (reads_miss (by simp [hr])).mpr (Or.inl hr)
  | succ n ih =>
    intro r pre done hn hs hnul hlen hd fuel hfuel
    by_cases hc : ':' ∈ r
    · obtain ⟨f, r', rfl, hf⟩ := List.eq_append_cons_of_mem hc
      have hs' : s = pre ++ (f ++ ':' :: (r' ++ ['\n'])) := by rw [hs, List.append_assoc, List.cons_append]
      have hnulf : NUL ∉ f := fun h => hnul (List.mem_append_left _ h)
      have hnulr : NUL ∉ r' := fun h => hnul (List.mem_append_right f (List.mem_cons_of_mem ':' h))
      rw [List.length_append, List.length_cons] at hn hlen hfuel
      obtain ⟨fuel, rfl⟩ := Nat.exists_eq_add_of_lt (Nat.zero_lt_of_lt hfuel)
      rw [closed_hit hf, reads_hit hf, Nat.zero_add]
      by_cases hten : done.length < 10
      · have hdone : (if f = [] then done else done ++ [f]).length = if f = [] then done.length else done.length + 1 := by
          split_ifs <;> simp
        have hstep : exportLoop behind s (fuel + 1) ⟨filled done, done.length, pre.length⟩ = _ :=
          exportLoop_hit fuel hs' hf hnulf (by omega) hten
        have hrest := ih r' (pre ++ (f ++ [':'])) (if f = [] then done else done ++ [f]) (by omega)
          (by rw [hs']; simp) hnulr (by omega) (by rw [hdone]; split_ifs <;> omega) fuel (by omega)
        rw [hdone] at hrest hstep
        have hmore : (if f = [] then done else done ++ [f]) ++ nonempty (closed r') =
            done ++ nonempty (f :: closed r') := by
          rw [nonempty_cons]
          split_ifs <;> simp
        rw [hmore] at hrest
        rw [hstep]
        exact ⟨fun h => hrest.1 h.2, fun h => hrest.2 fun hreads => h ⟨hten, hreads⟩⟩
      · exact ⟨fun h => absurd h.1 hten, fun _ => exportLoop_full hs' hf hten⟩
    · rw [closed_miss hc, reads_miss hc]
      by_cases hnil : r = []
      · have hend : ¬ pre.length < s.length - 1 := by
          rw [hs, hnil]
          simp
        obtain ⟨fuel, rfl⟩ := Nat.exists_eq_add_of_lt (Nat.zero_lt_of_lt hfuel)
        exact ⟨fun _ => ⟨_, by rw [exportLoop, if_neg hend], by simp [nonempty]⟩, fun h => absurd (Or.inl hnil) h⟩
      · have hpos : 0 < r.length := List.length_pos_iff.mpr hnil
        obtain ⟨fuel, rfl⟩ : ∃ k, fuel = k + 2 := ⟨fuel - 2, by omega⟩
        refine ⟨fun h => ?_, fun h => exportLoop_unmapped hs hnil fun hd => h (Or.inr hd)⟩
        obtain ⟨x, hx, hslots⟩ :=
          exportLoop_miss fuel ⟨filled done, done.length, pre.length⟩ hs hc hnil rfl (h.resolve_left hnil)
        exact ⟨x, hx, by simpa [nonempty] using hslots⟩

lemma cstring_slots (h : ∀ f ∈ fs, NUL ∉ f) : (filled fs).map cstring = tenSlots fs := by
  have hnil : cstring (slot []) = [] := cstring_padded (by simp)
  have hmap : (fs.map slot).map cstring = fs := by
    rw [List.map_map]
    conv_rhs => rw [← List.map_id fs]
    apply List.map_congr_left
    intro f hf
    exact cstring_padded (h f hf)
  rw [filled, List.map_append, hmap, List.map_replicate, hnil, tenSlots]

/-- The strings in the slots are the wanted ones when no field is left out, or ten are there already. -/
lemma tenSlots_eq_iff (h : (nonempty (closed text)).length ≤ 10) :
    tenSlots (nonempty (closed text)) = tenSlots ((nonempty (fields text)).take 10) ↔
      unclosed text = [] ∨ (nonempty (closed text)).length = 10 := by
  rw [nonempty_fields]
  by_cases hu : unclosed text = []
  · have hnone : nonempty [unclosed text] = [] := by simp [nonempty, hu]
    rw [hnone, List.append_nil, List.take_of_length_le h]
    simp [hu]
  · have hone : nonempty [unclosed text] = [unclosed text] := by simp [nonempty, hu]
    rw [hone]
    by_cases hten : (nonempty (closed text)).length = 10
    · rw [← hten, List.take_left]
      simp
    · have hall : (nonempty (closed text) ++ [unclosed text]).take 10 = nonempty (closed text) ++ [unclosed text] := by
        apply List.take_of_length_le
        rw [List.length_append, List.length_singleton]
        omega
      rw [hall]
      refine iff_of_false ?_ (by simp [hu, hten])
      intro heq
      have hget := congrArg (fun l => l[(nonempty (closed text)).length]?) heq
      simp only [tenSlots, List.append_assoc] at hget
      rw [List.getElem?_append_right (Nat.le_refl _), List.getElem?_append_right (Nat.le_refl _), Nat.sub_self,
        List.getElem?_replicate, if_pos (by omega)] at hget
      simp at hget
      exact hu hget

lemma cstring_buffer (hnul : NUL ∉ text) (hlen : 12 ≤ text.length) :
    cstring ((buffer text).drop 12) = text.drop 12 ++ ['\n'] := by
  have hdrop : (buffer text).drop 12 = (text.drop 12 ++ ['\n']) ++ List.replicate (99 - text.length) NUL := by
    rw [buffer, List.drop_append_of_le_length hlen]
    simp
  have hno : NUL ∉ text.drop 12 ++ ['\n'] := by
    simp only [List.mem_append, List.mem_singleton, not_or]
    exact ⟨fun h => hnul (List.mem_of_mem_drop h), by decide⟩
  rw [hdrop, cstring_padded hno]

lemma filled_start : List.replicate 10 (List.replicate 100 NUL) = filled [] := rfl

lemma length_of_isExport (h : isExport (buffer text) = true) : 11 ≤ text.length := by
  by_contra hlt
  have htake : (buffer text).take 11 = ['e', 'x', 'p', 'o', 'r', 't', ' ', 'P', 'A', 'T', 'H'] := by
    simpa [isExport] using h
  have hnl : (buffer text)[text.length]? = some '\n' := by
    rw [buffer, List.getElem?_append_right (Nat.le_refl _), Nat.sub_self]
    rfl
  have hmem : '\n' ∈ (buffer text).take 11 := by
    rw [List.mem_take_iff_getElem]
    obtain ⟨hl, hget⟩ := List.getElem?_eq_some_iff.mp hnl
    exact ⟨text.length, by omega, hget⟩
  rw [htake] at hmem
  exact absurd hmem (by decide)

/-- What the branch leaves in the slots, if it does not follow a pointer that leads to none. -/
lemma exportPath_spec (h11 : 11 ≤ text.length) (hlen : text.length < 99) (hnul : NUL ∉ text) :
    (Reads behind 0 (text.drop 12) →
      exportPath behind (buffer text) = some (filled (nonempty (closed (text.drop 12))))) ∧
    (¬ Reads behind 0 (text.drop 12) → exportPath behind (buffer text) = none) := by
  by_cases h12 : 12 ≤ text.length
  · have hstr := cstring_buffer hnul h12
    have hr : (text.drop 12).length ≤ 100 := by
      rw [List.length_drop]
      omega
    obtain ⟨hfits, hnot⟩ := @exportLoop_spec (text.drop 12 ++ ['\n']) behind _ (text.drop 12) [] [] (Nat.le_refl _) rfl
      (fun h => hnul (List.mem_of_mem_drop h)) hr (by simp) ((text.drop 12 ++ ['\n']).length + 1)
      (by rw [List.length_append, List.length_singleton]; omega)
    constructor
    · intro h
      obtain ⟨x, hx, hslots⟩ := hfits h
      rw [exportPath, hstr, filled_start]
      exact Option.map_eq_some_iff.mpr ⟨x, hx, by simpa using hslots⟩
    · intro h
      rw [exportPath, hstr, filled_start]
      exact Option.map_eq_none_iff.mpr (hnot h)
  · have hdrop : text.drop 12 = [] := List.drop_eq_nil_of_le (by omega)
    have hstr : cstring ((buffer text).drop 12) = [] := by
      have hbuf : (buffer text).drop 12 = List.replicate (99 - text.length) NUL := by
        have h1 : 12 - text.length = 1 := by omega
        rw [buffer, List.drop_append, hdrop, h1]
        rfl
      rw [hbuf, ← List.nil_append (List.replicate (99 - text.length) NUL), cstring_padded (by simp)]
    have hclosed : closed (text.drop 12) = [] := by rw [hdrop, closed_miss (by simp)]
    rw [hclosed]
    refine ⟨fun _ => ?_, fun h => absurd ((reads_miss (by simp [hdrop])).mpr (Or.inl hdrop)) h⟩
    rw [exportPath, hstr]
    rfl

section

variable {base p : ℕ} {h : User.Heap}

/-- A block of 4096 headers freed into a list of the static header alone. -/
lemma free_first (hfreep : h.freep = base) (hptr : h.ptr base = base) (hbase : h.size base = 0) (hsize : h.size p = 4096)
    (hlt : base < p) (hend : p + 32768 < User.WORD) :
    User.free (fuel + 1) h (User.plus p 1) = some (((h.setPtr p base).setPtr base p).setFreep base) := by
  have hplus : User.plus p 1 - User.HEADER = p := by
    simp only [User.plus, User.HEADER, User.WORD] at hend ⊢
    omega
  have hupper : User.plus p 4096 ≠ base := by
    simp only [User.plus, User.HEADER, User.WORD] at hend ⊢
    omega
  have hlower : User.plus base 0 ≠ p := by
    simp only [User.plus, User.HEADER, User.WORD] at hend ⊢
    omega
  have hslot : User.findSlot h p (fuel + 1) base = some base := by
    rw [User.findSlot, hptr, if_neg (by omega), if_pos ⟨Nat.le_refl _, Or.inl hlt⟩]
  have hup : User.joinUpper h p base = h.setPtr p base := by
    rw [User.joinUpper, hsize, hptr, if_neg hupper]
  have hlow : User.joinLower (h.setPtr p base) p base = (h.setPtr p base).setPtr base p := by
    rw [User.joinLower, show (h.setPtr p base).size base = 0 from hbase, if_neg hlower]
  simp only [User.free, hplus, hfreep, hslot, Option.map_some, hup, hlow]

/-- In the first `export` of a shell the ten pointers are the end of what `sbrk` gave. -/
lemma malloc_first {sbrk : ℕ → ℕ → Option ℕ} (hfirst : h.freep = 0) (hbase : 0 < base) (hlt : base < p)
    (hend : p + 32768 < User.WORD) (hgive : sbrk 0 32768 = some p) :
    ∃ h' a, User.malloc base (fuel + 3) h sbrk 40 = some (h', a) ∧ a + 10 * 4 = p + 32768 := by
  have hmake : User.makeBase base h = ((h.setPtr base base).setFreep base).setSize base 0 := if_pos hfirst
  have hmore : ∃ g, User.morecore (fuel + 2) (((h.setPtr base base).setFreep base).setSize base 0) (sbrk 0) 6 =
      some (g, base) ∧ g.ptr base = p ∧ g.size p = 4096 := by
    simp only [User.morecore, show User.request 6 = 4096 from rfl, show 4096 * User.HEADER % User.WORD = 32768 from rfl, hgive]
    rw [free_first (show User.Heap.freep _ = base from rfl) (by simp [User.Heap.setPtr, User.Heap.setFreep, User.Heap.setSize])
      (by simp [User.Heap.setPtr, User.Heap.setFreep, User.Heap.setSize, Function.update_of_ne (Nat.ne_of_lt hlt)])
      (by simp [User.Heap.setSize]) hlt hend]
    refine ⟨_, rfl, ?_, ?_⟩
    · simp [User.Heap.setPtr, User.Heap.setFreep, User.Heap.setSize]
    · simp [User.Heap.setPtr, User.Heap.setFreep, User.Heap.setSize]
  obtain ⟨g, hg, hptr, hsize⟩ := hmore
  have hend' : User.plus (User.plus p 4090) 1 = p + 32728 := by
    simp only [User.plus, User.HEADER, User.WORD] at hend ⊢
    omega
  have hcarve : (User.carve g 6 base p).2 = p + 32728 := by
    rw [User.carve, hsize, if_neg (by decide)]
    simpa [User.Heap.setSize] using hend'
  refine ⟨(User.carve g 6 base p).1, p + 32728, ?_, rfl⟩
  rw [User.malloc, hmake]
  change User.mallocLoop 6 sbrk (fuel + 3) 0 _ base _ = _
  rw [User.mallocLoop, if_neg (by simp [User.Heap.setPtr, User.Heap.setFreep, User.Heap.setSize]),
    if_pos (by simp [User.Heap.setPtr, User.Heap.setFreep, User.Heap.setSize]), hg, Option.bind_some,
    if_neg (Nat.ne_of_gt hbase), User.mallocLoop, hptr, if_pos (by rw [hsize]; decide), ← hcarve]

end

/-- `export PATH` sets PATH as it should exactly if no colon comes after ten fields have been copied,
and the last field has a colon after it or is not wanted, the eleventh, where the word behind PATH may be read. -/
theorem exportPath_iff (behind : Bool) (content : List Char) (hlen : content.length < 99)
    (hexp : isExport (buffer content) = true) (hnul : NUL ∉ content) :
    SetsPath behind content ↔ (nonempty (closed (content.drop 12)).dropLast).length < 10 ∧
      (unclosed (content.drop 12) = [] ∨
        behind = true ∧ (nonempty (closed (content.drop 12))).length = 10) := by
  obtain ⟨hreads, hnot⟩ : (Reads behind 0 (content.drop 12) → _) ∧ _ := exportPath_spec (length_of_isExport hexp) hlen hnul
  have hiff : Fits 0 (closed (content.drop 12)) ↔ (nonempty (closed (content.drop 12)).dropLast).length < 10 := by
    rw [fits_iff (by decide), Nat.zero_add]
    constructor
    · rintro (h | h)
      · simp [h, nonempty]
      · exact h
    · exact Or.inr
  have hnulf : ∀ f ∈ nonempty (closed (content.drop 12)), NUL ∉ f := by
    intro f hf hn
    exact hnul (List.mem_of_mem_drop (Fields.mem_of_mem_closed (List.mem_of_mem_filter hf) hn))
  rw [← hiff]
  by_cases h : Reads behind 0 (content.drop 12)
  · have hten := h.1.length (by decide)
    rw [Nat.zero_add] at hten
    have hset : SetsPath behind content ↔
        unclosed (content.drop 12) = [] ∨ (nonempty (closed (content.drop 12))).length = 10 := by
      rw [← tenSlots_eq_iff hten, ← cstring_slots hnulf, SetsPath, hreads h]
      simp
    obtain ⟨hfits, hload⟩ := h
    rw [hset]
    constructor
    · rintro (hu | hfull)
      · exact ⟨hfits, Or.inl hu⟩
      · rcases hload with hu | hlt | hb
        · exact ⟨hfits, Or.inl hu⟩
        · omega
        · exact ⟨hfits, Or.inr ⟨hb, hfull⟩⟩
    · rintro ⟨-, hu | ⟨-, hfull⟩⟩
      · exact Or.inl hu
      · exact Or.inr hfull
  · have hset : ¬ SetsPath behind content := by
      rintro ⟨slots, hsome, -⟩
      rw [hnot h] at hsome
      cases hsome
    refine iff_of_false hset fun hcond => h ⟨hcond.1, ?_⟩
    rcases hcond.2 with hu | ⟨hb, -⟩
    · exact Or.inl hu
    · exact Or.inr (Or.inr hb)

theorem exportPath_iff_bin : SetsPath false "export PATH /:/bin/:".toList := by
  have htext : "export PATH /:/bin/:".toList.drop 12 = ['/'] ++ ':' :: (['/', 'b', 'i', 'n', '/'] ++ ':' :: []) := rfl
  refine (exportPath_iff false "export PATH /:/bin/:".toList (by decide) (by decide) (by decide)).mpr ?_
  rw [htext, closed_hit (by decide), closed_hit (by decide), closed_miss (by simp)]
  refine ⟨by decide, Or.inl ?_⟩
  rw [unclosed, Fields.last_append (by decide), Fields.last_append (by decide), Fields.last_of_notMem (by simp)]

/-- Without a colon at the end the last directory is lost. -/
theorem exportPath_drops_last : ¬ ∀ (behind : Bool) (content : List Char), content.length < 99 →
    isExport (buffer content) = true → NUL ∉ content → SetsPath behind content := by
  intro h
  obtain ⟨slots, hslots, hstr⟩ := h false "export PATH /bin/".toList (by decide) (by decide) (by decide)
  have hempty : exportPath false (buffer "export PATH /bin/".toList) = some (filled []) := by decide
  have hbin : (nonempty (fields ("export PATH /bin/".toList.drop 12))).take 10 = ["/bin/".toList] := by
    rw [fields, List.splitOn_eq_singleton (by decide)]
    decide
  rw [hempty] at hslots
  injection hslots with hslots
  rw [← hslots, hbin] at hstr
  exact absurd hstr (by decide)

end Os132.Shell

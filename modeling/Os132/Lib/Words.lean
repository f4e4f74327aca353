import Mathlib.Tactic.Common
import Mathlib.Data.BitVec

/-!
# Words in a byte memory

A 32-bit little-endian byte memory with loads and stores of words, and stacks that grow
downwards in it. `Holds m a ws`: the words of `ws` lie one above the other from `a` on. A push
puts a word in front of the list, a pop takes one off, and a change of bytes outside the list
leaves it.
-/

namespace Words

abbrev Word := BitVec 32

abbrev ByteMem := Word → BitVec 8

/-- The four bytes from `a` on, the lowest first. -/
def load (m : ByteMem) (a : Word) : Word := m (a + 3#32) ++ m (a + 2#32) ++ m (a + 1#32) ++ m a

def store (m : ByteMem) (a v : Word) : ByteMem := fun x =>
  if (x - a).toNat < 4 then v.extractLsb' (8 * (x - a).toNat) 8 else m x

/-- The addresses of the `n` bytes from `a` on, which may go round the end of the memory. -/
def Within (a : Word) (n : ℕ) (x : Word) : Prop := (x - a).toNat < n

instance (a : Word) (n : ℕ) (x : Word) : Decidable (Within a n x) := inferInstanceAs (Decidable (_ < _))

/-- The two memories agree outside `A`. -/
def Frame (A : Word → Prop) (m m' : ByteMem) : Prop := ∀ x, ¬ A x → m' x = m x

/-- The words of the list lie one above the other from `a` on. -/
def Holds (m : ByteMem) : Word → List Word → Prop
  | _, [] => True
  | a, w :: ws => load m a = w ∧ Holds m (a + 4#32) ws

instance instDecidableHolds (m : ByteMem) : (a : Word) → (ws : List Word) → Decidable (Holds m a ws)
  | _, [] => isTrue trivial
  | a, _ :: ws => @instDecidableAnd _ _ (inferInstanceAs (Decidable (_ = _))) (instDecidableHolds m (a + 4#32) ws)

variable {m m' m'' : ByteMem} {a b v w x : Word} {ws vs : List Word} {A B : Word → Prop} {n k : ℕ}

lemma bytes_eq (v : Word) :
    v.extractLsb' 24 8 ++ v.extractLsb' 16 8 ++ v.extractLsb' 8 8 ++ v.extractLsb' 0 8 = v := by
  rw [BitVec.extractLsb'_append_extractLsb'_eq_extractLsb' (by rfl),
    BitVec.extractLsb'_append_extractLsb'_eq_extractLsb' (by rfl),
    BitVec.extractLsb'_append_extractLsb'_eq_extractLsb' (by rfl)]
  exact BitVec.extractLsb'_eq_self

lemma offset_toNat (hk : k < 2 ^ 32) : (a + BitVec.ofNat 32 k - a).toNat = k := by
  simp only [BitVec.toNat_sub, BitVec.toNat_add, BitVec.toNat_ofNat]
  have := a.isLt
  omega

lemma store_byte (hk : k < 4) : store m a v (a + BitVec.ofNat 32 k) = v.extractLsb' (8 * k) 8 := by
  have h := offset_toNat (a := a) (show k < 2 ^ 32 by omega)
  simp only [store, h, hk, if_true]

lemma store_frame : Frame (Within a 4) m (store m a v) := by
  intro x hx
  simp only [Within] at hx
  simp only [store, hx, if_false]

@[simp] lemma load_store_same : load (store m a v) a = v := by
  have h0 := store_byte (m := m) (a := a) (v := v) (k := 0) (by decide)
  have h1 := store_byte (m := m) (a := a) (v := v) (k := 1) (by decide)
  have h2 := store_byte (m := m) (a := a) (v := v) (k := 2) (by decide)
  have h3 := store_byte (m := m) (a := a) (v := v) (k := 3) (by decide)
  rw [BitVec.add_zero] at h0
  simp only [load, h0, h1, h2, h3]
  exact bytes_eq v

lemma load_congr (h : ∀ x, Within a 4 x → m' x = m x) : load m' a = load m a := by
  have at' : ∀ k < 4, Within a 4 (a + BitVec.ofNat 32 k) := by
    intro k hk
    rwa [Within, offset_toNat (by omega)]
  have h0 := h _ (at' 0 (by decide))
  have h1 := h _ (at' 1 (by decide))
  have h2 := h _ (at' 2 (by decide))
  have h3 := h _ (at' 3 (by decide))
  rw [BitVec.add_zero] at h0
  simp only [load, h0, h1, h2, h3]

/-! ### Frames -/

lemma Frame.refl : Frame A m m := fun _ _ => rfl

lemma Frame.mono (h : Frame A m m') (hA : ∀ x, A x → B x) : Frame B m m' :=
  fun x hx => h x fun ha => hx (hA x ha)

lemma Frame.trans (h : Frame A m m') (h' : Frame A m' m'') : Frame A m m'' :=
  fun x hx => (h' x hx).trans (h x hx)

lemma Frame.load (h : Frame A m m') (ha : ∀ x, Within a 4 x → ¬ A x) : load m' a = load m a :=
  load_congr fun x hx => h x (ha x hx)

/-! ### Stacks -/

lemma within_iff (h : a.toNat + n ≤ 2 ^ 32) : Within a n x ↔ a.toNat ≤ x.toNat ∧ x.toNat < a.toNat + n := by
  have := a.isLt
  have := x.isLt
  simp only [Within, BitVec.toNat_sub]
  omega

lemma sub_toNat (h : a.toNat ≤ x.toNat) : (x - a).toNat = x.toNat - a.toNat := by
  have := x.isLt
  rw [BitVec.toNat_sub]
  omega

lemma within_head (hn : 4 ≤ n) (h : Within a 4 x) : Within a n x := lt_of_lt_of_le h hn

lemma within_tail (hn : n + 4 ≤ 2 ^ 32) (h : Within (a + 4#32) n x) : Within a (n + 4) x := by
  simp only [Within, BitVec.toNat_sub, BitVec.toNat_add, BitVec.toNat_ofNat] at h ⊢
  have := a.isLt
  have := x.isLt
  omega

lemma Holds.congr (hn : 4 * ws.length ≤ 2 ^ 32) (h : Holds m a ws)
    (hm : ∀ x, Within a (4 * ws.length) x → m' x = m x) : Holds m' a ws := by
  induction ws generalizing a with
  | nil => trivial
  | cons w ws ih =>
    simp only [List.length_cons] at hn hm
    refine ⟨?_, ih (by omega) h.2 fun x hx => hm x ?_⟩
    · rw [load_congr fun x hx => hm x (within_head (by omega) hx)]
      exact h.1
    · rw [Nat.mul_add]
      exact within_tail (by omega) hx

lemma Holds.frame (hf : Frame A m m') (hn : 4 * ws.length ≤ 2 ^ 32) (h : Holds m a ws)
    (ha : ∀ x, Within a (4 * ws.length) x → ¬ A x) : Holds m' a ws :=
  h.congr hn fun x hx => hf x (ha x hx)

lemma Holds.push (hn : 4 * (ws.length + 1) ≤ 2 ^ 32) (h : Holds m a ws) :
    Holds (store m (a - 4#32) v) (a - 4#32) (v :: ws) := by
  refine ⟨load_store_same, ?_⟩
  rw [BitVec.sub_add_cancel]
  refine h.frame store_frame (by omega) fun x hx hlow => ?_
  simp only [Within, BitVec.toNat_sub, BitVec.toNat_ofNat] at hx hlow
  have := a.isLt
  have := x.isLt
  omega

lemma Holds.tail (h : Holds m a (w :: ws)) : Holds m (a + 4#32) ws := h.2

lemma Holds.head (h : Holds m a (w :: ws)) : load m a = w := h.1

lemma holds_append : Holds m a (ws ++ vs) ↔
    Holds m a ws ∧ Holds m (a + BitVec.ofNat 32 (4 * ws.length)) vs := by
  induction ws generalizing a with
  | nil => simp [Holds]
  | cons w ws ih =>
    have h : a + 4#32 + BitVec.ofNat 32 (4 * ws.length) = a + BitVec.ofNat 32 (4 * (w :: ws).length) := by
      rw [BitVec.add_assoc]
      congr 1
      apply BitVec.eq_of_toNat_eq
      simp only [BitVec.toNat_add, BitVec.toNat_ofNat, List.length_cons]
      omega
    rw [List.cons_append, Holds, ih, Holds, and_assoc, h]

lemma Holds.get (h : Holds m a ws) {i : ℕ} (hi : ws[i]? = some w) :
    load m (a + BitVec.ofNat 32 (4 * i)) = w := by
  obtain ⟨hlt, hget⟩ := List.getElem?_eq_some_iff.1 hi
  have hsplit : ws = ws.take i ++ w :: ws.drop (i + 1) := by
    rw [← hget, List.cons_getElem_drop_succ, List.take_append_drop]
  rw [hsplit, holds_append] at h
  have hlen : (ws.take i).length = i := by simp; omega
  rw [hlen] at h
  exact h.2.1

/-- Writes words one above the other. -/
def fill (m : ByteMem) (a : Word) : List Word → ByteMem
  | [] => m
  | w :: ws => fill (store m a w) (a + 4#32) ws

lemma fill_frame (hn : 4 * ws.length ≤ 2 ^ 32) : Frame (Within a (4 * ws.length)) m (fill m a ws) := by
  induction ws generalizing m a with
  | nil => exact Frame.refl
  | cons w ws ih =>
    simp only [List.length_cons] at hn ⊢
    have hhead : ∀ x, Within a 4 x → Within a (4 * (ws.length + 1)) x := by
      intro x hx
      exact within_head (by omega) hx
    have htail : ∀ x, Within (a + 4#32) (4 * ws.length) x → Within a (4 * (ws.length + 1)) x := by
      intro x hx
      rw [Nat.mul_add]
      exact within_tail (by omega) hx
    exact (store_frame.mono hhead).trans ((ih (by omega)).mono htail)

lemma fill_holds (hn : 4 * ws.length ≤ 2 ^ 32) : Holds (fill m a ws) a ws := by
  induction ws generalizing m a with
  | nil => trivial
  | cons w ws ih =>
    simp only [List.length_cons] at hn
    have hlen : 4 * ws.length ≤ 2 ^ 32 := by omega
    have hf : Frame (Within (a + 4#32) (4 * ws.length)) (store m a w) (fill (store m a w) (a + 4#32) ws) := fill_frame hlen
    have hw : load (fill (store m a w) (a + 4#32) ws) a = load (store m a w) a := by
      refine hf.load fun x hx hlow => ?_
      simp only [Within, BitVec.toNat_sub, BitVec.toNat_add, BitVec.toNat_ofNat] at hx hlow
      have := a.isLt
      have := x.isLt
      omega
    exact ⟨hw.trans load_store_same, ih hlen⟩

/-- A word of the list is replaced by a store at its place. -/
lemma Holds.set (hn : 4 * ws.length ≤ 2 ^ 32) (h : Holds m a ws) {i : ℕ} (hi : i < ws.length) :
    Holds (store m (a + BitVec.ofNat 32 (4 * i)) v) a (ws.set i v) := by
  induction ws generalizing a i with
  | nil => exact absurd hi (by simp)
  | cons w ws ih =>
    simp only [List.length_cons] at hn hi
    cases i with
    | zero =>
      rw [Nat.mul_zero, BitVec.add_zero, List.set_cons_zero]
      refine ⟨load_store_same, h.2.frame store_frame (by omega) fun x hx hlow => ?_⟩
      simp only [Within, BitVec.toNat_sub, BitVec.toNat_add, BitVec.toNat_ofNat] at hx hlow
      have := a.isLt
      have := x.isLt
      omega
    | succ i =>
      rw [List.set_cons_succ]
      refine ⟨?_, ?_⟩
      · refine (store_frame.load fun x hx hlow => ?_).trans h.1
        simp only [Within, BitVec.toNat_sub, BitVec.toNat_add, BitVec.toNat_ofNat] at hx hlow
        have := a.isLt
        have := x.isLt
        omega
      · have hplace : a + BitVec.ofNat 32 (4 * (i + 1)) = a + 4#32 + BitVec.ofNat 32 (4 * i) := by
          rw [BitVec.add_assoc]
          congr 1
          apply BitVec.eq_of_toNat_eq
          simp only [BitVec.toNat_add, BitVec.toNat_ofNat]
          omega
        rw [hplace]
        exact ih (by omega) h.2 (by omega)

/-- The list goes with its bytes when they are copied. -/
lemma Holds.copy (hn : 4 * ws.length ≤ 2 ^ 32) (h : Holds m a ws)
    (hm : ∀ k < 4 * ws.length, m' (b + BitVec.ofNat 32 k) = m (a + BitVec.ofNat 32 k)) : Holds m' b ws := by
  induction ws generalizing a b with
  | nil => trivial
  | cons w ws ih =>
    simp only [List.length_cons] at hn hm
    refine ⟨?_, ih (by omega) h.2 fun k hk => ?_⟩
    · have h0 := hm 0 (by omega)
      have h1 := hm 1 (by omega)
      have h2 := hm 2 (by omega)
      have h3 := hm 3 (by omega)
      rw [BitVec.add_zero, BitVec.add_zero] at h0
      rw [← h.1, load, load, h0, h1, h2, h3]
    · have hshift : ∀ e : Word, e + 4#32 + BitVec.ofNat 32 k = e + BitVec.ofNat 32 (4 + k) := by
        intro e
        rw [BitVec.add_assoc]
        congr 1
        apply BitVec.eq_of_toNat_eq
        simp only [BitVec.toNat_add, BitVec.toNat_ofNat]
        omega
      rw [hshift, hshift]
      exact hm (4 + k) (by omega)

end Words

import Mathlib.Tactic.Common
import Mathlib.Data.BitVec
import Mathlib.Data.List.Basic

/-!
# Printing and reading numbers

`printint` of printf.c and of console.c, which differ in the table of digits, and `atoi` of ulib.c. The digits are
stored in a buffer of 16 characters with the last one first. `printint_exact` says what the printed characters mean
for every value, the least integer included, which is its own negative; `atoi_printint` that `atoi` reads them back.
-/

namespace Os132

namespace User

namespace Numbers

/-- The tables of printf.c and of console.c. -/
def upperDigits : List Char := ['0', '1', '2', '3', '4', '5', '6', '7', '8', '9', 'A', 'B', 'C', 'D', 'E', 'F']
def lowerDigits : List Char := ['0', '1', '2', '3', '4', '5', '6', '7', '8', '9', 'a', 'b', 'c', 'd', 'e', 'f']

/-- What the loop stores in `buf`; a `uint` has at most 32 digits in any base, so the count never ends the loop. -/
def digitLoop (digits : List Char) (base : ℕ) : ℕ → ℕ → List Char
  | 0, _ => []
  | n + 1, x => digits.getD (x % base) '0' :: if x / base ≠ 0 then digitLoop digits base n (x / base) else []

/-- The characters in the order in which they are printed. `-xx` is the negation modulo `2 ^ 32`. -/
def printint (digits : List Char) (xx : BitVec 32) (base : ℕ) (sgn : Bool) : List Char :=
  let neg := sgn && xx.slt 0
  let x := if neg then -xx else xx
  (digitLoop digits base 32 x.toNat ++ if neg then ['-'] else []).reverse

/-- The accumulator wraps around. -/
def atoiLoop (n : BitVec 32) : List Char → BitVec 32
  | [] => n
  | c :: s => if '0' ≤ c ∧ c ≤ '9' then atoiLoop (n * 10 + BitVec.ofNat 32 c.toNat - 48) s else n

def atoi (s : List Char) : BitVec 32 := atoiLoop 0 s

/-- The number that digits stand for, the first digit leading. -/
def value (digits : List Char) (base : ℕ) (s : List Char) : ℕ := s.foldl (fun n c => n * base + digits.idxOf c) 0

/-- A table of at least `base` different digits. -/
structure Base (digits : List Char) (base : ℕ) : Prop where
  two_le : 2 ≤ base
  le_length : base ≤ digits.length
  nodup : digits.Nodup

lemma base_upper {base : ℕ} (h : 2 ≤ base) (h' : base ≤ 16) : Base upperDigits base := ⟨h, h', by decide⟩

lemma base_lower {base : ℕ} (h : 2 ≤ base) (h' : base ≤ 16) : Base lowerDigits base := ⟨h, h', by decide⟩

variable {digits s rest : List Char} {base n k x : ℕ} {xx : BitVec 32} {sgn : Bool} {c : Char}

lemma Base.idxOf (h : Base digits base) (hx : x < base) : digits.idxOf (digits.getD x '0') = x := by
  have hlen : x < digits.length := lt_of_lt_of_le hx h.le_length
  rw [List.getD_eq_getElem?_getD, List.getElem?_eq_getElem hlen, Option.getD_some]
  exact h.nodup.idxOf_getElem x hlen

lemma div_lt_pow (h : x < base ^ (n + 1)) : x / base < base ^ n :=
  Nat.div_lt_of_lt_mul (by rwa [Nat.pow_succ, Nat.mul_comm] at h)

/-- The digits stand for the number: what is stored first is the remainder, the rest is the quotient. -/
lemma value_digitLoop (h : Base digits base) (hx : x < base ^ n) (hn : 0 < n) :
    value digits base (digitLoop digits base n x).reverse = x := by
  have hb := h.two_le
  induction n generalizing x with
  | zero => omega
  | succ n ih =>
    have hrest : value digits base (if x / base ≠ 0 then digitLoop digits base n (x / base) else []).reverse = x / base := by
      split_ifs with hq
      · have hpos : 0 < n := by
          rcases Nat.eq_zero_or_pos n with rfl | hpos
          · exact absurd (Nat.div_eq_of_lt (by simpa using hx)) hq
          · exact hpos
        exact ih (div_lt_pow hx) hpos
      · exact (not_not.1 hq).symm
    have hmod := h.idxOf (Nat.mod_lt x (show 0 < base by omega))
    unfold value at hrest ⊢
    rw [digitLoop, List.reverse_cons, List.foldl_append, hrest]
    simp only [List.foldl_cons, List.foldl_nil, hmod]
    exact Nat.div_add_mod' x base

/-- A number below `base ^ k` has at most `k` digits. -/
lemma length_digitLoop (hx : x < base ^ k) (hk : 0 < k) : (digitLoop digits base n x).length ≤ k := by
  induction k generalizing n x with
  | zero => omega
  | succ k ih =>
    cases n with
    | zero => exact Nat.zero_le _
    | succ n =>
      rw [digitLoop, List.length_cons]
      split_ifs with hq
      · have hpos : 0 < k := by
          rcases Nat.eq_zero_or_pos k with rfl | hpos
          · exact absurd (Nat.div_eq_of_lt (by simpa using hx)) hq
          · exact hpos
        exact Nat.succ_le_succ (ih (div_lt_pow hx) hpos)
      · simp

lemma mem_digitLoop (h : Base digits base) (hc : c ∈ digitLoop digits base n x) : c ∈ digits.take base := by
  have hb := h.two_le
  induction n generalizing x with
  | zero => simp [digitLoop] at hc
  | succ n ih =>
    rw [digitLoop, List.mem_cons] at hc
    rcases hc with rfl | hc
    · have hlt : x % base < base := Nat.mod_lt x (by omega)
      have hlen : x % base < digits.length := lt_of_lt_of_le hlt h.le_length
      rw [List.getD_eq_getElem?_getD, List.getElem?_eq_getElem hlen, Option.getD_some]
      exact List.mem_take_iff_getElem.2 ⟨x % base, by omega, rfl⟩
    · split_ifs at hc
      · exact ih hc
      · simp at hc

lemma magnitude (xx : BitVec 32) (h : xx.slt 0 = true) : ((-xx).toNat : ℤ) = -xx.toInt := by
  have hlt : xx.toInt < 0 := by simpa [BitVec.slt] using h
  have hle : 2 * xx.toNat ≥ 2 ^ 32 := by
    rw [BitVec.toInt_eq_toNat_cond] at hlt
    split_ifs at hlt <;> omega
  rw [BitVec.toInt_eq_toNat_cond, if_neg (by omega), BitVec.toNat_neg]
  have := xx.isLt
  omega

lemma toInt_nonneg (xx : BitVec 32) (h : xx.slt 0 = false) : (xx.toNat : ℤ) = xx.toInt := by
  have hlt : 0 ≤ xx.toInt := by simpa [BitVec.slt] using h
  rw [BitVec.toInt_eq_toNat_cond] at hlt ⊢
  have := xx.isLt
  split_ifs at hlt ⊢ <;> omega

lemma le_digits : (4294967296 : ℕ) ≤ 10 ^ 10 := by decide

/-- **Printing is exact**: the characters are digits of the base, behind a minus sign for a negative number; they
stand for the number, and the buffer holds them. -/
theorem printint_exact (h : Base digits base) (hbase : base = 10 ∨ base = 16) :
    ∃ s, printint digits xx base sgn = (if sgn && xx.slt 0 then '-' :: s else s) ∧ s ≠ [] ∧ (∀ c ∈ s, c ∈ digits.take base) ∧
      (if sgn && xx.slt 0 then -(value digits base s : ℤ) else value digits base s) = (if sgn then xx.toInt else xx.toNat) ∧
      (printint digits xx base sgn).length ≤ 11 := by
  have hb := h.two_le
  set neg := sgn && xx.slt 0 with hneg
  set x := if neg then -xx else xx with hx
  have hlt : x.toNat < base ^ 10 := by
    have := x.isLt
    rcases hbase with rfl | rfl
    · exact lt_of_lt_of_le this le_digits
    · exact lt_of_lt_of_le this (by decide)
  have hlt' : x.toNat < base ^ 32 := lt_of_lt_of_le hlt (Nat.pow_le_pow_right (by omega) (by decide))
  have hprint : printint digits xx base sgn =
      if neg then '-' :: (digitLoop digits base 32 x.toNat).reverse else (digitLoop digits base 32 x.toNat).reverse := by
    change (digitLoop digits base 32 x.toNat ++ if neg then ['-'] else []).reverse = _
    cases neg <;> simp
  have hlen : (digitLoop digits base 32 x.toNat).length ≤ 10 := length_digitLoop hlt (by decide)
  refine ⟨(digitLoop digits base 32 x.toNat).reverse, hprint, ?_, ?_, ?_, ?_⟩
  · simp [digitLoop]
  · intro c hc
    exact mem_digitLoop h (List.mem_reverse.1 hc)
  · rw [value_digitLoop h hlt' (by decide)]
    cases sgn with
    | false => simp [hx, hneg]
    | true =>
      cases hslt : xx.slt 0 with
      | false =>
        have hn : neg = false := by rw [hneg, hslt]; rfl
        simpa [hx, hn] using toInt_nonneg xx hslt
      | true =>
        have hn : neg = true := by rw [hneg, hslt]; rfl
        have := magnitude xx hslt
        simp only [hx, hn, if_true]
        omega
  · rw [hprint]
    split_ifs <;> simp only [List.length_cons, List.length_reverse] <;> omega

theorem printint_exact_least :
    ∃ s, printint lowerDigits 0x80000000#32 10 true = '-' :: s ∧ (value lowerDigits 10 s : ℤ) = 2147483648 := by
  have hbase : Base lowerDigits 10 := base_lower (by decide) (by decide)
  obtain ⟨s, hprint, _, _, hval, _⟩ := @printint_exact lowerDigits 10 0x80000000#32 true hbase (Or.inl rfl)
  have hslt : (true && (0x80000000#32 : BitVec 32).slt 0) = true := by decide
  rw [hslt, if_pos rfl] at hprint hval
  rw [if_pos rfl] at hval
  refine ⟨s, hprint, ?_⟩
  have : (0x80000000#32 : BitVec 32).toInt = -2147483648 := by decide
  omega

lemma decimal_digit (hc : c ∈ upperDigits.take 10) :
    ('0' ≤ c ∧ c ≤ '9') ∧ c.toNat = upperDigits.idxOf c + 48 := by
  have hall : ((upperDigits.take 10).all fun c => ('0' ≤ c ∧ c ≤ '9') ∧ c.toNat = upperDigits.idxOf c + 48) = true := by
    decide
  exact of_decide_eq_true (List.all_eq_true.1 hall c hc)

lemma atoi_step (n d : ℕ) : BitVec.ofNat 32 n * 10 + BitVec.ofNat 32 (d + 48) - 48 = BitVec.ofNat 32 (n * 10 + d) := by
  have hten : (10 : BitVec 32) = BitVec.ofNat 32 10 := rfl
  have hzero : (48 : BitVec 32) = BitVec.ofNat 32 48 := rfl
  rw [hten, hzero, ← BitVec.ofNat_mul, ← BitVec.ofNat_add, ← Nat.add_assoc, BitVec.ofNat_add, BitVec.add_sub_cancel]

/-- `atoi` stops at the first character that is no digit; up to there it computes the value modulo `2 ^ 32`. -/
lemma atoiLoop_append (hs : ∀ c ∈ s, c ∈ upperDigits.take 10) (hrest : ∀ c ∈ rest.head?, ¬('0' ≤ c ∧ c ≤ '9')) :
    atoiLoop (BitVec.ofNat 32 n) (s ++ rest) =
      BitVec.ofNat 32 (s.foldl (fun n c => n * 10 + upperDigits.idxOf c) n) := by
  induction s generalizing n with
  | nil =>
    cases rest with
    | nil => rfl
    | cons c rest => exact if_neg (hrest c rfl)
  | cons c s ih =>
    obtain ⟨hc, hval⟩ := decimal_digit (hs c List.mem_cons_self)
    rw [List.cons_append, atoiLoop, if_pos hc, hval, atoi_step]
    exact ih (fun c h => hs c (List.mem_cons_of_mem _ h))

/-- **`atoi` reads back what `%d` prints** for every number that is not negative; behind a minus sign it reads no
digit at all and answers 0. -/
theorem atoi_printint (hrest : ∀ c ∈ rest.head?, ¬('0' ≤ c ∧ c ≤ '9')) :
    atoi (printint upperDigits xx 10 true ++ rest) = if xx.slt 0 then 0 else xx := by
  have hbase : Base upperDigits 10 := base_upper (by decide) (by decide)
  obtain ⟨s, hprint, _, hmem, hval, _⟩ := @printint_exact upperDigits 10 xx true hbase (Or.inl rfl)
  rw [hprint]
  cases hslt : xx.slt 0 with
  | true => rfl
  | false =>
    simp only [hslt, Bool.and_false, Bool.false_eq_true, if_false, if_true] at hval ⊢
    have hx : value upperDigits 10 s = xx.toNat := by
      have := toInt_nonneg xx hslt
      omega
    rw [atoi, show (0 : BitVec 32) = BitVec.ofNat 32 0 from rfl, atoiLoop_append hmem hrest]
    change BitVec.ofNat 32 (value upperDigits 10 s) = xx
    rw [hx, BitVec.ofNat_toNat, BitVec.setWidth_eq]

theorem atoi_printint_line : atoi (printint upperDigits 2147483647 10 true ++ ['\n']) = 2147483647 := by
  apply atoi_printint
  rintro c ⟨⟩
  decide

end Numbers

end User

end Os132

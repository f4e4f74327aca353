import Mathlib.Logic.Function.Basic
import Mathlib.Data.Nat.Notation
import Mathlib.Order.Basic
import Mathlib.Tactic.Common

/-!
# The two memmove functions

The kernel's `memmove` chooses the direction of the copy from the positions of the two ranges,
the user library's always copies upwards. A memory is a function of the address; pointers are
32-bit words that wrap. Upward copying into a destination that begins inside the source spreads
the first `dst - src` bytes over the destination.
-/

namespace Os132

namespace Memory

/-- `p++` for a pointer to bytes. -/
def inc (p : ℕ) : ℕ := (p + 1) % 4294967296

/-- `p--` for a pointer to bytes. -/
def dec (p : ℕ) : ℕ := if p = 0 then 4294967295 else p - 1

/-- `*d++ = *s++`, `n` times. -/
def copyUp : ℕ → (ℕ → UInt8) → ℕ → ℕ → ℕ → UInt8
  | 0, m, _, _ => m
  | n + 1, m, d, s => copyUp n (Function.update m d (m s)) (inc d) (inc s)

/-- `*--d = *--s`, `n` times. -/
def copyDown : ℕ → (ℕ → UInt8) → ℕ → ℕ → ℕ → UInt8
  | 0, m, _, _ => m
  | n + 1, m, d, s => copyDown n (Function.update m (dec d) (m (dec s))) (dec d) (dec s)

/-- `memmove` of the kernel, with an unsigned count. -/
def memmove (m : ℕ → UInt8) (dst src n : ℕ) : ℕ → UInt8 :=
  if src < dst ∧ (src + n) % 4294967296 > dst then
    copyDown n m ((dst + n) % 4294967296) ((src + n) % 4294967296)
  else copyUp n m dst src

/-- `memmove` of the user library, with a signed count: a word from 2³¹ on is negative, and nothing is
copied. -/
def umemmove (m : ℕ → UInt8) (vdst vsrc n : ℕ) : ℕ → UInt8 :=
  copyUp (if n < 2147483648 then n else 0) m vdst vsrc

/-- The destination holds what the source held; everything else is unchanged. -/
def moved (m : ℕ → UInt8) (dst src n : ℕ) : ℕ → UInt8 := fun a =>
  if dst ≤ a ∧ a < dst + n then m (src + (a - dst)) else m a

variable {m : ℕ → UInt8} {dst src n d s : ℕ}

lemma moved_zero : moved m d s 0 = m := by
  funext a
  exact if_neg (by omega)

lemma copyUp_succ (hd : d + (n + 1) ≤ 4294967296) (hs : s + (n + 1) ≤ 4294967296) :
    copyUp (n + 1) m d s = copyUp n (Function.update m d (m s)) (d + 1) (s + 1) := by
  cases n with
  | zero => rfl
  | succ n =>
    have h1 : inc d = d + 1 := Nat.mod_eq_of_lt (by omega)
    have h2 : inc s = s + 1 := Nat.mod_eq_of_lt (by omega)
    rw [copyUp, h1, h2]

lemma dec_mod (h : d + (n + 1) ≤ 4294967296) : dec ((d + (n + 1)) % 4294967296) = d + n := by
  unfold dec
  split_ifs <;> omega

lemma copyDown_succ (hd : d + (n + 1) ≤ 4294967296) (hs : s + (n + 1) ≤ 4294967296) :
    copyDown (n + 1) m ((d + (n + 1)) % 4294967296) ((s + (n + 1)) % 4294967296) =
      copyDown n (Function.update m (d + n) (m (s + n))) ((d + n) % 4294967296) ((s + n) % 4294967296) := by
  have h1 : (d + n) % 4294967296 = d + n := Nat.mod_eq_of_lt (by omega)
  have h2 : (s + n) % 4294967296 = s + n := Nat.mod_eq_of_lt (by omega)
  rw [copyDown, dec_mod hd, dec_mod hs, h1, h2]

/-- Downward copying never overwrites a source byte before it is read, when the source is not above. -/
lemma copyDown_eq (hd : d + n ≤ 4294967296) (hs : s + n ≤ 4294967296) (hle : s ≤ d) :
    copyDown n m ((d + n) % 4294967296) ((s + n) % 4294967296) = moved m d s n := by
  induction n generalizing m with
  | zero => rw [moved_zero, copyDown]
  | succ n ih =>
    rw [copyDown_succ hd hs, ih (by omega) (by omega)]
    funext a
    simp only [moved, Function.update_apply]
    by_cases ha : a = d + n
    · have hi : s + (a - d) = s + n := by omega
      rw [if_neg (by omega), if_pos ha, if_pos (by omega), hi]
    · by_cases hr : d ≤ a ∧ a < d + n
      · rw [if_pos hr, if_neg (by omega), if_pos (by omega)]
      · rw [if_neg hr, if_neg ha, if_neg (by omega)]

/-- Nor does upward copying, when the destination does not begin inside the source. -/
lemma copyUp_eq (hd : d + n ≤ 4294967296) (hs : s + n ≤ 4294967296) (hle : d ≤ s ∨ s + n ≤ d) :
    copyUp n m d s = moved m d s n := by
  induction n generalizing m d s with
  | zero => rw [moved_zero, copyUp]
  | succ n ih =>
    rw [copyUp_succ hd hs, ih (by omega) (by omega) (by omega)]
    funext a
    simp only [moved, Function.update_apply]
    by_cases ha : a = d
    · have hi : s + (a - d) = s := by omega
      rw [if_neg (by omega), if_pos ha, if_pos (by omega), hi]
    · by_cases hr : d + 1 ≤ a ∧ a < d + 1 + n
      · have hi : s + 1 + (a - (d + 1)) = s + (a - d) := by omega
        rw [if_pos hr, hi, if_neg (by omega), if_pos (by omega)]
      · rw [if_neg hr, if_neg ha, if_neg (by omega)]

lemma pred_mod {i p : ℕ} (hp : 0 < p) (hi : 0 < i) :
    i % p = if (i - 1) % p + 1 = p then 0 else (i - 1) % p + 1 := by
  have hlt : (i - 1) % p < p := Nat.mod_lt _ hp
  have hdm : p * ((i - 1) / p) + (i - 1) % p = i - 1 := Nat.div_add_mod (i - 1) p
  split_ifs with hr
  · have hi : i = p * ((i - 1) / p + 1) := by rw [Nat.mul_add]; omega
    rw [hi, Nat.mul_mod_right]
  · have hi : i = (i - 1) % p + 1 + p * ((i - 1) / p) := by omega
    calc i % p = ((i - 1) % p + 1 + p * ((i - 1) / p)) % p := congrArg (· % p) hi
      _ = (i - 1) % p + 1 := by rw [Nat.add_mul_mod_self_left, Nat.mod_eq_of_lt (by omega)]

/-- Upward copying into a destination above the source repeats the bytes between the two starts. -/
lemma copyUp_above (hd : d + n ≤ 4294967296) (hs : s + n ≤ 4294967296) (hlt : s < d) (a : ℕ) :
    copyUp n m d s a = if d ≤ a ∧ a < d + n then m (s + (a - d) % (d - s)) else m a := by
  induction n generalizing m d s with
  | zero => rw [if_neg (by omega), copyUp]
  | succ n ih =>
    rw [copyUp_succ hd hs, ih (by omega) (by omega) (by omega)]
    simp only [Function.update_apply]
    by_cases ha : a = d
    · have hi : s + (a - d) % (d - s) = s := by rw [ha, Nat.sub_self, Nat.zero_mod, Nat.add_zero]
      rw [if_neg (by omega), if_pos ha, if_pos (by omega), hi]
    · by_cases hr : d + 1 ≤ a ∧ a < d + 1 + n
      · have hp : d + 1 - (s + 1) = d - s := by omega
        have hi : a - (d + 1) = a - d - 1 := by omega
        have hmod := pred_mod (i := a - d) (p := d - s) (by omega) (by omega)
        have hlt := Nat.mod_lt (a - d - 1) (show 0 < d - s by omega)
        rw [if_pos hr, if_pos (show d ≤ a ∧ a < d + (n + 1) by omega), hp, hi, hmod]
        by_cases hw : (a - d - 1) % (d - s) + 1 = d - s
        · rw [if_pos hw, if_pos (by omega), Nat.add_zero]
        · rw [if_neg hw, if_neg (by omega)]
          congr 1
          omega
      · rw [if_neg hr, if_neg ha, if_neg (by omega)]

/-- Upward copying is right exactly when no source byte changes by being overwritten too early. -/
lemma copyUp_moved_iff (hd : d + n ≤ 4294967296) (hs : s + n ≤ 4294967296) :
    copyUp n m d s = moved m d s n ↔ (s < d → ∀ i, d + i < s + n → m (d + i) = m (s + i)) := by
  by_cases hlt : s < d
  swap
  · exact iff_of_true (copyUp_eq hd hs (by omega)) (fun h => absurd h hlt)
  constructor
  · intro h _ i hi
    -- the byte at distance `d - s + i` reads the one at distance `i` a period earlier
    have hj := congrFun h (d + (d - s + i))
    have hk := congrFun h (d + i)
    rw [copyUp_above hd hs hlt, moved, if_pos (by omega), if_pos (by omega), Nat.add_sub_cancel_left,
      Nat.add_mod_left] at hj
    rw [copyUp_above hd hs hlt, moved, if_pos (by omega), if_pos (by omega), Nat.add_sub_cancel_left] at hk
    have he : s + (d - s + i) = d + i := by omega
    rw [← he, ← hj, hk]
  · intro h
    have hper : ∀ j, j < n → m (s + j % (d - s)) = m (s + j) := by
      intro j
      induction j using Nat.strongRecOn with
      | _ j ih =>
        intro hj
        by_cases hs' : j < d - s
        · rw [Nat.mod_eq_of_lt hs']
        · have he : d + (j - (d - s)) = s + j := by omega
          have hb := h hlt (j - (d - s)) (by omega)
          rw [he] at hb
          rw [Nat.mod_eq_sub_mod (by omega), ih (j - (d - s)) (by omega) (by omega), hb]
    funext a
    rw [copyUp_above hd hs hlt, moved]
    by_cases hr : d ≤ a ∧ a < d + n
    · rw [if_pos hr, if_pos hr, hper (a - d) (by omega)]
    · rw [if_neg hr, if_neg hr]

/-- The kernel's function is right for every overlap. -/
theorem memmove_moved (hd : dst + n ≤ 4294967296) (hs : src + n ≤ 4294967296) :
    memmove m dst src n = moved m dst src n := by
  unfold memmove
  split_ifs with h
  · exact copyDown_eq hd hs (Nat.le_of_lt h.1)
  · refine copyUp_eq hd hs ?_
    by_contra hc
    have hlt : (src + n) % 4294967296 = src + n := Nat.mod_eq_of_lt (by omega)
    omega

/-- The two functions leave the same memory, with the source moved, exactly when the destination does
not begin inside the source or the bytes of the source repeat with the distance of the two. -/
theorem memmoves_agree_iff (m : ℕ → UInt8) (dst src n : ℕ) (hd : dst + n ≤ 4294967296)
    (hs : src + n ≤ 4294967296) (hn : n < 2147483648) :
    (memmove m dst src n = umemmove m dst src n ∧ memmove m dst src n = moved m dst src n) ↔
      (src < dst → ∀ i, dst + i < src + n → m (dst + i) = m (src + i)) := by
  have hu : umemmove m dst src n = copyUp n m dst src := by rw [umemmove, if_pos hn]
  rw [← copyUp_moved_iff hd hs, hu, memmove_moved hd hs]
  constructor
  · intro h
    exact h.1.symm
  · intro h
    exact And.intro h.symm rfl

theorem memmoves_agree_iff_two :
    (memmove (fun a => UInt8.ofNat a) 1 0 2 = umemmove (fun a => UInt8.ofNat a) 1 0 2 ∧
        memmove (fun a => UInt8.ofNat a) 1 0 2 = moved (fun a => UInt8.ofNat a) 1 0 2) ↔
      (0 < 1 → ∀ i, 1 + i < 0 + 2 → UInt8.ofNat (1 + i) = UInt8.ofNat (0 + i)) :=
  memmoves_agree_iff (fun a => UInt8.ofNat a) 1 0 2 (by decide) (by decide) (by decide)

/-- With bytes `0 1 2` from address 0 on, moving two bytes from 0 to 1 leaves `0 0 0` in user programs. -/
theorem umemmove_loses_overlap : ¬ ∀ (m : ℕ → UInt8) (dst src n : ℕ), dst + n ≤ 4294967296 →
    src + n ≤ 4294967296 → n < 2147483648 →
    memmove m dst src n = umemmove m dst src n ∧ memmove m dst src n = moved m dst src n := by
  intro h
  have hsame := (h (fun a => UInt8.ofNat a) 1 0 2 (by decide) (by decide) (by decide)).1
  exact absurd (congrFun hsame 2) (by decide)

end Memory

end Os132

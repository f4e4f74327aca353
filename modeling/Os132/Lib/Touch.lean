import Mathlib.Tactic.Common
import Mathlib.Data.UInt

/-!
# Programs that touch a byte memory

A program reads and writes single bytes of a memory and may stop early. The addresses that it
touches are recorded. `Within A x u Q`: started in `u`, the program touches addresses of `A` only,
does not run out of steps, and `Q` holds of what it returns.
-/

namespace Touch

/-- Memory and the addresses touched so far. -/
structure Bytes where
  byte : UInt32 → UInt8
  touched : List UInt32

/-- Why a program stops without a result; `endless` marks a loop cut off by its bound. -/
inductive Stop where
  | panic
  | endless
  deriving DecidableEq

/-- What a program does: its result, if it gets to one, and the memory. -/
abbrev Code (α : Type) := ExceptT Stop (StateM Bytes) α

variable {α β : Type}

def load (a : UInt32) : Code UInt8 := fun m =>
  (.ok (m.byte a), { m with touched := a :: m.touched })

def store (a : UInt32) (v : UInt8) : Code Unit := fun m =>
  (.ok (), ⟨fun b => if b = a then v else m.byte b, a :: m.touched⟩)

/-- The bytes at `a`, `a + 1`, …. -/
def loads : ℕ → UInt32 → Code (List UInt8)
  | 0, _ => pure []
  | n + 1, a => do
    let b ← load a
    let bs ← loads n (a + 1)
    pure (b :: bs)

def stores : List UInt8 → UInt32 → Code Unit
  | [], _ => pure ()
  | b :: bs, a => do
    store a b
    stores bs (a + 1)

/-- The first address from `s` on whose byte fails `go`. -/
def skipWhile (go : UInt8 → Bool) : ℕ → UInt32 → Code UInt32
  | 0, _ => throw .endless
  | n + 1, s => do
    let b ← load s
    if go b then skipWhile go n (s + 1) else pure s

/-! ### What a program touches -/

variable {A B : UInt32 → Prop} {m : Bytes} {x : Code α} {f : α → Code β} {P Q : α → Bytes → Prop} {R : β → Bytes → Prop}

/-- From `m`, `x` touches addresses of `A` only and does not run out of steps, and its result satisfies `Q`. -/
def Within (A : UInt32 → Prop) (x : Code α) (m : Bytes) (Q : α → Bytes → Prop) : Prop :=
  (∀ a ∈ (x m).2.touched, a ∈ m.touched ∨ A a) ∧
    match (x m).1 with
    | .ok r => Q r (x m).2
    | .error e => e = .panic

lemma within_pure {r : α} (h : Q r m) : Within A (pure r) m Q :=
  ⟨fun _ ha => Or.inl ha, h⟩

lemma within_panic : Within A (throw .panic : Code α) m Q :=
  ⟨fun _ ha => Or.inl ha, rfl⟩

lemma bind_ok {r : α} {m' : Bytes} (h : x m = (.ok r, m')) : (x >>= f) m = f r m' := by
  change (match x m with | (v, s) => (ExceptT.bindCont f v) s) = _
  rw [h]
  rfl

lemma bind_error {e : Stop} {m' : Bytes} (h : x m = (.error e, m')) : (x >>= f) m = (.error e, m') := by
  change (match x m with | (v, s) => (ExceptT.bindCont f v) s) = _
  rw [h]
  rfl

lemma within_bind (hx : Within A x m P) (hf : ∀ r m', P r m' → Within A (f r) m' R) :
    Within A (x >>= f) m R := by
  obtain ⟨ht, hr⟩ := hx
  rcases hxm : x m with ⟨v, m'⟩
  rw [hxm] at ht hr
  cases v with
  | error e =>
    rw [Within, bind_error hxm]
    exact ⟨ht, hr⟩
  | ok r =>
    obtain ⟨ht', hr'⟩ := hf r m' hr
    rw [Within, bind_ok hxm]
    refine ⟨fun a ha => ?_, hr'⟩
    rcases ht' a ha with h | h
    · exact ht a h
    · exact Or.inr h

lemma Within.mono (h : Within A x m P) (hA : ∀ a, A a → B a) (hQ : ∀ r m', P r m' → Q r m') : Within B x m Q := by
  obtain ⟨ht, hr⟩ := h
  refine ⟨fun a ha => (ht a ha).imp_right (hA a), ?_⟩
  cases hv : (x m).1 with
  | error e => simpa [hv] using hr
  | ok r => exact hQ _ _ (by simpa [hv] using hr)

lemma Within.post (h : Within A x m P) (hQ : ∀ r m', P r m' → Q r m') : Within A x m Q :=
  h.mono (fun _ ha => ha) hQ

lemma within_load {a : UInt32} (ha : A a) : Within A (load a) m fun r m' => r = m.byte a ∧ m'.byte = m.byte := by
  refine ⟨fun b hb => ?_, rfl, rfl⟩
  rcases List.mem_cons.1 hb with rfl | hb
  · exact Or.inr ha
  · exact Or.inl hb

lemma within_store {a : UInt32} {v : UInt8} (ha : A a) : Within A (store a v) m fun _ _ => True := by
  refine ⟨fun b hb => ?_, trivial⟩
  rcases List.mem_cons.1 hb with rfl | hb
  · exact Or.inr ha
  · exact Or.inl hb

lemma toNat_toUInt32 {i : ℕ} (h : i < 2 ^ 32) : i.toUInt32.toNat = i := by
  simp only [Nat.toUInt32_eq, UInt32.toNat_ofNat']
  omega

/-- Touches only addresses below `n` bytes from `a`. -/
def Span (a : UInt32) (n : ℕ) (b : UInt32) : Prop := (b - a).toNat < n

lemma span_head {a : UInt32} {n : ℕ} : Span a (n + 1) a := by
  simp [Span]

lemma span_tail {a b : UInt32} {n : ℕ} (hn : n < 2 ^ 32) (h : Span (a + 1) n b) : Span a (n + 1) b := by
  simp only [Span, UInt32.toNat_sub, UInt32.toNat_add, UInt32.toNat_one] at h ⊢
  have := a.toNat_lt
  have := b.toNat_lt
  omega

lemma within_loads {a : UInt32} {n : ℕ} (hn : n < 2 ^ 32) :
    Within (Span a n) (loads n a) m fun r m' => m'.byte = m.byte ∧ r.length = n := by
  induction n generalizing a m with
  | zero => exact within_pure ⟨rfl, rfl⟩
  | succ n ih =>
    refine within_bind (within_load span_head) fun b m' hb => ?_
    refine within_bind ((ih (by omega)).mono (fun _ => span_tail (by omega)) fun _ _ h => h) fun bs m'' hbs => ?_
    exact within_pure ⟨hbs.1.trans hb.2, by simp [hbs.2]⟩

lemma within_stores {a : UInt32} {l : List UInt8} (hn : l.length < 2 ^ 32) :
    Within (Span a l.length) (stores l a) m fun _ _ => True := by
  induction l generalizing a m with
  | nil => exact within_pure trivial
  | cons b l ih =>
    simp only [List.length_cons] at hn ⊢
    exact within_bind (within_store span_head) fun _ m' _ => (ih (by omega)).mono (fun _ => span_tail (by omega)) fun _ _ h => h

lemma span_add {a b : UInt32} {k n : ℕ} (h : k + n < 2 ^ 32) :
    Span a (k + n) b ↔ Span a k b ∨ Span (a + k.toUInt32) n b := by
  have hk : k.toUInt32.toNat = k := by
    simp only [Nat.toUInt32_eq, UInt32.toNat_ofNat']
    omega
  simp only [Span, UInt32.toNat_sub, UInt32.toNat_add, hk]
  have := a.toNat_lt
  have := b.toNat_lt
  omega

/-- `stores` touches every byte of its span. -/
lemma stores_exact {a : UInt32} {l : List UInt8} (hn : l.length < 2 ^ 32) : ∃ m', stores l a m = (.ok (), m') ∧
    ∀ b, b ∈ m'.touched ↔ b ∈ m.touched ∨ Span a l.length b := by
  induction l generalizing a m with
  | nil => exact ⟨m, rfl, by simp [Span]⟩
  | cons v l ih =>
    simp only [List.length_cons] at hn ⊢
    obtain ⟨m', h, ht⟩ := ih (a := a + 1) (m := ⟨fun b => if b = a then v else m.byte b, a :: m.touched⟩) (by omega)
    refine ⟨m', h, fun b => ?_⟩
    have hadd := span_add (a := a) (b := b) (k := 1) (n := l.length) (by omega)
    have hone : Span a 1 b ↔ b = a := by
      simp only [Span, UInt32.toNat_sub, ← UInt32.toNat_inj]
      have := a.toNat_lt
      have := b.toNat_lt
      omega
    rw [Nat.add_comm, hone] at hadd
    rw [ht, List.mem_cons, hadd, or_assoc, or_left_comm]
    rfl

lemma bind_pure_mem {c : β} : ((x >>= fun _ => pure c) m).2 = (x m).2 := by
  rcases h : x m with ⟨_ | _, m'⟩
  · rw [bind_error h]
  · rw [bind_ok h]
    rfl

/-! ### Strings -/

variable {z s : UInt32} {byte : UInt32 → UInt8} {go : UInt8 → Bool}

/-- A string starts at `s`: below `z` a byte at or after `s` is zero. -/
def Str (z : UInt32) (byte : UInt32 → UInt8) (s : UInt32) : Prop :=
  ∃ e, s ≤ e ∧ e < z ∧ byte e = 0

lemma Str.lt (h : Str z byte s) : s < z := by
  obtain ⟨e, hs, he, -⟩ := h
  exact UInt32.lt_of_le_of_lt hs he

lemma Str.next (h : Str z byte s) (h0 : byte s ≠ 0) : Str z byte (s + 1) ∧ s.toNat + 1 = (s + 1).toNat := by
  obtain ⟨e, hs, he, h⟩ := h
  have hne : s ≠ e := fun h' => h0 (h' ▸ h)
  simp only [UInt32.le_iff_toNat_le, UInt32.lt_iff_toNat_lt, ← UInt32.toNat_inj, ne_eq] at hs he hne
  have := e.toNat_lt
  have hadd : (s + 1).toNat = s.toNat + 1 := by
    simp only [UInt32.toNat_add, UInt32.toNat_one]
    omega
  refine ⟨⟨e, ?_, UInt32.lt_iff_toNat_lt.2 he, h⟩, hadd.symm⟩
  rw [UInt32.le_iff_toNat_le]
  omega

/-- A scan that goes on at nonzero bytes only ends within the string, at or after its start. -/
lemma within_skipWhile {n : ℕ} (hgo : go 0 = false) (h : Str z m.byte s) (hn : z.toNat ≤ s.toNat + n) :
    Within (· < z) (skipWhile go n s) m fun r m' => m'.byte = m.byte ∧ Str z m.byte r ∧ s.toNat ≤ r.toNat ∧
      (go (m.byte s) → s.toNat < r.toNat) ∧ go (m.byte r) = false := by
  induction n generalizing s m with
  | zero =>
    have := UInt32.lt_iff_toNat_lt.1 h.lt
    omega
  | succ n ih =>
    refine within_bind (within_load h.lt) ?_
    rintro b m' ⟨rfl, hm⟩
    by_cases hb : go (m.byte s)
    · have hne : m.byte s ≠ 0 := fun h0 => by simp [h0, hgo] at hb
      obtain ⟨hstr, hadd⟩ := h.next hne
      rw [if_pos hb]
      rw [← hm] at hstr ⊢
      refine (ih hstr (by omega)).post fun r m'' hr => ?_
      exact ⟨hr.1, hr.2.1, by omega, fun _ => by omega, hr.2.2.2.2⟩
    · rw [if_neg hb]
      exact within_pure ⟨hm, h, le_rfl, fun h' => absurd h' hb, by simpa using hb⟩

/-- Where a scan ends it has passed only bytes at which it goes on. -/
lemma skipWhile_passed {n : ℕ} {r : UInt32} (h : (skipWhile go n s m).1 = .ok r) :
    ∃ l < n, r = s + l.toUInt32 ∧ ∀ j < l, go (m.byte (s + j.toUInt32)) := by
  induction n generalizing s m with
  | zero => cases h
  | succ n ih =>
    change ((load s >>= fun b => if go b then skipWhile go n (s + 1) else pure s) m).1 = _ at h
    have hload : load s m = (.ok (m.byte s), ⟨m.byte, s :: m.touched⟩) := rfl
    rw [bind_ok hload] at h
    by_cases hb : go (m.byte s)
    · rw [if_pos hb] at h
      obtain ⟨l, hl, rfl, hall⟩ := ih h
      refine ⟨l + 1, by omega, ?_, fun j hj => ?_⟩
      · rw [UInt32.add_assoc, Nat.toUInt32_eq, Nat.toUInt32_eq, UInt32.ofNat_add, UInt32.add_comm 1]
        rfl
      · cases j with
        | zero => simpa using hb
        | succ j =>
          have := hall j (by omega)
          rw [UInt32.add_assoc, Nat.toUInt32_eq, UInt32.add_comm 1] at this
          rw [Nat.toUInt32_eq, UInt32.ofNat_add]
          exact this
    · rw [if_neg hb] at h
      cases h
      exact ⟨0, by omega, by simp, by simp⟩

/-- Started on these bytes the program can give `r`. -/
def Gives (x : Code α) (byte : UInt32 → UInt8) (r : α) : Prop := ∃ t, (x ⟨byte, t⟩).1 = .ok r

lemma Within.and (h : Within A x m P) (hQ : ∀ r, (x m).1 = .ok r → Q r (x m).2) :
    Within A x m fun r m' => P r m' ∧ Q r m' := by
  refine ⟨h.1, ?_⟩
  have h2 := h.2
  cases hv : (x m).1 with
  | error e => simpa [hv] using h2
  | ok r => exact ⟨by simpa [hv] using h2, hQ r hv⟩

lemma Within.gives (h : Within A x m P) (hm : m.byte = byte) : Within A x m fun r m' => P r m' ∧ Gives x byte r :=
  h.and fun _ hr => ⟨m.touched, hm ▸ hr⟩

end Touch

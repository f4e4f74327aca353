import Os132.Syscall.Calls

/-!
# Strings stay below `sz`

A string that `fetchstr` accepted has a zero byte below `sz`, and every scan of it stops there at
the latest: `namex` with `skipelem`, `strlen`, and the loops of `exec`.
-/

namespace Os132

namespace UserMemory

open Touch

variable {p : Proc} {k : Kernel} {m : Bytes} {path s z : UInt32}

lemma addrs_enough : z.toNat ≤ s.toNat + ADDRS := by
  have := z.toNat_lt
  unfold ADDRS
  omega

lemma within_scanStr {go : UInt8 → Bool} (hgo : go 0 = false) (h : Str z m.byte s) :
    Within (· < z) (skipWhile go ADDRS s) m fun r m' => m'.byte = m.byte ∧ Str z m.byte r ∧ s.toNat ≤ r.toNat ∧
      (go (m.byte s) → s.toNat < r.toNat) ∧ go (m.byte r) = false :=
  within_skipWhile hgo h addrs_enough

lemma span_str {e b : UInt32} {l : ℕ} (hs : s.toNat ≤ e.toNat) (he : e < z) (hl : l ≤ (e - s).toNat) (hb : Span s l b) :
    b < z := by
  simp only [Span, UInt32.toNat_sub] at hb hl
  rw [UInt32.lt_iff_toNat_lt] at he ⊢
  have := e.toNat_lt
  have := b.toNat_lt
  omega

lemma within_skipelem (h : Str z m.byte path) : Within (· < z) (skipelem path) m fun r m' => m'.byte = m.byte ∧
    ∀ q, r = some q → Str z m.byte q.1 ∧ path.toNat < q.1.toNat := by
  refine within_bind (within_scanStr rfl h) ?_
  rintro s m₁ ⟨hm₁, hs, hle, -, hsl⟩
  refine within_bind (within_load hs.lt) ?_
  rintro b m₂ ⟨rfl, hm₂⟩
  split_ifs with h0
  · exact within_pure ⟨hm₂.trans hm₁, by simp⟩
  · rw [hm₁] at h0 hm₂
    rw [← hm₂] at hs hsl h0
    refine within_bind (within_scanStr rfl hs) ?_
    rintro e m₃ ⟨hm₃, he, hse, hlt, -⟩
    have hse' : s.toNat < e.toNat := hlt (by simp_all)
    refine within_bind ((within_loads ?_).mono (fun b hb => span_str hse he.lt ?_ hb) fun _ _ h => h) ?_
    · have := (e - s).toNat_lt
      split_ifs <;> omega
    · split_ifs <;> omega
    rintro name m₄ ⟨hm₄, -⟩
    rw [← hm₃, ← hm₄] at he
    refine within_bind (within_scanStr rfl he) ?_
    rintro r m₅ ⟨hm₅, hr, her, -, -⟩
    have hm : m₄.byte = m.byte := hm₄.trans (hm₃.trans hm₂)
    refine within_pure ⟨hm₅.trans hm, ?_⟩
    rintro q hq
    cases hq
    exact ⟨hm ▸ hr, by dsimp only; omega⟩

lemma within_atLast {par : Bool} (h : Str z m.byte path) :
    Within (· < z) (atLast par path) m fun _ m' => m'.byte = m.byte := by
  unfold atLast
  split_ifs
  · refine within_bind (within_load h.lt) ?_
    rintro b m' ⟨-, hm⟩
    exact within_pure hm
  · exact within_pure rfl

lemma within_namexLoop {par : Bool} {w : ℕ → Bool × Bool} {fuel i : ℕ} (h : Str z m.byte path)
    (hf : z.toNat ≤ path.toNat + fuel) :
    Within (· < z) (namexLoop par w fuel i path) m fun _ m' => m'.byte = m.byte := by
  induction fuel generalizing i path m with
  | zero =>
    have := UInt32.lt_iff_toNat_lt.1 h.lt
    omega
  | succ fuel ih =>
    refine within_bind (within_skipelem h) ?_
    rintro (_ | ⟨q, name⟩) m₁ ⟨hm₁, hq⟩
    · exact within_pure hm₁
    obtain ⟨hstr, hlt⟩ := hq _ rfl
    dsimp only at hstr hlt ⊢
    rw [← hm₁] at hstr
    by_cases hdir : (!(w i).1) = true
    · rw [if_pos hdir]
      exact within_pure hm₁
    rw [if_neg hdir]
    refine within_bind (within_atLast hstr) fun last m₂ hm₂ => ?_
    split_ifs
    · exact within_pure (hm₂.trans hm₁)
    · exact within_pure (hm₂.trans hm₁)
    · rw [← hm₂] at hstr
      exact (ih hstr (by omega)).post fun _ _ h => h.trans (hm₂.trans hm₁)

lemma within_namex {par : Bool} {w : ℕ → Bool × Bool} (h : Str z m.byte path) :
    Within (· < z) (namex path par w) m fun _ m' => m'.byte = m.byte := by
  refine within_bind (within_load h.lt) ?_
  rintro b m' ⟨-, hm⟩
  rw [← hm] at h
  exact (within_namexLoop h addrs_enough).post fun _ _ h => h.trans hm

lemma within_create (h : Str z m.byte path) : Within (· < z) (create k path) m fun _ m' => m'.byte = m.byte := by
  refine within_bind (within_namex h) fun r m' hm => ?_
  split_ifs <;> exact within_pure hm

lemma within_strlen (h : Str z m.byte s) : Within (· < z) (strlen s) m fun l m' => m'.byte = m.byte ∧
    s.toNat + l < z.toNat := by
  refine within_bind (within_scanStr rfl h) ?_
  rintro e m' ⟨hm, he, hle, -, -⟩
  refine within_pure ⟨hm, ?_⟩
  have := UInt32.lt_iff_toNat_lt.1 he.lt
  rw [UInt32.toNat_sub]
  have := e.toNat_lt
  omega

/-- The string at `s` has `l` bytes before its zero. -/
def Length (byte : UInt32 → UInt8) (s : UInt32) (l : ℕ) : Prop :=
  byte (s + l.toUInt32) = 0 ∧ ∀ j < l, byte (s + j.toUInt32) ≠ 0

lemma within_strlen_length (h : Str z m.byte s) : Within (· < z) (strlen s) m fun l m' =>
    (m'.byte = m.byte ∧ s.toNat + l < z.toNat) ∧ Length m.byte s l := by
  refine (within_strlen h).and fun l hl => ?_
  rcases hr : skipWhile (· != 0) ADDRS s m with ⟨e | e, m'⟩
  · rw [strlen, bind_error hr] at hl
    cases hl
  · rw [strlen, bind_ok hr] at hl
    cases hl
    have hend : Within (· < z) (skipWhile (· != 0) ADDRS s) m _ := within_scanStr rfl h
    have hzero := hend.2
    rw [hr] at hzero
    obtain ⟨i, hi, rfl, hall⟩ := skipWhile_passed (congrArg Prod.fst hr)
    have hi' : (s + i.toUInt32 - s).toNat = i := by
      rw [UInt32.toNat_sub, UInt32.toNat_add, toNat_toUInt32 hi]
      have := s.toNat_lt
      unfold ADDRS at hi
      omega
    rw [hi']
    exact ⟨by simpa using hzero.2.2.2.2, fun j hj => by simpa using hall j hj⟩

/-! ### The copies of exec -/

/-- The entry is that of a user page, and does not lead to a null pointer. -/
def Leads (pte : UInt32) : Prop := pte &&& PTE_P ≠ 0 ∧ pte &&& PTE_U ≠ 0 ∧ p2v (PTE_ADDR pte) ≠ 0

/-- The address lies in a user page of the image. -/
def Image.Has (im : Image) (va : UInt32) : Prop := ∃ e, im.pte (PGROUNDDOWN va) = some e ∧ Leads e

/-- A copy to `n` bytes from `va` on comes to an address without a page table. -/
def Image.Gap (im : Image) (va : UInt32) (n : ℕ) : Prop :=
  ∃ i < n, im.pte (PGROUNDDOWN (va + i.toUInt32)) = none ∧ ∀ j < i, im.Has (va + j.toUInt32)

/-- One of the copies of `exec` comes to an address without a page table: of an argument, whose predecessors are
copied, or of `ustack`. -/
def Image.Gaps (im : Image) (byte : UInt32 → UInt8) : ℕ → UInt32 → List UInt32 → Prop
  | argc, sp, [] => im.Gap (sp - (3 + argc.toUInt32 + 1) * 4) ((3 + argc + 1) * 4)
  | argc, sp, s :: argv => ∃ l, Length byte s l ∧
      (im.Gap ((sp - (l.toUInt32 + 1)) / 4 * 4) (l + 1) ∨
        (∀ i < l + 1, im.Has ((sp - (l.toUInt32 + 1)) / 4 * 4 + i.toUInt32)) ∧
          im.Gaps byte (argc + 1) ((sp - (l.toUInt32 + 1)) / 4 * 4) argv)

variable {im : Image} {va : UInt32}

lemma within_uva2ka (hz : 4 ≤ z.toNat) : Within (· < z) (uva2ka im va) m fun r m' => m'.byte = m.byte ∧
    (r ≠ 0 → Leads ((im.pte va).getD (word m.byte 0))) := by
  have hpte : Within (· < z) (loadPte im va) m fun e m' => e = (im.pte va).getD (word m.byte 0) ∧ m'.byte = m.byte := by
    unfold loadPte
    cases im.pte va with
    | some e => exact within_pure ⟨rfl, rfl⟩
    | none => exact within_loadInt_lt hz
  unfold uva2ka
  refine within_bind hpte ?_
  rintro e m' ⟨rfl, hm⟩
  split_ifs with hp hu
  · exact within_pure ⟨hm, fun h => absurd rfl h⟩
  · exact within_pure ⟨hm, fun h => absurd rfl h⟩
  · exact within_pure ⟨hm, fun h => ⟨hp, hu, h⟩⟩

lemma pgrounddown_add {j : ℕ} (h : va.toNat % 4096 + j < 4096) : PGROUNDDOWN (va + j.toUInt32) = PGROUNDDOWN va := by
  have := va.toNat_lt
  simp only [PGROUNDDOWN, ← UInt32.toNat_inj, UInt32.toNat_mul, UInt32.toNat_div, UInt32.toNat_add,
    toNat_toUInt32 (show j < 2 ^ 32 by omega), UInt32.reduceToNat]
  omega

lemma sub_pgrounddown : (va - PGROUNDDOWN va).toNat = va.toNat % 4096 := by
  have := va.toNat_lt
  simp only [PGROUNDDOWN, UInt32.toNat_sub, UInt32.toNat_mul, UInt32.toNat_div, UInt32.reduceToNat]
  omega

lemma pgrounddown_next {n : ℕ} (h : va.toNat % 4096 + n = 4096) : PGROUNDDOWN va + 4096 = va + n.toUInt32 := by
  have := va.toNat_lt
  simp only [PGROUNDDOWN, ← UInt32.toNat_inj, UInt32.toNat_mul, UInt32.toNat_div, UInt32.toNat_add,
    toNat_toUInt32 (show n < 2 ^ 32 by omega), UInt32.reduceToNat]
  omega

lemma add_toUInt32 {a : UInt32} {i j : ℕ} : a + i.toUInt32 + j.toUInt32 = a + (i + j).toUInt32 := by
  rw [UInt32.add_assoc, Nat.toUInt32_eq, Nat.toUInt32_eq, Nat.toUInt32_eq, UInt32.ofNat_add]

/-- A copy from memory below `z` stays there if it comes to no page without a page table, or the word at address 0
leads nowhere. It succeeds only into user pages. -/
lemma within_copyoutLoop {buf : ℕ → ℕ → Code (List UInt8)} {fuel i len : ℕ} (hz : 4 ≤ z.toNat) (hf : len < fuel)
    (hbuf : ∀ i' n m', m'.byte = m.byte → i' + n ≤ i + len → Within (· < z) (buf i' n) m' fun _ m'' => m''.byte = m.byte)
    (hgap : Leads (word m.byte 0) → ¬ im.Gap va len) :
    Within (· < z) (copyoutLoop im buf fuel i va len) m fun r m' => m'.byte = m.byte ∧
      (r = true → ∀ j < len, im.Has (va + j.toUInt32)) := by
  induction fuel generalizing i va len m with
  | zero => omega
  | succ fuel ih =>
    unfold copyoutLoop
    split_ifs with hlen
    swap
    · exact within_pure ⟨rfl, fun _ j hj => by omega⟩
    refine within_bind (within_uva2ka hz) ?_
    rintro pa0 m₁ ⟨hm₁, hleads⟩
    dsimp only
    split_ifs with hpa
    · exact within_pure ⟨hm₁, by simp⟩
    have hle := hleads hpa
    rw [sub_pgrounddown]
    have hmod := Nat.mod_lt va.toNat (show 0 < 4096 by decide)
    set n := min (PGSIZE - va.toNat % 4096) len with hn
    have hn4 : va.toNat % 4096 + n ≤ 4096 := by
      unfold PGSIZE at hn
      omega
    have hpos : 0 < n := by
      unfold PGSIZE at hn
      omega
    have h0 : va + (0 : ℕ).toUInt32 = va := UInt32.add_zero va
    -- the page has a page table
    obtain ⟨e, he⟩ : ∃ e, im.pte (PGROUNDDOWN va) = some e := by
      by_contra hnone
      have hnone : im.pte (PGROUNDDOWN va) = none := Option.eq_none_iff_forall_ne_some.2 fun e he => hnone ⟨e, he⟩
      rw [hnone] at hle
      exact hgap hle ⟨0, hlen, by rw [h0, hnone], by simp⟩
    rw [he] at hle
    have hhas : ∀ j < n, im.Has (va + j.toUInt32) := fun j hj =>
      ⟨e, by rw [pgrounddown_add (by omega), he], hle⟩
    refine within_bind (hbuf i n m₁ hm₁ (by omega)) fun bytes m₂ hm₂ => ?_
    have hmove : Within (· < z) (memmove im (PGROUNDDOWN va) (pa0 + (va - PGROUNDDOWN va)) bytes) m₂
        fun _ m' => m'.byte = m₂.byte := by
      rw [memmove, if_pos (by rw [he]; rfl)]
      exact within_pure rfl
    refine within_bind hmove fun _ m₃ hm₃ => ?_
    have hm : m₃.byte = m.byte := hm₃.trans hm₂
    by_cases hmore : len - n = 0
    · rw [hmore]
      refine (ih (by omega) (fun i' n' m' hm' hin => ?_) fun _ h => ?_).post fun r m' hr => ⟨hr.1.trans hm, fun _ j hj => hhas j (by omega)⟩
      · rw [hm]
        exact hbuf i' n' m' (hm'.trans hm) (by omega)
      · obtain ⟨j, hj, -⟩ := h
        omega
    · have hnext : PGROUNDDOWN va + PGSIZE.toUInt32 = va + n.toUInt32 := pgrounddown_next (by unfold PGSIZE at hn; omega)
      rw [hnext]
      refine (ih (by omega) (fun i' n' m' hm' hin => ?_) fun hw h => ?_).post fun r m' hr => ⟨hr.1.trans hm, fun hok j hj => ?_⟩
      · rw [hm]
        exact hbuf i' n' m' (hm'.trans hm) (by omega)
      · obtain ⟨j, hj, hnone, hall⟩ := h
        rw [hm] at hw
        refine hgap hw ⟨n + j, by omega, by rw [← add_toUInt32, hnone], fun j' hj' => ?_⟩
        by_cases hlt : j' < n
        · exact hhas j' hlt
        · have := hall (j' - n) (by omega)
          rwa [add_toUInt32, show n + (j' - n) = j' by omega] at this
      · by_cases hlt : j < n
        · exact hhas j hlt
        · have := hr.2 hok (j - n) (by omega)
          rwa [add_toUInt32, show n + (j - n) = j by omega] at this

lemma within_copyArgs {argv : List UInt32} {argc : ℕ} {sp : UInt32} (hz : 4 ≤ z.toNat) (h : ∀ s ∈ argv, Str z m.byte s)
    (hgap : Leads (word m.byte 0) → ¬ im.Gaps m.byte argc sp argv) :
    Within (· < z) (copyArgs im argc sp argv) m fun r m' => m'.byte = m.byte ∧ ∀ q, r = some q →
      Leads (word m.byte 0) → ¬ im.Gap (q.2 - (3 + (argc + q.1.length).toUInt32 + 1) * 4) ((3 + (argc + q.1.length) + 1) * 4) := by
  induction argv generalizing argc sp m with
  | nil =>
    refine within_pure ⟨rfl, ?_⟩
    rintro q hq
    cases hq
    exact hgap
  | cons s argv ih =>
    unfold copyArgs
    split_ifs
    · exact within_pure ⟨rfl, by simp⟩
    have hs := h s List.mem_cons_self
    refine within_bind (within_strlen_length hs) ?_
    rintro l m₁ ⟨⟨hm₁, hl⟩, hlen⟩
    dsimp only
    rw [← hm₁] at hs
    refine within_bind (within_strlen_length hs) ?_
    rintro l' m₂ ⟨⟨hm₂, hl'⟩, hlen'⟩
    rw [hm₁] at hlen'
    obtain rfl : l = l' := by
      rcases lt_trichotomy l l' with hlt | heq | hlt
      · exact absurd hlen.1 (hlen'.2 l hlt)
      · exact heq
      · exact absurd hlen'.1 (hlen.2 l' hlt)
    have hm := hm₂.trans hm₁
    have hzlt := z.toNat_lt
    have hcopy : Within (· < z) (copyout im ((sp - (l.toUInt32 + 1)) / 4 * 4) (fun i n => loads n (s + i.toUInt32)) (l + 1)) m₂
        fun r m' => m'.byte = m₂.byte ∧ (r = true → ∀ j < l + 1, im.Has ((sp - (l.toUInt32 + 1)) / 4 * 4 + j.toUInt32)) :=
      within_copyoutLoop hz (Nat.lt_succ_self _)
      (fun i n m' hm' hin => ((within_loads (by omega)).mono (fun b hb => by
        simp only [Span, UInt32.toNat_sub, UInt32.toNat_add, toNat_toUInt32 (show i < 2 ^ 32 by omega)] at hb
        rw [UInt32.lt_iff_toNat_lt]
        have := b.toNat_lt
        have := s.toNat_lt
        omega) fun _ _ h => h.1.trans hm'))
      (by
        rw [hm]
        exact fun hw hg => hgap hw ⟨l, hlen, Or.inl hg⟩)
    refine within_bind hcopy ?_
    rintro ok m₃ ⟨hm₃, hok⟩
    have hm' := hm₃.trans hm
    split_ifs with htrue
    swap
    · exact within_pure ⟨hm', by simp⟩
    refine within_bind (ih
      (fun t ht => by rw [hm']; exact h t (List.mem_cons_of_mem _ ht))
      (by
        rw [hm']
        exact fun hw hg => hgap hw ⟨l, hlen, Or.inr ⟨hok htrue, hg⟩⟩)) ?_
    rintro rest m₄ ⟨hm₄, hq⟩
    refine within_pure ⟨hm₄.trans hm', fun q hqe => ?_⟩
    obtain ⟨q', hq', rfl⟩ := Option.map_eq_some_iff.1 hqe
    have := hq q' hq'
    rw [hm'] at this
    simpa [Nat.add_comm, Nat.add_left_comm, Nat.add_assoc] using this

/-- `last` always points into the string. -/
lemma within_lastElem {fuel : ℕ} {last : UInt32} (h : Str z m.byte s) (hl : Str z m.byte last)
    (hf : z.toNat ≤ s.toNat + fuel) :
    Within (· < z) (lastElem fuel s last) m fun r m' => m'.byte = m.byte ∧ Str z m.byte r := by
  induction fuel generalizing s last m with
  | zero =>
    have := UInt32.lt_iff_toNat_lt.1 h.lt
    omega
  | succ fuel ih =>
    refine within_bind (within_load h.lt) ?_
    rintro b m' ⟨rfl, hm⟩
    by_cases h0 : m.byte s = 0
    · rw [if_pos h0]
      exact within_pure ⟨hm, hl⟩
    · rw [if_neg h0]
      obtain ⟨hnext, hadd⟩ := h.next h0
      have hl' : Str z m.byte (if m.byte s = 47 then s + 1 else last) := by
        split_ifs
        · exact hnext
        · exact hl
      rw [← hm] at hnext
      exact (ih hnext (hm ▸ hl') (by omega)).post fun r m'' hr => ⟨hr.1.trans hm, hm ▸ hr.2⟩

lemma within_safestrcpy {n : ℕ} (h : Str z m.byte s) :
    Within (· < z) (safestrcpy n s) m fun _ _ => True := by
  induction n generalizing s m with
  | zero => exact within_pure trivial
  | succ n ih =>
    refine within_bind (within_load h.lt) ?_
    rintro b m' ⟨rfl, hm⟩
    split_ifs with h0
    · exact within_pure trivial
    · have hnext := (h.next h0).1
      rw [← hm] at hnext
      exact within_bind (ih hnext) fun _ _ _ => within_pure trivial

lemma within_exec {argv : List UInt32} (hz : 4 ≤ z.toNat) (h : Str z m.byte path) (hargv : ∀ s ∈ argv, Str z m.byte s)
    (hgap : k.goes → Gives (namei path (k.walk 0)) m.byte true → Leads (word m.byte 0) →
      ¬ k.image.Gaps m.byte 0 k.image.sz argv) :
    Within (· < z) (exec k path argv) m fun _ _ => True := by
  refine within_bind ((within_namex h).gives rfl) ?_
  rintro r m₁ ⟨hm₁, hres⟩
  split_ifs with hr hgoes
  swap
  · exact within_pure trivial
  swap
  · exact within_pure trivial
  subst hr
  have hgap' := hgap hgoes hres
  rw [← hm₁] at h hargv hgap'
  refine within_bind (within_copyArgs hz hargv hgap') ?_
  rintro (_ | ⟨strs, sp⟩) m₂ ⟨hm₂, hq⟩
  · exact within_pure trivial
  have hust := hq _ rfl
  simp only [Nat.zero_add] at hust
  rw [← hm₂] at h hust
  dsimp only
  refine within_bind (within_copyoutLoop hz (Nat.lt_succ_self _) (fun _ _ m' hm' _ => within_pure hm') hust) ?_
  rintro ok m₃ ⟨hm₃, -⟩
  rw [← hm₃] at h
  split_ifs
  · refine within_bind (within_lastElem h h addrs_enough) ?_
    rintro last m₄ ⟨hm₄, hlast⟩
    rw [← hm₄] at hlast
    exact within_bind (within_safestrcpy hlast) fun _ _ _ => within_pure trivial
  · exact within_pure trivial

end UserMemory

end Os132

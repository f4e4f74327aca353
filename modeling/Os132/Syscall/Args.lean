import Os132.Lib.Touch

/-!
# Arguments of system calls

`fetchint`, `fetchstr`, `argint`, `argptr` and `argstr` of syscall.c, and `argfd` of sysfile.c. Machine
words are `UInt32`; `int32` reads one as a C `int`. The functions return `none` where the source
returns `-1`.
-/

namespace Os132

namespace UserMemory

open Touch

def KERNBASE : UInt32 := 0x80000000
def NOFILE : ℕ := 16

/-- The word as a C `int`. -/
def int32 (n : UInt32) : ℤ := if n.toNat < 2 ^ 31 then n.toNat else n.toNat - 2 ^ 32

inductive FileType where
  | none
  | pipe
  | inode
  deriving DecidableEq

/-- The fields of `struct file` that do not change while the file is open. -/
structure File where
  type : FileType
  readable : Bool
  writable : Bool
  deriving DecidableEq

/-- The calling process. -/
structure Proc where
  sz : UInt32
  /-- `tf->esp`. -/
  esp : UInt32
  /-- `tf->eax`. -/
  eax : UInt32
  ofile : ℕ → Option File

variable (p : Proc)

/-- `*(int*)addr`. -/
def loadInt (addr : UInt32) : Code UInt32 := do
  let b ← loads 4 addr
  pure (b.foldr (fun x v => x.toUInt32 + v * 256) 0)

/-- `*(int*)addr = v`. -/
def storeInt (addr v : UInt32) : Code Unit :=
  stores [v.toUInt8, (v / 256).toUInt8, (v / 65536).toUInt8, (v / 16777216).toUInt8] addr

def fetchint (addr : UInt32) : Code (Option UInt32) :=
  if addr ≥ p.sz ∨ addr + 4 > p.sz then pure none
  else do
    let v ← loadInt addr
    pure (some v)

/-- The loop of `fetchstr`: the first address in `[s, ep)` whose byte is zero. -/
def scan (ep : UInt32) : ℕ → UInt32 → Code (Option UInt32)
  | 0, _ => pure none
  | n + 1, s =>
    if s < ep then do
      let b ← load s
      if b = 0 then pure (some s) else scan ep n (s + 1)
    else pure none

/-- The length of the string at `addr`. -/
def fetchstr (addr : UInt32) : Code (Option UInt32) :=
  if addr ≥ p.sz then pure none
  else do
    match ← scan p.sz (p.sz.toNat - addr.toNat) addr with
    | some s => pure (some (s - addr))
    | none => pure none

def argint (n : UInt32) : Code (Option UInt32) :=
  fetchint p (p.esp + 4 + 4 * n)

def argptr (n size : UInt32) : Code (Option UInt32) := do
  match ← argint p n with
  | none => pure none
  | some i => if i ≥ p.sz ∨ i + size > p.sz then pure none else pure (some i)

/-- The pointer and the length. -/
def argstr (n : UInt32) : Code (Option (UInt32 × UInt32)) := do
  match ← argint p n with
  | none => pure none
  | some addr =>
    match ← fetchstr p addr with
    | none => pure none
    | some len => pure (some (addr, len))

def argfd (n : UInt32) : Code (Option (ℕ × File)) := do
  match ← argint p n with
  | none => pure none
  | some fd =>
    if int32 fd < 0 ∨ int32 fd ≥ NOFILE then pure none
    else match p.ofile fd.toNat with
      | none => pure none
      | some f => pure (some (fd.toNat, f))

/-! ### What they touch and what they promise -/

variable {p} {m : Bytes} {addr size n : UInt32}

lemma span_lt {a b : UInt32} {l : ℕ} (h : a.toNat + l ≤ p.sz.toNat) (hb : Span a l b) : b < p.sz := by
  simp only [Span, UInt32.toNat_sub] at hb
  rw [UInt32.lt_iff_toNat_lt]
  have := a.toNat_lt
  have := b.toNat_lt
  have := p.sz.toNat_lt
  omega

/-- The word at `addr` as `loadInt` puts it together. -/
def word (byte : UInt32 → UInt8) (addr : UInt32) : UInt32 :=
  (byte addr).toUInt32 + ((byte (addr + 1)).toUInt32 + ((byte (addr + 1 + 1)).toUInt32 +
    ((byte (addr + 1 + 1 + 1)).toUInt32 + 0 * 256) * 256) * 256) * 256

lemma within_loadInt (h : addr.toNat + 4 ≤ p.sz.toNat) :
    Within (· < p.sz) (loadInt addr) m fun v m' => v = word m.byte addr ∧ m'.byte = m.byte := by
  have htouch := (within_loads (a := addr) (n := 4) (m := m) (by omega)).mono (fun _ => span_lt h) fun _ _ h => h
  refine ⟨fun a ha => htouch.1 a ha, rfl, rfl⟩

lemma within_loadInt_lt {z : UInt32} (hz : 4 ≤ z.toNat) :
    Within (· < z) (loadInt 0) m fun v m' => v = word m.byte 0 ∧ m'.byte = m.byte := by
  let q : Proc := ⟨z, 0, 0, fun _ => none⟩
  have h : Within (· < q.sz) (loadInt 0) m fun v m' => v = word m.byte 0 ∧ m'.byte = m.byte := within_loadInt (by simpa using hz)
  exact h

/-- What `fetchint` gives: the word, if all of it lies below `sz`. -/
def fetched (p : Proc) (byte : UInt32 → UInt8) (addr : UInt32) : Option UInt32 :=
  if addr ≥ p.sz ∨ addr + 4 > p.sz then none else some (word byte addr)

lemma within_fetchint (hsz : p.sz < KERNBASE) :
    Within (· < p.sz) (fetchint p addr) m fun v m' => v = fetched p m.byte addr ∧ m'.byte = m.byte := by
  unfold fetchint fetched
  split_ifs with h
  · exact within_pure ⟨rfl, rfl⟩
  · simp only [ge_iff_le, gt_iff_lt, not_or, UInt32.lt_iff_toNat_lt,
      UInt32.le_iff_toNat_le, UInt32.toNat_add, KERNBASE] at h hsz
    have h4 : addr.toNat + 4 ≤ p.sz.toNat := by
      simp at h hsz
      omega
    refine within_bind (within_loadInt h4) ?_
    rintro v m' ⟨rfl, hm⟩
    exact within_pure ⟨rfl, hm⟩

lemma within_scan {ep s : UInt32} {k : ℕ} : Within (· < ep) (scan ep k s) m fun r m' => m'.byte = m.byte ∧
    ∀ e, r = some e → Str ep m.byte s := by
  induction k generalizing s m with
  | zero => exact within_pure ⟨rfl, by simp⟩
  | succ k ih =>
    unfold scan
    split_ifs with h
    · refine within_bind (within_load h) ?_
      rintro b m' ⟨rfl, hm⟩
      split_ifs with h0
      · exact within_pure ⟨hm, fun _ _ => ⟨s, UInt32.le_refl s, h, h0⟩⟩
      · refine ih.post fun r m'' hr => ⟨hr.1.trans hm, fun e he => ?_⟩
        obtain ⟨e', hse, hep, hz⟩ := hr.2 e he
        rw [hm] at hz
        refine ⟨e', ?_, hep, hz⟩
        rw [UInt32.le_iff_toNat_le] at hse ⊢
        rw [UInt32.toNat_add, UInt32.toNat_one] at hse
        have := UInt32.lt_iff_toNat_lt.1 h
        have := ep.toNat_lt
        omega
    · exact within_pure ⟨rfl, by simp⟩

lemma within_fetchstr : Within (· < p.sz) (fetchstr p addr) m fun r m' => m'.byte = m.byte ∧
    ∀ l, r = some l → Str p.sz m.byte addr := by
  unfold fetchstr
  split_ifs with h
  · exact within_pure ⟨rfl, by simp⟩
  · refine within_bind within_scan ?_
    rintro (_ | e) m' ⟨hm, he⟩
    · exact within_pure ⟨hm, by simp⟩
    · exact within_pure ⟨hm, fun _ _ => he e rfl⟩

/-- The `n`-th argument of the call, if it can be fetched. -/
def arg (p : Proc) (byte : UInt32 → UInt8) (n : UInt32) : Option UInt32 :=
  fetched p byte (p.esp + 4 + 4 * n)

variable (hsz : p.sz < KERNBASE)
include hsz

lemma within_argint : Within (· < p.sz) (argint p n) m fun v m' => v = arg p m.byte n ∧ m'.byte = m.byte :=
  within_fetchint hsz

/-- The pointer that `argptr` lets through. -/
def argPtr (p : Proc) (byte : UInt32 → UInt8) (n size : UInt32) : Option UInt32 :=
  (arg p byte n).bind fun i => if i ≥ p.sz ∨ i + size > p.sz then none else some i

lemma within_argptr : Within (· < p.sz) (argptr p n size) m fun v m' => v = argPtr p m.byte n size ∧ m'.byte = m.byte := by
  refine within_bind (within_argint hsz) ?_
  rintro v m' ⟨rfl, hm⟩
  cases hv : arg p m.byte n with
  | none => exact within_pure ⟨by simp [argPtr, hv], hm⟩
  | some i =>
    dsimp only
    split_ifs with h
    · exact within_pure ⟨by simp only [argPtr, hv, Option.bind_some, if_pos h], hm⟩
    · exact within_pure ⟨by simp only [argPtr, hv, Option.bind_some, if_neg h], hm⟩

lemma within_argstr : Within (· < p.sz) (argstr p n) m fun r m' => m'.byte = m.byte ∧
    ∀ a, r = some a → Str p.sz m.byte a.1 ∧ arg p m.byte n = some a.1 := by
  refine within_bind (within_argint hsz) ?_
  rintro (_ | addr) m' ⟨harg, hm⟩
  · exact within_pure ⟨hm, by simp⟩
  · refine within_bind within_fetchstr ?_
    rintro (_ | l) m'' ⟨hm', hl⟩
    · exact within_pure ⟨hm'.trans hm, by simp⟩
    · refine within_pure ⟨hm'.trans hm, ?_⟩
      rintro a h
      cases h
      rw [← hm]
      exact ⟨hl l rfl, by rw [hm, ← harg]⟩

omit hsz in
lemma argint_eq : ∃ t, argint p n m = (.ok (arg p m.byte n), ⟨m.byte, t⟩) := by
  unfold argint arg fetchint fetched
  split_ifs
  · exact ⟨_, rfl⟩
  · exact ⟨_, rfl⟩

omit hsz in
variable (m n size) in
lemma argptr_eq : ∃ t, argptr p n size m = (.ok (argPtr p m.byte n size), ⟨m.byte, t⟩) := by
  obtain ⟨t, h⟩ := argint_eq (p := p) (m := m) (n := n)
  rw [argptr, bind_ok h, argPtr]
  cases arg p m.byte n with
  | none => exact ⟨t, rfl⟩
  | some i =>
    dsimp only [Option.bind_some]
    split_ifs
    · exact ⟨t, rfl⟩
    · exact ⟨t, rfl⟩

/-- The open file that the `n`-th argument names. -/
def argFile (p : Proc) (byte : UInt32 → UInt8) (n : UInt32) : Option File := do
  let fd ← arg p byte n
  if int32 fd < 0 ∨ int32 fd ≥ NOFILE then none else p.ofile fd.toNat

lemma within_argfd : Within (· < p.sz) (argfd p n) m fun r m' => r.map Prod.snd = argFile p m.byte n ∧ m'.byte = m.byte := by
  refine within_bind (within_argint hsz) ?_
  rintro v m' ⟨rfl, hm⟩
  cases hv : arg p m.byte n with
  | none => exact within_pure ⟨by simp [argFile, hv], hm⟩
  | some fd =>
    dsimp only
    split_ifs with h
    · exact within_pure ⟨by simp [argFile, hv, h], hm⟩
    · cases hf : p.ofile fd.toNat with
      | none => exact within_pure ⟨by simp [argFile, hv, h, hf], hm⟩
      | some f => exact within_pure ⟨by simp [argFile, hv, h, hf], hm⟩

omit hsz in
lemma argfd_eq : ∃ t r, argfd p n m = (.ok r, ⟨m.byte, t⟩) ∧ r.map Prod.snd = argFile p m.byte n := by
  obtain ⟨t, h⟩ := argint_eq (p := p) (m := m) (n := n)
  rw [argfd, bind_ok h]
  cases hv : arg p m.byte n with
  | none => exact ⟨t, none, rfl, by simp [argFile, hv]⟩
  | some fd =>
    dsimp only
    split_ifs with hfd
    · exact ⟨t, none, rfl, by simp [argFile, hv, hfd]⟩
    · cases hf : p.ofile fd.toNat with
      | none => exact ⟨t, none, rfl, by simp [argFile, hv, hfd, hf]⟩
      | some f => exact ⟨t, some (fd.toNat, f), rfl, by simp [argFile, hv, hfd, hf]⟩

end UserMemory

end Os132

import Mathlib.Data.List.Range
import Mathlib.Data.Nat.Notation
import Mathlib.Tactic.Common

/-!
# The multiprocessor configuration table

`mpinit` finds the configuration table that the BIOS left in memory and counts the processors in
it. The memory is a function of the virtual address; pointers into a table do not wrap. A table is
a list of entries, each with a type and, from it, a size; a byte that is no type ends the list in
no way, and the loop of `mpinit` stays there. The loop takes fuel.
-/

namespace Os132

namespace Mp

def NCPU : ℕ := 8

def MPPROC : UInt8 := 0x00

def MPBUS : UInt8 := 0x01

def MPIOAPIC : UInt8 := 0x02

def MPIOINTR : UInt8 := 0x03

def MPLINTR : UInt8 := 0x04

def MPBOOT : UInt8 := 0x02

/-- The sizes of `struct mp` and `struct mpconf`. -/
def MP : ℕ := 16

def MPCONF : ℕ := 44

def p2v (a : ℕ) : ℕ := (a + 2147483648) % 4294967296

section Search

variable (b : ℕ → UInt8)

def ushort (a : ℕ) : ℕ := (b a).toNat + (b (a + 1)).toNat * 256

def uint (a : ℕ) : ℕ := ushort b a + ushort b (a + 2) * 65536

/-- `memcmp(p, s, 4) == 0`. -/
def same (p : ℕ) (s : List UInt8) : Bool := [b p, b (p + 1), b (p + 2), b (p + 3)] == s

def sum (addr : ℕ) : ℕ → UInt8
  | 0 => 0
  | len + 1 => sum addr len + b (addr + len)

/-- The loop of `mpsearch1` up to `e`. -/
def mpsearchLoop (e : ℕ) : ℕ → ℕ → Option ℕ
  | 0, _ => none
  | fuel + 1, p =>
    if p < e then
      if same b p [95, 77, 80, 95] && sum b p MP == 0 then some p else mpsearchLoop e fuel (p + MP)
    else none

def mpsearch1 (a len : ℕ) : Option ℕ := mpsearchLoop b (p2v a + len) (len / MP) (p2v a)

def mpsearch : Option ℕ :=
  let bda := p2v 0x400
  let p := ushort b (bda + 0x0E) * 16
  let first :=
    if p ≠ 0 then mpsearch1 b p 1024
    else mpsearch1 b ((ushort b (bda + 0x13) * 1024 + 4294966272) % 4294967296) 1024
  first.or (mpsearch1 b 0xF0000 0x10000)

/-- The `mp` and the `conf` that `mpconfig` finds. -/
def mpconfig : Option (ℕ × ℕ) :=
  match mpsearch b with
  | none => none
  | some mp =>
    if uint b (mp + 4) = 0 then none
    else if ¬ same b (p2v (uint b (mp + 4))) [80, 67, 77, 80] then none
    else if b (p2v (uint b (mp + 4)) + 6) ≠ 1 ∧ b (p2v (uint b (mp + 4)) + 6) ≠ 4 then none
    else if sum b (p2v (uint b (mp + 4))) (ushort b (p2v (uint b (mp + 4)) + 4)) ≠ 0 then none
    else some (mp, p2v (uint b (mp + 4)))

end Search

/-- The globals of `mp.c` with the pointer of the loop. `bcpu` is an index into `cpus`, `ids` the
writes to `cpus[i].id` in order, and `imcr` tells that the external interrupts were masked. -/
structure State where
  p : ℕ := 0
  ncpu : ℕ := 0
  ismp : Bool := false
  bcpu : ℕ := 0
  ids : List (ℕ × UInt8) := []
  lapic : ℕ := 0
  ioapicid : UInt8 := 0
  imcr : Bool := false

/-- One pass of the loop of `mpinit`: the switch on the type of the entry at `p`. -/
def pass (b : ℕ → UInt8) (s : State) : State :=
  if b s.p = MPPROC then
    { s with
      ismp := s.ismp && s.ncpu == (b (s.p + 1)).toNat
      bcpu := if b (s.p + 3) &&& MPBOOT ≠ 0 then s.ncpu else s.bcpu
      ids := s.ids ++ [(s.ncpu, s.ncpu.toUInt8)]
      ncpu := s.ncpu + 1
      p := s.p + 20 }
  else if b s.p = MPIOAPIC then { s with ioapicid := b (s.p + 1), p := s.p + 8 }
  else if b s.p = MPBUS ∨ b s.p = MPIOINTR ∨ b s.p = MPLINTR then { s with p := s.p + 8 }
  -- the default branch does not move `p`
  else { s with ismp := false }

def walk (b : ℕ → UInt8) (e : ℕ) : ℕ → State → Option State
  | 0, _ => none
  | fuel + 1, s => if s.p < e then walk b e fuel (pass b s) else some s

/-- The end of `mpinit`, after the loop. -/
def settle (b : ℕ → UInt8) (mp : ℕ) (s : State) : State :=
  if s.ismp then { s with imcr := b (mp + 12) ≠ 0 }
  else { s with ncpu := 1, lapic := 0, ioapicid := 0 }

/-- `mpinit` as it is called at boot, with all its globals 0. -/
def mpinit (b : ℕ → UInt8) (fuel : ℕ) : Option State :=
  match mpconfig b with
  | none => some {}
  | some (mp, conf) =>
    (walk b (conf + ushort b (conf + 4)) fuel
      { p := conf + MPCONF, ismp := true, lapic := uint b (conf + 36) }).map (settle b mp)

/-- The size of an entry by its type. -/
def entrySize (type : UInt8) : Option ℕ :=
  if type = MPPROC then some 20
  else if type = MPBUS ∨ type = MPIOAPIC ∨ type = MPIOINTR ∨ type = MPLINTR then some 8
  else none

/-- The entries from `p` to the end `e` of a table begin at the addresses of the list. -/
inductive Entries (b : ℕ → UInt8) (e : ℕ) : ℕ → List ℕ → Prop where
  | done {p : ℕ} : e ≤ p → Entries b e p []
  | entry {p k : ℕ} {l : List ℕ} : p < e → entrySize (b p) = some k → Entries b e (p + k) l →
      Entries b e p (p :: l)

/-- The processor entries among entries. -/
def processors (b : ℕ → UInt8) (l : List ℕ) : List ℕ := l.filter fun p => b p = MPPROC

def apicid (b : ℕ → UInt8) (p : ℕ) : ℕ := (b (p + 1)).toNat

/-- The entries of the table at `conf`. -/
def Table (b : ℕ → UInt8) (conf : ℕ) (l : List ℕ) : Prop :=
  Entries b (conf + ushort b (conf + 4)) (conf + MPCONF) l

/-- `mpinit` comes to its end, stores in `cpus` only, and either counts the processors of the table,
with the APIC ids 0, 1, 2, ..., or falls back to one. -/
def Counts (b : ℕ → UInt8) (conf : ℕ) : Prop :=
  ∃ fuel s, mpinit b fuel = some s ∧ (∀ w ∈ s.ids, w.1 < NCPU) ∧
    ((s.ismp = true ∧ ∃ l, Table b conf l ∧ s.ncpu = (processors b l).length ∧
        (processors b l).map (apicid b) = List.range (processors b l).length) ∨
      (s.ncpu = 1 ∧ s.ismp = false))

variable {b : ℕ → UInt8} {e p k n fuel : ℕ} {s s' : State} {l : List ℕ}

lemma pass_proc (h : b s.p = MPPROC) : (pass b s).p = s.p + 20 ∧ (pass b s).ncpu = s.ncpu + 1 ∧
    (pass b s).ids = s.ids ++ [(s.ncpu, s.ncpu.toUInt8)] ∧
    (pass b s).ismp = (s.ismp && s.ncpu == apicid b s.p) := by
  rw [pass, if_pos h]
  exact ⟨rfl, rfl, rfl, rfl⟩

lemma pass_other (hp : b s.p ≠ MPPROC) (h : entrySize (b s.p) = some k) : (pass b s).p = s.p + k ∧
    (pass b s).ncpu = s.ncpu ∧ (pass b s).ids = s.ids ∧ (pass b s).ismp = s.ismp := by
  rw [entrySize, if_neg hp] at h
  rw [pass, if_neg hp]
  split_ifs at h ⊢ with hk hio hrest
  · injection h with h
    exact ⟨by rw [← h], rfl, rfl, rfl⟩
  · injection h with h
    exact ⟨by rw [← h], rfl, rfl, rfl⟩
  · tauto

lemma pass_unknown (h : entrySize (b s.p) = none) : (pass b s).p = s.p := by
  rw [entrySize] at h
  rw [pass]
  split_ifs at h ⊢ <;> first | rfl | tauto

lemma walk_unknown (hlt : s.p < e) (h : entrySize (b s.p) = none) : walk b e fuel s = none := by
  induction fuel generalizing s with
  | zero => rfl
  | succ fuel ih =>
    have hp := pass_unknown h
    rw [walk, if_pos hlt]
    apply ih
    · rwa [hp]
    · rwa [hp]

/-- What the loop does to the count, the stores and `ismp` over the entries of a table. -/
structure Walked (b : ℕ → UInt8) (l : List ℕ) (s s' : State) : Prop where
  ncpu : s'.ncpu = s.ncpu + (processors b l).length
  ids : s'.ids.map Prod.fst = s.ids.map Prod.fst ++ List.range' s.ncpu (processors b l).length
  ismp : s'.ismp = true ↔ s.ismp = true ∧
    (processors b l).map (apicid b) = List.range' s.ncpu (processors b l).length

lemma Walked.proc (hp : b s.p = MPPROC) (h : Walked b l (pass b s) s') : Walked b (s.p :: l) s s' := by
  have hproc : processors b (s.p :: l) = s.p :: processors b l := List.filter_cons_of_pos (by simpa using hp)
  obtain ⟨_, hn, hids, hismp⟩ := pass_proc hp
  constructor
  · rw [h.ncpu, hn, hproc, List.length_cons]
    omega
  · rw [h.ids, hids, hn, hproc, List.length_cons, List.range'_succ]
    simp
  · rw [h.ismp, hn, hismp, hproc, List.length_cons, List.range'_succ, List.map_cons, List.cons.injEq,
      Bool.and_eq_true, beq_iff_eq, and_assoc, @eq_comm ℕ s.ncpu]

lemma Walked.other (hp : b s.p ≠ MPPROC) (hk : entrySize (b s.p) = some k) (h : Walked b l (pass b s) s') :
    Walked b (s.p :: l) s s' := by
  have hproc : processors b (s.p :: l) = processors b l := List.filter_cons_of_neg (by simpa using hp)
  obtain ⟨_, hn, hids, hismp⟩ := pass_other hp hk
  constructor
  · rw [h.ncpu, hn, hproc]
  · rw [h.ids, hids, hn, hproc]
  · rw [h.ismp, hn, hismp, hproc]

/-- The loop ends after the entries of the table. -/
lemma walk_of_entries (h : Entries b e p l) : ∀ s : State, s.p = p →
    ∃ s', walk b e (l.length + 1) s = some s' ∧ Walked b l s s' := by
  induction h with
  | done hle =>
    intro s hs
    refine ⟨s, by rw [walk, if_neg (by omega)], ?_⟩
    constructor <;> simp [processors]
  | @entry p k l hlt hk _ ih =>
    rintro s rfl
    by_cases hp : b s.p = MPPROC
    · have h20 : k = 20 := by simpa [entrySize, hp, eq_comm] using hk
      obtain ⟨s', hw, hs'⟩ := ih (pass b s) (by rw [(pass_proc hp).1, h20])
      exact ⟨s', by rwa [List.length_cons, walk, if_pos hlt], hs'.proc hp⟩
    · obtain ⟨s', hw, hs'⟩ := ih (pass b s) (pass_other hp hk).1
      exact ⟨s', by rwa [List.length_cons, walk, if_pos hlt], hs'.other hp hk⟩

/-- A loop that ends has gone over the entries of a table. -/
lemma entries_of_walk (h : walk b e fuel s = some s') : ∃ l, Entries b e s.p l ∧ Walked b l s s' := by
  induction fuel generalizing s with
  | zero => simp [walk] at h
  | succ fuel ih =>
    by_cases hlt : s.p < e
    · cases hk : entrySize (b s.p) with
      | none =>
        rw [walk_unknown hlt hk] at h
        simp at h
      | some k =>
        rw [walk, if_pos hlt] at h
        obtain ⟨l, hl, hw⟩ := ih h
        by_cases hp : b s.p = MPPROC
        · have h20 : k = 20 := by simpa [entrySize, hp, eq_comm] using hk
          rw [(pass_proc hp).1, ← h20] at hl
          exact ⟨s.p :: l, .entry hlt hk hl, hw.proc hp⟩
        · rw [(pass_other hp hk).1] at hl
          exact ⟨s.p :: l, .entry hlt hk hl, hw.other hp hk⟩
    · rw [walk, if_neg hlt] at h
      injection h with h
      subst h
      refine ⟨[], .done (by omega), ?_⟩
      constructor <;> simp [processors]

lemma settle_ids {mp : ℕ} : (settle b mp s).ids = s.ids := by
  unfold settle
  split_ifs <;> rfl

/-- The stores of a walk from the start are into the first entries of `cpus`, one for each processor. -/
lemma Walked.bounded (h : Walked b l s s') (hn : s.ncpu = 0) (hids : s.ids = []) :
    (∀ w ∈ s'.ids, w.1 < NCPU) ↔ (processors b l).length ≤ NCPU := by
  have hfst : s'.ids.map Prod.fst = List.range' 0 (processors b l).length := by
    rw [h.ids, hids, hn, List.map_nil, List.nil_append]
  constructor
  · intro hw
    by_contra hlt
    have hm : NCPU ∈ s'.ids.map Prod.fst := by
      rw [hfst, List.mem_range'_1]
      omega
    obtain ⟨w, hws, hwn⟩ := List.mem_map.mp hm
    have := hw w hws
    omega
  · intro hle w hw
    have hm : w.1 ∈ List.range' 0 (processors b l).length := hfst ▸ List.mem_map_of_mem hw
    rw [List.mem_range'_1] at hm
    omega

lemma mpinit_eq {mp conf : ℕ} (h : mpconfig b = some (mp, conf)) : mpinit b fuel =
    (walk b (conf + ushort b (conf + 4)) fuel
      { p := conf + MPCONF, ismp := true, lapic := uint b (conf + 36) }).map (settle b mp) := by
  rw [mpinit, h]

/-- Whenever a valid table is found, `mpinit` does what it is for exactly if the table is a list of
entries of the five types with at most `NCPU` processors among them. -/
theorem mpinit_counts_iff (b : ℕ → UInt8) (mp conf : ℕ) (h : mpconfig b = some (mp, conf)) :
    Counts b conf ↔ ∃ l, Table b conf l ∧ (processors b l).length ≤ NCPU := by
  constructor
  · rintro ⟨fuel, s, hs, hids, _⟩
    rw [mpinit_eq h] at hs
    obtain ⟨s', hw, rfl⟩ := Option.map_eq_some_iff.mp hs
    obtain ⟨l, hl, hwalked⟩ := entries_of_walk hw
    rw [settle_ids] at hids
    exact ⟨l, hl, (hwalked.bounded rfl rfl).mp hids⟩
  · rintro ⟨l, hl, hle⟩
    obtain ⟨s', hw, hwalked⟩ := walk_of_entries hl
      { p := conf + MPCONF, ismp := true, lapic := uint b (conf + 36) } rfl
    refine ⟨l.length + 1, settle b mp s', by rw [mpinit_eq h, hw, Option.map_some], ?_, ?_⟩
    · rw [settle_ids]
      exact (hwalked.bounded rfl rfl).mpr hle
    · cases hismp : s'.ismp with
      | true =>
        left
        have hset : settle b mp s' = { s' with imcr := b (mp + 12) ≠ 0 } := by rw [settle, if_pos hismp]
        rw [hset]
        refine ⟨hismp, l, hl, ?_, ?_⟩
        · exact hwalked.ncpu.trans (Nat.zero_add _)
        · rw [List.range_eq_range']
          exact (hwalked.ismp.mp hismp).2
      | false =>
        right
        have hset : settle b mp s' = { s' with ncpu := 1, lapic := 0, ioapicid := 0 } := by
          rw [settle, hismp, if_neg (by simp)]
        rw [hset]
        exact ⟨rfl, hismp⟩

/-- A memory with a floating pointer in the extended BIOS data area and a table of one entry, whose
first byte is `type`. -/
def bios (type : UInt8) (a : ℕ) : UInt8 :=
  if a < 0x80010000 then if a = 0x8000040F then 0x10 else 0
  else if a < 0x80011000 then
    [95, 77, 80, 95, 0x00, 0x10, 0x01, 0x00, 1, 1, 0x92, 0, 0, 0, 0, 0].getD (a - 0x80010000) 0
  else ([80, 67, 77, 80, 45, 0, 1, 0 - type - 94] ++ List.replicate 36 0 ++ [type]).getD (a - 0x80011000) 0

/-- A memory with a table of two processors and an I/O interrupt controller. -/
def board (a : ℕ) : UInt8 :=
  if a < 0x80011000 then bios 0 a
  else ([80, 67, 77, 80, 92, 0, 1, 108] ++ List.replicate 36 0 ++ [0, 0, 0, 2] ++ List.replicate 16 0 ++ [0, 1] ++
    List.replicate 18 0 ++ [2, 2] : List UInt8).getD (a - 0x80011000) 0

lemma table_board : Table board 0x80011000 [0x8001102C, 0x80011040, 0x80011054] :=
  .entry (by decide +kernel) (show _ = some 20 by decide +kernel)
    (.entry (by decide +kernel) (show _ = some 20 by decide +kernel)
      (.entry (by decide +kernel) (show _ = some 8 by decide +kernel) (.done (by decide +kernel))))

theorem mpinit_counts_iff_board : Counts board 0x80011000 :=
  (mpinit_counts_iff board 0x80010000 0x80011000 (by decide +kernel)).2 ⟨_, table_board, by decide +kernel⟩

/-- With an entry of type 5 `mpinit` never returns. -/
theorem mpinit_loops : ¬ ∀ (b : ℕ → UInt8) (mp conf : ℕ), mpconfig b = some (mp, conf) → Counts b conf := by
  intro h
  have hconf : mpconfig (bios 5) = some (0x80010000, 0x80011000) := by decide +kernel
  obtain ⟨fuel, s, hs, _⟩ := h (bios 5) 0x80010000 0x80011000 hconf
  rw [mpinit_eq hconf, walk_unknown (by decide +kernel) (by decide +kernel)] at hs
  simp at hs

end Mp

end Os132

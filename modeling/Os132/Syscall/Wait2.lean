import Os132.Syscall.Args
import Os132.Kernel.Machine

/-!
# `wait2` with pointers that `argptr` refuses

`sys_wait2` does not look at what `argptr` returns: a refused pointer stays 0, and the call goes on as if it were good. Each scan
of `wait2` finds a table; the tables are the argument, since other processes run while the caller sleeps.
-/

namespace Os132

namespace Wait2

open Touch UserMemory

variable (p : UserMemory.Proc) (self : Slot)

/-- The machine word of a C `int`. -/
def ofInt (x : ℤ) : UInt32 := (Os132.uint32 x).toUInt32

/-- What a call of `wait2` comes to: its result, the child that it has reaped and the process table. -/
structure Outcome where
  result : UInt32
  reaped : Option Slot
  tbl : Table

/-- `wait2(wtime, rtime)`, where the scans find these tables one after the other; `none` if it is asleep after the last one. -/
def wait2 (wtime rtime : UInt32) : List Table → Code (Option Outcome)
  | [] => pure none
  | tbl :: tables =>
    match tbl.find (Proc.isZombieOf self) with
    | some j => do
      storeInt rtime (ofInt (tbl j).rtime)
      storeInt wtime (ofInt ((tbl j).etime - (tbl j).ctime - (tbl j).rtime))
      pure (some ⟨ofInt (tbl j).pid, some j, tbl.set j Proc.reap⟩)
    | none =>
      if (tbl.find (Proc.isChildOf self)).isNone || (tbl self).killed then pure (some ⟨-1, none, tbl⟩)
      else wait2 wtime rtime tables

def sys_wait2 (tables : List Table) : Code (Option Outcome) := do
  let rtime ← argptr p 1 4
  let wtime ← argptr p 0 4
  wait2 self (wtime.getD 0) (rtime.getD 0) tables

/-- The `n`-th argument is no pointer to four bytes of the caller. -/
def Invalid (byte : UInt32 → UInt8) (n : UInt32) : Prop :=
  ∀ a, arg p byte n = some a → ¬ a.toNat + 4 ≤ p.sz.toNat

/-- The call fails as the claim on invalid pointers asks: it returns -1, reaps nobody and leaves the bytes of its caller. -/
def Refuses (m : Bytes) (r : Except Stop (Option Outcome) × Bytes) : Prop :=
  ∃ o, r.1 = .ok (some o) ∧ o.result = -1 ∧ o.reaped = none ∧ r.2.byte = m.byte

/-- The first scan that does not put the caller to sleep finds no zombie. -/
def GivesUp : List Table → Prop
  | [] => False
  | tbl :: tables => (∀ j, (tbl j).isZombieOf self = false) ∧
      ((∀ j, (tbl j).isChildOf self = false) ∨ (tbl self).killed = true ∨ GivesUp tables)

variable {p self} {m : Bytes} {wtime rtime : UInt32}

lemma stores_ok (l : List UInt8) (a : UInt32) (m : Bytes) : ∃ m', stores l a m = (.ok (), m') := by
  induction l generalizing a m with
  | nil => exact ⟨m, rfl⟩
  | cons b l ih =>
    obtain ⟨m', h⟩ := ih (a + 1) ⟨fun x => if x = a then b else m.byte x, a :: m.touched⟩
    exact ⟨m', h⟩

lemma storeInt_ok (a v : UInt32) (m : Bytes) : ∃ m', storeInt a v m = (.ok (), m') := stores_ok _ a m

/-- The pointers do not matter to what the call comes to. -/
lemma wait2_refuses_iff (tables : List Table) : Refuses m (wait2 self wtime rtime tables m) ↔ GivesUp self tables := by
  induction tables with
  | nil =>
    constructor
    · rintro ⟨o, ho, -⟩
      cases ho
    · exact False.elim
  | cons tbl tables ih =>
    unfold wait2 GivesUp
    cases hz : tbl.find (Proc.isZombieOf self) with
    | some j =>
      have hj := Table.find_some hz
      obtain ⟨m₁, h₁⟩ := storeInt_ok rtime (ofInt (tbl j).rtime) m
      obtain ⟨m₂, h₂⟩ := storeInt_ok wtime (ofInt ((tbl j).etime - (tbl j).ctime - (tbl j).rtime)) m₁
      constructor
      · rintro ⟨o, ho, -, hr, -⟩
        dsimp only at ho
        rw [bind_ok h₁, bind_ok h₂] at ho
        cases ho
        cases hr
      · rintro ⟨hno, -⟩
        rw [hno j] at hj
        cases hj
    | none =>
      have hno : ∀ j, (tbl j).isZombieOf self = false := fun j => by simpa using Table.find_none hz j
      have hkids : (tbl.find (Proc.isChildOf self)).isNone = true ↔ ∀ j, (tbl j).isChildOf self = false := by
        constructor
        · intro h j
          simpa using Table.find_none (Option.isNone_iff_eq_none.1 h) j
        · intro h
          rw [Option.isNone_iff_eq_none]
          by_contra hne
          obtain ⟨j, hj⟩ := Option.ne_none_iff_exists'.1 hne
          have := Table.find_some hj
          rw [h j] at this
          cases this
      dsimp only
      split_ifs with hback
      · rw [Bool.or_eq_true, hkids] at hback
        constructor
        · exact fun _ => ⟨hno, hback.imp_right Or.inl⟩
        · exact fun _ => ⟨⟨-1, none, tbl⟩, rfl, rfl, rfl, rfl⟩
      · rw [Bool.or_eq_true, hkids] at hback
        push Not at hback
        rw [ih]
        constructor
        · exact fun h => ⟨hno, Or.inr (Or.inr h)⟩
        · rintro ⟨-, h | h | h⟩
          · obtain ⟨j, hj⟩ := hback.1
            exact absurd (h j) hj
          · exact absurd h hback.2
          · exact h

/-- A call with a pointer that is not valid fails, with nobody reaped and the memory of its caller as it was, if and only if a call with
good pointers would: the pointers are not looked at. -/
theorem wait2_refuses_invalid_iff (p : UserMemory.Proc) (self : Slot) (tables : List Table) (m : Bytes) :
    (Invalid p m.byte 0 ∨ Invalid p m.byte 1 → Refuses m (sys_wait2 p self tables m)) ↔
      (¬ Invalid p m.byte 0 ∧ ¬ Invalid p m.byte 1) ∨ GivesUp self tables := by
  obtain ⟨t₁, h₁⟩ := argptr_eq (p := p) m 4 1
  obtain ⟨t₂, h₂⟩ := argptr_eq (p := p) ⟨m.byte, t₁⟩ 4 0
  have hcall : Refuses m (sys_wait2 p self tables m) ↔ GivesUp self tables := by
    unfold sys_wait2
    rw [bind_ok h₁, bind_ok h₂]
    exact wait2_refuses_iff (m := ⟨m.byte, t₂⟩) tables
  rw [hcall, ← not_or]
  exact imp_iff_not_or

/-- A process of one page, whose stack pointer is 0. -/
def caller : UserMemory.Proc := ⟨4096, 0, 22, fun _ => none⟩

/-- Both arguments are `0xffffffff`. -/
def minusOnes : UInt32 → UInt8 := fun a => if 4 ≤ a ∧ a < 12 then 0xff else 0

/-- The second process is a zombie child of the first. -/
def child : Slot := ⟨1, Nat.one_lt_succ_succ _⟩

def oneZombie : Table := fun i =>
  if i = child then { state := .zombie, pid := 7, parent := some initproc, ctime := 2, etime := 10, rtime := 3 }
  else if i = initproc then { state := .running, pid := 1 } else {}

lemma minusOnes_invalid : Invalid caller minusOnes 0 ∧ Invalid caller minusOnes 1 := by
  have h : ∀ n, n = 0 ∨ n = 1 → arg caller minusOnes n = some 0xffffffff := by
    rintro n (rfl | rfl) <;> decide
  refine ⟨fun a ha => ?_, fun a ha => ?_⟩
  · rw [h 0 (Or.inl rfl)] at ha
    cases ha
    decide
  · rw [h 1 (Or.inr rfl)] at ha
    cases ha
    decide

theorem wait2_takes_invalid : (Invalid caller minusOnes 0 ∧ Invalid caller minusOnes 1) ∧
    ∃ o, (sys_wait2 caller initproc [oneZombie] ⟨minusOnes, []⟩).1 = .ok (some o) ∧ o.result = 7 ∧ o.reaped = some child ∧
      (sys_wait2 caller initproc [oneZombie] ⟨minusOnes, []⟩).2.byte 0 ≠ minusOnes 0 := by
  refine ⟨minusOnes_invalid, ?_⟩
  exact ⟨⟨7, some child, oneZombie.set child Proc.reap⟩, rfl, rfl, rfl, by decide⟩

end Wait2

end Os132

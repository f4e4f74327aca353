import Mathlib.Tactic.Common
import Mathlib.Data.Fintype.Basic

/-!
# The process table

The records of `proc.h` and the constants of `param.h` that the process code reads. Pointers
into `ptable.proc` are indices below `NPROC`; a kernel-stack or page-directory page is the
number of the page. Signed C arithmetic is taken modulo 2^32, as the compiled code computes it,
and the `double` field `qvalue`, which only ever stores integers, is an `Int`.
-/

namespace Os132

def NPROC : Nat := 64
def QUANTA : Int := 5
def HIGH : Int := 3
def MEDIUM : Int := 2
def LOW : Int := 1

/-- The values of `SCHEDFLAG`: `_RR`, `_FRR`, `_GRT` and `_3Q`. -/
inductive SchedFlag where
  | rr | frr | grt | q3
  deriving DecidableEq, Repr

/-- The value of a C `int` expression. -/
def int32 (x : Int) : Int := x.bmod 4294967296

/-- The value of a C `uint` expression. -/
def uint32 (x : Int) : Nat := (x % 4294967296).toNat

/-- An index into `ptable.proc`. -/
abbrev Slot := Fin NPROC

/-- An index into `cpus`. -/
abbrev CpuId := Nat

inductive ProcState where
  | unused | embryo | sleeping | runnable | running | zombie
  deriving DecidableEq, Repr

/-- Spin locks: `ptable.lock`, `tickslock` and the locks of the rest of the kernel. -/
inductive Lock where
  | ptable | tickslock | other (n : Nat)
  deriving DecidableEq, Repr

/-- Sleep channels: `&ticks`, a process record, or an address owned by the rest of the kernel. -/
inductive Chan where
  | ticks | proc (i : Slot) | other (n : Nat)
  deriving DecidableEq, Repr

/-- `struct proc`. `eax` is the register of the trap frame that carries a system call's result,
`wtimeCell` and `rtimeCell` are the two user words that the process passes to `wait2`. -/
structure Proc where
  state : ProcState := .unused
  pid : Int := 0
  parent : Option Slot := none
  chan : Option Chan := none
  killed : Bool := false
  kstack : Option Nat := none
  pgdir : Option Nat := none
  sz : Nat := 0
  eax : Int := 0
  name : String := ""
  ctime : Int := 0
  etime : Int := 0
  rtime : Int := 0
  quanta : Int := 0
  priority : Int := 0
  qvalue : Int := 0
  wtimeCell : Int := 0
  rtimeCell : Int := 0
  deriving DecidableEq, Repr

/-- `ptable.proc`. -/
abbrev Table := Slot → Proc

/-- Rewrites the record of one slot. -/
def Table.set (tbl : Table) (i : Slot) (f : Proc → Proc) : Table :=
  fun j => if j = i then f (tbl j) else tbl j

@[simp] lemma Table.set_self (tbl : Table) (i : Slot) (f : Proc → Proc) : tbl.set i f i = f (tbl i) := by
  simp [Table.set]

lemma Table.set_of_ne (tbl : Table) {i j : Slot} (f : Proc → Proc) (h : j ≠ i) :
    tbl.set i f j = tbl j := by
  simp [Table.set, h]

lemma Table.set_apply (tbl : Table) (i j : Slot) (f : Proc → Proc) :
    tbl.set i f j = if j = i then f (tbl j) else tbl j := rfl

lemma Table.set_field {α : Type} (tbl : Table) (i j : Slot) (f : Proc → Proc) (field : Proc → α)
    (h : ∀ p, field (f p) = field p) : field (tbl.set i f j) = field (tbl j) := by
  rw [Table.set_apply]
  split_ifs
  · exact h _
  · rfl

/-- The slot that a loop `for(p = ptable.proc; ...)` with a test stops at. -/
def Table.find (tbl : Table) (q : Proc → Bool) : Option Slot :=
  (List.finRange NPROC).find? fun i => q (tbl i)

lemma Table.find_some {tbl : Table} {q : Proc → Bool} {i : Slot} (h : tbl.find q = some i) :
    q (tbl i) = true := by
  unfold Table.find at h
  simpa using List.find?_some h

lemma Table.find_none {tbl : Table} {q : Proc → Bool} (h : tbl.find q = none) (i : Slot) :
    q (tbl i) = false := by
  have := List.find?_eq_none.mp h i (List.mem_finRange i)
  simpa using this

/-- Kernel memory the process code reads and writes. -/
structure Mem where
  proc : Table := fun _ => {}
  /-- `ticks`, an unsigned 32-bit counter. -/
  ticks : Nat := 0
  nextpid : Int := 1
  /-- The static flag of `forkret`. -/
  first : Bool := true
  /-- Pages that `kalloc` has handed out and `kfree` has not taken back. -/
  kmem : Nat → Bool := fun _ => false

/-- `initproc`: `userinit` allocates it from the empty table. -/
def initproc : Slot := ⟨0, by decide⟩

end Os132

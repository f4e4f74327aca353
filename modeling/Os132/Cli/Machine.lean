import Mathlib.Logic.Function.Basic
import Mathlib.Data.Nat.Notation
import Mathlib.Data.Int.Notation

/-!
# Disabling interrupts

The nesting of `pushcli` and `popcli` on every CPU, with the locks that use it. A CPU runs its
scheduler or the kernel thread of a process; a thread may be interrupted where interrupts are on,
opens and closes nests, and gives the CPU back in `sched`, to be resumed by any scheduler. CPUs,
processes and locks are arbitrary types. `none` is a step that the thread does not take there.
-/

namespace Os132

namespace Cli

/-- Where a thread is: in `pushcli` behind the reading of the flags, alone or for `acquire`; spinning
for a lock; in `release` before its `popcli`; about to call `sched` with its state set; behind the
`swtch` of `sched`; anywhere else. -/
inductive Pc (Lock : Type) where
  | idle
  | read (eflags : Bool) (lk : Option Lock)
  | spin (lk : Lock)
  | unlocked
  | leaving
  | resume
  deriving DecidableEq

inductive Panic where
  | acquire
  | release
  | popcli
  | popcliInterruptible
  | schedLock
  | schedLocks
  | schedRunning
  | schedInterruptible

inductive Tid (Cpu Proc : Type) where
  | sched (c : Cpu)
  | proc (p : Proc)
  deriving DecidableEq

/-- `intena` is the local variable of `sched`, `running` tells that `proc->state` is RUNNING, and
`frames` are the places of interrupts that have not returned. -/
structure Thread (Lock : Type) where
  locks : List Lock
  pushes : ℕ
  pc : Pc Lock
  frames : List (Pc Lock)
  intena : Bool
  running : Bool

/-- The variables of a CPU, its interrupt flag, its current thread and the panic that stopped it. -/
structure CpuState (Cpu Proc : Type) where
  ncli : ℤ
  intena : Bool
  flag : Bool
  curr : Tid Cpu Proc
  panic : Option Panic

structure State (Cpu Proc Lock : Type) where
  cpu : Cpu → CpuState Cpu Proc
  holder : Lock → Option Cpu
  thread : Tid Cpu Proc → Thread Lock

/-- The steps of the current thread of a CPU. -/
inductive Op (Lock : Type) where
  | flag (b : Bool)
  | trap
  | iret
  | pushcli
  | popcli
  | acquire (lk : Lock)
  | cli
  | take
  | release (lk : Lock)
  | leave
  | restore

inductive Label (Proc Lock : Type) where
  | run (op : Op Lock)
  | sched
  | dispatch (p : Proc)

section Machine

variable {Cpu Proc Lock : Type} [DecidableEq Cpu] [DecidableEq Proc] [DecidableEq Lock]

/-- What `pushcli` does after it has read the flags. -/
def CpuState.cli (k : CpuState Cpu Proc) (eflags : Bool) : CpuState Cpu Proc :=
  { k with flag := false, intena := if k.ncli = 0 then eflags else k.intena, ncli := k.ncli + 1 }

def CpuState.popcli (k : CpuState Cpu Proc) : CpuState Cpu Proc :=
  if k.flag then { k with panic := some .popcliInterruptible }
  else if k.ncli - 1 < 0 then { k with ncli := k.ncli - 1, panic := some .popcli }
  else { k with ncli := k.ncli - 1, flag := k.ncli - 1 = 0 ∧ k.intena = true }

/-- The `pushcli` calls that a thread at this place has made beyond its locks and its own. -/
def Pc.extra : Pc Lock → ℕ
  | .spin _ => 1
  | .unlocked => 1
  | _ => 0

/-- The depth of the nest that a thread has open. -/
def Thread.depth (x : Thread Lock) : ℕ := x.locks.length + x.pushes + x.pc.extra

/-- The thread is in no nest and at no special place. -/
def Thread.Bare (x : Thread Lock) : Prop := x.pc = .idle ∧ x.locks = [] ∧ x.pushes = 0

/-- The thread holds `lk`, no other lock, and has no nest besides. -/
def Thread.Only (lk : Lock) (x : Thread Lock) : Prop := x.pc = .idle ∧ x.locks = [lk] ∧ x.pushes = 0

instance (x : Thread Lock) : Decidable x.Bare := inferInstanceAs (Decidable (_ ∧ _))

instance (lk : Lock) (x : Thread Lock) : Decidable (x.Only lk) := inferInstanceAs (Decidable (_ ∧ _))

def Tid.isProc : Tid Cpu Proc → Bool
  | .sched _ => false
  | .proc _ => true

/-- A step of the thread `x` on the CPU `c`, with what becomes of the CPU, the thread and the locks. -/
def turn (ptable : Lock) (c : Cpu) (holder : Lock → Option Cpu) (k : CpuState Cpu Proc) (x : Thread Lock) :
    Op Lock → Option (CpuState Cpu Proc × Thread Lock × (Lock → Option Cpu))
  | .flag b => if x.Bare then some ({ k with flag := b }, x, holder) else none
  | .trap =>
    if k.flag then some ({ k with flag := false }, { x with pc := .idle, frames := x.pc :: x.frames }, holder)
    else none
  | .iret =>
    if x.Bare then
      match x.frames with
      | [] => none
      | pc :: frames => some ({ k with flag := true }, { x with pc := pc, frames := frames }, holder)
    else none
  | .pushcli => if x.pc = .idle then some (k, { x with pc := .read k.flag none }, holder) else none
  | .acquire lk => if x.pc = .idle then some (k, { x with pc := .read k.flag (some lk) }, holder) else none
  | .cli =>
    match x.pc with
    | .read eflags none => some (k.cli eflags, { x with pc := .idle, pushes := x.pushes + 1 }, holder)
    | .read eflags (some lk) =>
      some (if holder lk = some c then { k.cli eflags with panic := some .acquire } else k.cli eflags,
        { x with pc := .spin lk }, holder)
    | _ => none
  | .take =>
    match x.pc with
    | .spin lk =>
      if holder lk = none then
        some (k, { x with pc := .idle, locks := lk :: x.locks }, Function.update holder lk (some c))
      else none
    | _ => none
  | .release lk =>
    if x.pc = .idle ∧ lk ∈ x.locks then
      if holder lk = some c then
        some (k, { x with pc := .unlocked, locks := x.locks.erase lk }, Function.update holder lk none)
      else some ({ k with panic := some .release }, x, holder)
    else none
  | .popcli =>
    if x.pc = .unlocked then some (k.popcli, { x with pc := .idle }, holder)
    else if x.pc = .idle ∧ 0 < x.pushes then some (k.popcli, { x with pushes := x.pushes - 1 }, holder)
    else none
  | .leave =>
    if k.curr.isProc ∧ x.Only ptable then some (k, { x with pc := .leaving, running := false }, holder) else none
  | .restore =>
    if x.pc = .resume then some ({ k with intena := x.intena }, { x with pc := .idle }, holder) else none

/-- The tests of `sched`. -/
def schedPanic (ptable : Lock) (c : Cpu) (holder : Lock → Option Cpu) (k : CpuState Cpu Proc) (x : Thread Lock) :
    Option Panic :=
  if holder ptable ≠ some c then some .schedLock
  else if k.ncli ≠ 1 then some .schedLocks
  else if x.running then some .schedRunning
  else if k.flag then some .schedInterruptible
  else none

/-- The current thread of a CPU. -/
def State.on (s : State Cpu Proc Lock) (c : Cpu) : Thread Lock := s.thread (s.cpu c).curr

/-- The state after the current thread of `c` became `x` and the CPU `k`. -/
def State.put (s : State Cpu Proc Lock) (c : Cpu) (k : CpuState Cpu Proc) (x : Thread Lock)
    (holder : Lock → Option Cpu) : State Cpu Proc Lock where
  cpu := Function.update s.cpu c k
  holder := holder
  thread := Function.update s.thread (s.cpu c).curr x

/-- A step of the CPU `c`: its thread goes on, or calls `sched` and leaves the CPU to the scheduler, or,
being the scheduler with `ptable.lock`, leaves it to a process that no CPU runs. -/
def step (ptable : Lock) : Cpu × Label Proc Lock → State Cpu Proc Lock → Option (State Cpu Proc Lock)
  | (c, l), s =>
    if (s.cpu c).panic.isSome then none
    else match l with
      | .run op =>
        (turn ptable c s.holder (s.cpu c) (s.on c) op).map fun r => s.put c r.1 r.2.1 r.2.2
      | .sched =>
        if (s.on c).pc = .leaving then
          match schedPanic ptable c s.holder (s.cpu c) (s.on c) with
          | some e => some (s.put c { s.cpu c with panic := some e } (s.on c) s.holder)
          | none =>
            some (s.put c { s.cpu c with curr := .sched c }
              { s.on c with pc := .resume, intena := (s.cpu c).intena } s.holder)
        else none
      | .dispatch p =>
        if (s.cpu c).curr = .sched c ∧ (s.on c).Only ptable ∧ (s.thread (.proc p)).running = false then
          some { s with
            cpu := Function.update s.cpu c { s.cpu c with curr := .proc p }
            thread := Function.update s.thread (.proc p) { s.thread (.proc p) with running := true } }
        else none

/-- Every CPU is at the start of its scheduler and every process will begin with the release of the
lock that the scheduler holds for it. -/
def Init (ptable : Lock) (s : State Cpu Proc Lock) : Prop :=
  (∀ c, (s.cpu c).ncli = 0 ∧ (s.cpu c).curr = .sched c ∧ (s.cpu c).panic = none) ∧
  (∀ l, s.holder l = none) ∧
  (∀ c, (s.thread (.sched c)).Bare ∧ (s.thread (.sched c)).frames = []) ∧
  ∀ p, (s.thread (.proc p)).Only ptable ∧ (s.thread (.proc p)).frames = [] ∧ (s.thread (.proc p)).running = false

end Machine

end Cli

end Os132

import Os132.Kernel.Proc

/-!
# The routines as sequences of atomic steps

A kernel thread is the list of operations it has left to execute; a routine of the source is
the list of its steps. An operation touches shared memory at most once, except that a loop
over `ptable.proc` under `ptable.lock` is a single operation (`allocproc`, `wait`, `kill`,
`wakeup1`, the adoption loop of `exit`), with the stores that follow it in the same critical
section: the lock excludes every other writer of what these loops test, and the unlocked stores
of `fork` to the child change none of their tests. A test
is an operation that puts the steps of the branch it takes in front of the list.

The scan of `scheduler` is one operation for each slot, since the routine switches to a
process in the middle of it under `_RR`.
-/

namespace Os132

/-- Stores to a field of the current process. -/
inductive Store where
  | killed
  | eax (v : Int)
  | chan (c : Option Chan)
  | rtimeIncr
  | quantaDecr
  | qvalueTicks
  | priorityDecr
  | priority (v : Int)
  | etime
  deriving DecidableEq, Repr

/-- The effect of a store, given the value of `ticks`. -/
def Store.apply (ticks : Nat) (p : Proc) : Store → Proc
  | .killed => { p with killed := true }
  | .eax v => { p with eax := v }
  | .chan c => { p with chan := c }
  | .rtimeIncr => { p with rtime := int32 (p.rtime + 1) }
  | .quantaDecr => { p with quanta := int32 (p.quanta - 1) }
  | .qvalueTicks => { p with qvalue := ticks }
  | .priorityDecr => { p with priority := int32 (p.priority - 1) }
  | .priority v => { p with priority := v }
  | .etime => { p with etime := int32 ticks }

/-- Stores of `fork` to the child before it is `RUNNABLE`. -/
inductive NpStore where
  | sz | tf
  deriving DecidableEq, Repr

def NpStore.apply (parent np : Proc) : NpStore → Proc
  | .sz => { np with sz := parent.sz }
  | .tf => { np with eax := 0 }

/-- Stores of `fork` to the child after it is `RUNNABLE`. -/
inductive LateStore where
  | name | ctime | rtime | qvalueCtime | priorityHigh | qvalueZero
  deriving DecidableEq, Repr

def LateStore.apply (ticks : Nat) (parent np : Proc) : LateStore → Proc
  | .name => { np with name := parent.name }
  | .ctime => { np with ctime := int32 ticks }
  | .rtime => { np with rtime := 0 }
  | .qvalueCtime => { np with qvalue := np.ctime }
  | .priorityHigh => { np with priority := HIGH }
  | .qvalueZero => { np with qvalue := 0 }

/-- The system calls of the process code; `other` stands for the rest of the table. -/
inductive Syscall where
  | fork | exit | wait | wait2 | kill (pid : Int) | nice | sleep (n : Int) | other
  deriving DecidableEq, Repr

inductive Op where
  -- spinlock.c, swtch.S and the processor
  | acquire (lk : Lock) | spin (lk : Lock) | release (lk : Lock)
  | iret | user | sched | panic (msg : String)
  -- trap.c
  | syscall (sc : Syscall) | ifKilledExit (fromUser : Bool) | timerIrq | tick | ifYield
  -- stores to the current process
  | store (f : Store) | schedAs (st : ProcState)
  -- fork and allocproc
  | allocproc | allocKstack (i : Slot) | allocContext (i : Slot)
  | copyuvm (i : Slot) | freeKstack (i : Slot) | forkUnused (i : Slot)
  | np (i : Slot) (f : NpStore) | forkParent (i : Slot) | forkPid (i : Slot)
  | forkRunnable (i : Slot) | late (i : Slot) (f : LateStore) | forkretFirst
  -- exit, wait, kill, nice, yield, sleep, wakeup
  | exit | wakeupParent | reparent | wakeup1 (c : Chan) | wait (two : Bool) | kill (pid : Int)
  | nice | yieldMedium
  | sleepTicks0 (n : Int) | sleepTest (n : Int) (ticks0 : Nat) | sleepKilled (n : Int) (ticks0 : Nat)
  -- code of the rest of the kernel, holding at most one of its locks; `kcode` may sleep
  | kcode (h : Option Nat) | kcodeNosleep (h : Option Nat)
  -- scheduler
  | schedTop | schedTicks | scan (i : Nat) | choose
  deriving DecidableEq, Repr

open Op

/-- `sleep(chan, lk)`. -/
def sleep (chan : Chan) (lk : Lock) : List Op :=
  (if lk ≠ .ptable then [acquire .ptable, release lk] else []) ++
  [store (.chan (some chan)), schedAs .sleeping, store (.chan none)] ++
  (if lk ≠ .ptable then [release .ptable, acquire lk] else [])

/-- `wakeup(chan)`. -/
def wakeup (chan : Chan) : List Op :=
  [acquire .ptable, wakeup1 chan, release .ptable]

/-- The update of the queue time stamp in `yield` and `nice`. -/
def stampQvalue : List Op :=
  [acquire .tickslock, store .qvalueTicks, release .tickslock]

/-- `yield()`. -/
def yield (flag : SchedFlag) : List Op :=
  (match flag with
    | .frr => stampQvalue
    | .q3 => [yieldMedium]
    | .rr | .grt => []) ++
  [acquire .ptable, schedAs .runnable, release .ptable]

/-- `exit()`; `kcode` is the closing of the open files and of the working directory. -/
def exitOps : List Op :=
  [exit, kcode none, acquire .ptable, wakeupParent, reparent, store (.priority (-1)),
    acquire .tickslock, store .etime, release .tickslock, schedAs .zombie, panic "zombie exit"]

/-- `fork()`, up to the choice of a slot in `allocproc`. -/
def forkOps : List Op :=
  [acquire .ptable, allocproc]

/-- The body of `fork` after `copyuvm`; `kcodeNosleep` duplicates the files and the directory. -/
def forkBody (i : Slot) : List Op :=
  [np i .sz, forkParent i, np i .tf, kcodeNosleep none, forkPid i]

/-- The end of `fork`, from the store that makes the child `RUNNABLE`. -/
def forkPublish (flag : SchedFlag) (i : Slot) (pid : Int) : List Op :=
  [forkRunnable i, late i .name, acquire .tickslock, late i .ctime, release .tickslock,
    late i .rtime] ++
  (match flag with
    | .frr => [late i .qvalueCtime]
    | .grt => [late i .qvalueZero]
    | .q3 => [late i .priorityHigh, late i .qvalueZero]
    | .rr => []) ++
  [store (.eax pid)]

/-- What the context built by `allocproc` runs: `forkret`, then `trapret`, then user code. -/
def forkret : List Op :=
  [release .ptable, forkretFirst, iret, user]

/-- `sys_sleep(n)`. -/
def sysSleep (n : Int) : List Op :=
  [acquire .tickslock, sleepTicks0 n]

/-- The dispatch of a system call. -/
def Syscall.ops : Syscall → List Op
  | .fork => forkOps
  | .exit => exitOps
  | .wait => [acquire .ptable, Op.wait false]
  | .wait2 => [acquire .ptable, Op.wait true]
  | .kill pid => [acquire .ptable, Op.kill pid]
  | .nice => [Op.nice]
  | .sleep n => sysSleep n
  | .other => [kcode none]

/-- `trap` on `T_SYSCALL`. -/
def trapSyscall (sc : Syscall) : List Op :=
  [ifKilledExit true, syscall sc, ifKilledExit true, iret]

/-- `trap` on the timer interrupt. -/
def trapTimer (fromUser : Bool) : List Op :=
  [timerIrq, ifKilledExit fromUser, ifYield, ifKilledExit fromUser, iret]

/-- `trap` on a device interrupt. -/
def trapDevice (fromUser : Bool) : List Op :=
  [kcodeNosleep none, ifKilledExit fromUser, ifKilledExit fromUser, iret]

/-- `trap` on an exception in user mode. -/
def trapFault : List Op :=
  [store .killed, ifKilledExit true, ifKilledExit true, iret]

/-- The timer branch of `trap` on CPU 0. -/
def timerOps : List Op :=
  [acquire .tickslock, tick, store .rtimeIncr, store .quantaDecr] ++ wakeup .ticks ++
  [release .tickslock]

/-- One iteration of the loop of `scheduler`, after its local assignments. -/
def schedPass : List Op :=
  [acquire .tickslock, schedTicks, release .tickslock, acquire .ptable, scan 0, choose,
    release .ptable, schedTop]

/-- What the processor or the rest of the kernel decides at a step. -/
inductive Choice where
  | go
  | page (n : Nat) | noPage
  | syscall (sc : Syscall) | fault
  | lock (n : Nat) | unlock | wake (n : Nat) | sleepOn (n : Nat)
  deriving DecidableEq, Repr

/-- The steps of the rest of the kernel: it takes and drops its own locks, wakes its own
channels and, in a system call, sleeps with the lock it holds. -/
def kcodeOps (mk : Option Nat → Op) (maySleep : Bool) : Option Nat → Choice → Option (List Op)
  | none, .go => some []
  | none, .lock n => some [acquire (.other n), mk (some n)]
  | some n, .unlock => some [release (.other n), mk none]
  | h, .wake c => some (wakeup (.other c) ++ [mk h])
  | some n, .sleepOn c => if maySleep then some (sleep (.other c) (.other n) ++ [mk (some n)]) else none
  | _, _ => none

end Os132

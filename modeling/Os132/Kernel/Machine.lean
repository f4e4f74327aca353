import Os132.Kernel.Sched
import Os132.Lib.Run

/-!
# The machine

Any number of CPUs share the kernel memory and the spin locks. Each CPU runs its scheduler
thread or the kernel thread of the process in its variable `proc`. A step executes the next
operation of the thread that a CPU runs, or delivers an interrupt to it. `swtch`, and the
stores to the CPU's own variables next to it, belong to the step of the shared access before
it. A CPU that finds a spin lock taken has no step until the lock is free.
-/

namespace Os132

open Op

/-- `struct cpu`, with the interrupt flag of the processor and the scheduler's thread. -/
structure Cpu where
  proc : Option Slot := none
  ncli : Int := 0
  intena : Bool := false
  /-- `FL_IF` of the processor. -/
  ie : Bool := false
  /-- What the scheduler's thread has left to execute. -/
  ops : List Op := [schedTop]
  loc : SchedLocals := {}

structure State where
  mem : Mem
  /-- The CPU that holds a lock. -/
  lock : Lock → Option CpuId
  cpu : CpuId → Cpu
  /-- What the kernel thread of a process has left to execute. -/
  kstk : Slot → List Op
  /-- The local variable `intena` of `sched` on the kernel stack of a process that is off CPU;
  a process that was never dispatched has none. -/
  intena : Slot → Option Bool
  panicked : Bool

namespace State

/-- The record of a process. -/
abbrev proc (s : State) : Table := s.mem.proc

def setCpu (s : State) (c : CpuId) (f : Cpu → Cpu) : State :=
  { s with cpu := fun d => if d = c then f (s.cpu d) else s.cpu d }

/-- What the thread that a CPU runs has left to execute. -/
def ops (s : State) (c : CpuId) : List Op :=
  match (s.cpu c).proc with
  | none => (s.cpu c).ops
  | some p => s.kstk p

def setOps (s : State) (c : CpuId) (l : List Op) : State :=
  match (s.cpu c).proc with
  | none => s.setCpu c fun k => { k with ops := l }
  | some p => { s with kstk := fun q => if q = p then l else s.kstk q }

def panic (s : State) : State := { s with panicked := true }

section
variable (s : State) (c : CpuId) (l : List Op) (f : Cpu → Cpu)

@[simp] lemma setCpu_mem : (s.setCpu c f).mem = s.mem := rfl
@[simp] lemma setCpu_lock : (s.setCpu c f).lock = s.lock := rfl
@[simp] lemma setCpu_kstk : (s.setCpu c f).kstk = s.kstk := rfl
@[simp] lemma setCpu_intena : (s.setCpu c f).intena = s.intena := rfl
@[simp] lemma setCpu_self : (s.setCpu c f).cpu c = f (s.cpu c) := by simp [setCpu]
lemma setCpu_ne {d : CpuId} (h : d ≠ c) : (s.setCpu c f).cpu d = s.cpu d := by simp [setCpu, h]

@[simp] lemma setOps_mem : (s.setOps c l).mem = s.mem := by unfold setOps; split <;> rfl
@[simp] lemma setOps_lock : (s.setOps c l).lock = s.lock := by unfold setOps; split <;> rfl
@[simp] lemma setOps_intena : (s.setOps c l).intena = s.intena := by unfold setOps; split <;> rfl

lemma setOps_kstk (q : Slot) :
    (s.setOps c l).kstk q = if (s.cpu c).proc = some q then l else s.kstk q := by
  unfold setOps
  split <;> rename_i h
  · simp [h]
  · simp [h, eq_comm]

lemma setOps_ne {d : CpuId} (h : d ≠ c) : (s.setOps c l).cpu d = s.cpu d := by
  unfold setOps
  split
  · exact setCpu_ne s c _ h
  · rfl

lemma setOps_self : (s.setOps c l).cpu c =
    { s.cpu c with ops := if (s.cpu c).proc = none then l else (s.cpu c).ops } := by
  unfold setOps
  split <;> rename_i h
  · simp [h]
  · rw [if_neg (by simp [h])]

end

end State

/-- `pushcli`. -/
def Cpu.pushcli (k : Cpu) : Cpu :=
  { k with ie := false, ncli := k.ncli + 1, intena := if k.ncli = 0 then k.ie else k.intena }

/-- `popcli`; `none` is a panic. -/
def Cpu.popcli (k : Cpu) : Option Cpu :=
  if k.ie then none
  else if k.ncli - 1 < 0 then none
  else some { k with ncli := k.ncli - 1, ie := k.ncli - 1 = 0 && k.intena }

/-- `wakeup1(chan)`. -/
def Table.wakeup1 (tbl : Table) (chan : Option Chan) : Table := fun j =>
  if (tbl j).state = .sleeping ∧ (tbl j).chan = chan then { tbl j with state := .runnable } else tbl j

/-- The children of an exiting process pass to `init`. -/
def Table.adopt (tbl : Table) (i : Slot) : Table := fun j =>
  if (tbl j).parent = some i then { tbl j with parent := some initproc } else tbl j

/-- The stores of `kill` to the record it finds. -/
def Proc.kill (p : Proc) : Proc :=
  { p with killed := true, state := if p.state = .sleeping then .runnable else p.state }

/-- The stores of `wait` to the record it reaps. -/
def Proc.reap (p : Proc) : Proc :=
  { p with state := .unused, pid := 0, parent := none, name := "", killed := false, kstack := none }

/-- The stores of `wait2` to the memory of its caller, for the zombie `z`. -/
def Proc.report (z p : Proc) : Proc :=
  { p with rtimeCell := z.rtime, wtimeCell := int32 (z.etime - z.ctime - z.rtime) }

def Proc.isUnused (p : Proc) : Bool := p.state = .unused
def Proc.isChildOf (i : Slot) (p : Proc) : Bool := p.parent = some i
def Proc.isZombieOf (i : Slot) (p : Proc) : Bool := p.parent = some i && p.state = .zombie

/-- The effect of an operation of a process or interrupt handler on kernel memory, and the
steps it puts in front of the thread. `self` is the CPU's variable `proc`. -/
def act (flag : SchedFlag) (c : CpuId) (self : Option Slot) (ch : Choice) (m : Mem) :
    Op → Option (Mem × List Op)
  | ifKilledExit fromUser =>
    match self with
    | some i => some (m, if (m.proc i).killed && fromUser then exitOps else [])
    | none => some (m, [])
  | .syscall sc => some (m, sc.ops)
  | timerIrq => some (m, if c = 0 then timerOps else [])
  | tick => some ({ m with ticks := uint32 (m.ticks + 1) }, [])
  | ifYield =>
    match self with
    | some i => some (m, if (m.proc i).state = .running ∧ (m.proc i).quanta ≤ 0 then yield flag else [])
    | none => some (m, [])
  | store f =>
    match self with
    | some i => some ({ m with proc := m.proc.set i fun p => f.apply m.ticks p }, [])
    | none => some (m, [])
  | schedAs st => self.map fun i => ({ m with proc := m.proc.set i fun p => { p with state := st } }, [sched])
  | allocproc =>
    match m.proc.find Proc.isUnused with
    | some i => some ({ m with
        proc := m.proc.set i fun p => { p with state := .embryo, pid := m.nextpid }
        nextpid := int32 (m.nextpid + 1) }, [release .ptable, allocKstack i])
    | none => some (m, [release .ptable, store (.eax (-1))])
  | allocKstack i =>
    match ch with
    | .page n => if m.kmem n then none else some ({ m with
        proc := m.proc.set i fun p => { p with kstack := some n }
        kmem := fun k => if k = n then true else m.kmem k }, [allocContext i, copyuvm i])
    | .noPage => some ({ m with proc := m.proc.set i fun p => { p with kstack := none } },
        [forkUnused i, store (.eax (-1))])
    | _ => none
  | copyuvm i =>
    match ch with
    | .page n => if m.kmem n then none else some ({ m with
        proc := m.proc.set i fun p => { p with pgdir := some n }
        kmem := fun k => if k = n then true else m.kmem k }, forkBody i)
    | .noPage => some ({ m with proc := m.proc.set i fun p => { p with pgdir := none } },
        [freeKstack i, forkUnused i, store (.eax (-1))])
    | _ => none
  | freeKstack i => some ({ m with
      proc := m.proc.set i fun p => { p with kstack := none }
      kmem := fun k => if (m.proc i).kstack = some k then false else m.kmem k }, [])
  | forkUnused i => some ({ m with proc := m.proc.set i fun p => { p with state := .unused } }, [])
  | np i f => self.map fun j => ({ m with proc := m.proc.set i fun p => f.apply (m.proc j) p }, [])
  | forkParent i => self.map fun j => ({ m with proc := m.proc.set i fun p => { p with parent := some j } }, [])
  | forkPid i => some (m, forkPublish flag i (m.proc i).pid)
  | forkRunnable i => some ({ m with proc := m.proc.set i fun p => { p with state := .runnable } }, [])
  | late i f => self.map fun j => ({ m with proc := m.proc.set i fun p => f.apply m.ticks (m.proc j) p }, [])
  | forkretFirst => some ({ m with first := false }, if m.first then [kcode none] else [])
  | exit => self.map fun i => (m, if i = initproc then [panic "init exiting"] else [])
  | wakeupParent => self.map fun i =>
      ({ m with proc := m.proc.wakeup1 ((m.proc i).parent.map Chan.proc) }, [])
  | reparent => self.map fun i =>
      ({ m with proc := if (m.proc.find (Proc.isZombieOf i)).isSome
          then (m.proc.adopt i).wakeup1 (some (.proc initproc)) else m.proc.adopt i }, [])
  | wakeup1 chan => some ({ m with proc := m.proc.wakeup1 (some chan) }, [])
  | .wait two => self.map fun i =>
      match m.proc.find (Proc.isZombieOf i) with
      | some j =>
        let z := m.proc j
        ({ m with
          proc := if two then (m.proc.set j Proc.reap).set i z.report else m.proc.set j Proc.reap
          kmem := fun k => if z.kstack = some k ∨ z.pgdir = some k then false else m.kmem k },
          [release .ptable, store (.eax z.pid)])
      | none =>
        if (m.proc.find (Proc.isChildOf i)).isNone || (m.proc i).killed then
          (m, [release .ptable, store (.eax (-1))])
        else (m, sleep (.proc i) .ptable ++ [.wait two])
  | .kill pid =>
    match m.proc.find fun p => p.pid = pid with
    | some j => some ({ m with proc := m.proc.set j Proc.kill }, [release .ptable, store (.eax 0)])
    | none => some (m, [release .ptable, store (.eax (-1))])
  | .nice => self.map fun i => (m,
      if (m.proc i).priority = HIGH then [store .priorityDecr] ++ stampQvalue ++ [store (.eax 0)]
      else if (m.proc i).priority = MEDIUM then [store .priorityDecr, store (.eax 0)]
      else [store (.eax (-1))])
  | yieldMedium => self.map fun i => (m, if (m.proc i).priority = MEDIUM then stampQvalue else [])
  | sleepTicks0 n => some (m, [sleepTest n m.ticks])
  | sleepTest n t0 => some (m, if uint32 (m.ticks - t0) < uint32 n then [sleepKilled n t0]
      else [release .tickslock, store (.eax 0)])
  | sleepKilled n t0 => self.map fun i => (m,
      if (m.proc i).killed then [release .tickslock, store (.eax (-1))]
      else sleep .ticks .tickslock ++ [sleepTest n t0])
  | kcode h => (kcodeOps kcode true h ch).map fun e => (m, e)
  | kcodeNosleep h => (kcodeOps kcodeNosleep false h ch).map fun e => (m, e)
  | _ => none

namespace State

/-- Control passes to the kernel thread of a process. -/
def dispatch (s : State) (c : CpuId) (i : Slot) : State :=
  { s with mem := { s.mem with proc := s.mem.proc.set i fun p => { p with state := .running } } }.setCpu c
    fun k => { k with proc := some i, intena := (s.intena i).getD k.intena }

lemma dispatch_field {α : Type} (s : State) (c : CpuId) (i j : Slot) (field : Proc → α)
    (h : ∀ p st, field { p with state := st } = field p) : field ((s.dispatch c i).proc j) = field (s.proc j) :=
  Table.set_field _ _ _ _ field fun p => h p _

/-- The scheduler's thread with its local variables and the table rewritten. -/
def scanned (s : State) (c : CpuId) (l : List Op) (loc : SchedLocals) (tbl : Table) : State :=
  { (s.setOps c l).setCpu c fun k => { k with loc := loc } with mem := { s.mem with proc := tbl } }

/-- The lock is free and the CPU has the interrupt state of `k`. -/
def unlock (s : State) (c : CpuId) (lk : Lock) (rest : List Op) (k : Cpu) : State :=
  { (s.setOps c rest).setCpu c fun d => { d with ncli := k.ncli, ie := k.ie } with
    lock := fun l => if l = lk then none else s.lock l }

/-- `release(lk)`. -/
def releaseStep (s : State) (c : CpuId) (lk : Lock) (rest : List Op) : State :=
  if s.lock lk = some c then
    match (s.cpu c).popcli with
    | none => s.panic
    | some k => s.unlock c lk rest k
  else s.panic

/-- `sched()`: the switch to the scheduler, which clears its variable `proc`. -/
def schedStep (s : State) (c : CpuId) (rest : List Op) : State :=
  match (s.cpu c).proc with
  | none => s.panic
  | some i =>
    if s.lock .ptable ≠ some c ∨ (s.cpu c).ncli ≠ 1 ∨ (s.proc i).state = .running ∨ (s.cpu c).ie then s.panic
    else { (s.setOps c rest).setCpu c fun k => { k with proc := none } with
      intena := fun j => if j = i then some (s.cpu c).intena else s.intena j }

end State

/-- Executes an operation in front of the rest of the thread that the CPU runs. -/
def execOp (flag : SchedFlag) (c : CpuId) (ch : Choice) (rest : List Op) (s : State) : Op → Option State
  | acquire lk =>
    if s.lock lk = some c then some s.panic
    else some ((s.setOps c (spin lk :: rest)).setCpu c Cpu.pushcli)
  | spin lk =>
    if s.lock lk = none then
      some { s.setOps c rest with lock := fun l => if l = lk then some c else s.lock l }
    else none
  | release lk => some (s.releaseStep c lk rest)
  | iret => some ((s.setOps c rest).setCpu c fun k => { k with ie := true })
  | user =>
    match ch with
    | .syscall sc => some (s.setOps c (trapSyscall sc ++ user :: rest))
    | .fault => some ((s.setOps c (trapFault ++ user :: rest)).setCpu c fun k => { k with ie := false })
    | _ => none
  | Op.sched => some (s.schedStep c rest)
  | Op.panic _ => some s.panic
  | allocContext i => some { s.setOps c rest with
      kstk := fun j => if j = i then forkret else (s.setOps c rest).kstk j
      intena := fun j => if j = i then none else s.intena j }
  | schedTop => some ((s.setOps c schedPass).setCpu c fun k => { k with ie := true, loc := k.loc.top })
  | schedTicks => some ((s.setOps c rest).setCpu c fun k =>
      { k with loc := { k.loc with currentime := int32 s.mem.ticks } })
  | scan i =>
    if i < NPROC then
      let r := visit flag (s.cpu c).loc s.proc
      let s' := s.scanned c (scan (i + 1) :: rest) r.1 r.2.1
      some (if r.2.2 then s'.dispatch c (s.cpu c).loc.slot else s')
    else some (s.setOps c rest)
  | choose =>
    let s' := s.scanned c rest ((s.cpu c).loc.pick flag s.proc) s.proc
    some (match (s.cpu c).loc.chosen flag s.proc with
      | some i => s'.dispatch c i
      | none => s')
  | op => (act flag c (s.cpu c).proc ch s.mem op).map fun r =>
      { s.setOps c (r.2 ++ rest) with mem := r.1 }

/-- An interrupt gate: the handler runs with interrupts off, on top of the thread. -/
def interrupt (s : State) (c : CpuId) (handler : Bool → List Op) : Option State :=
  if (s.cpu c).ie then
    some ((s.setOps c (handler ((s.ops c).head? == some user) ++ s.ops c)).setCpu c
      fun k => { k with ie := false })
  else none

/-- What happens at a step of a CPU. -/
inductive Action where
  | exec (ch : Choice) | timer | device
  deriving DecidableEq, Repr

structure Label where
  cpu : CpuId
  action : Action
  deriving DecidableEq, Repr

/-- The step function of a machine with `ncpu` CPUs. -/
def step (flag : SchedFlag) (ncpu : Nat) (l : Label) (s : State) : Option State :=
  if s.panicked ∨ ncpu ≤ l.cpu then none
  else match l.action with
    | .timer => interrupt s l.cpu trapTimer
    | .device => interrupt s l.cpu trapDevice
    | .exec ch =>
      match s.ops l.cpu with
      | [] => none
      | op :: rest => execOp flag l.cpu ch rest s op

/-- The memory after `userinit`: the first process is `RUNNABLE` and runs `initcode`. -/
def userinit : Mem where
  proc := fun i => if i = initproc then
    { state := .runnable, pid := 1, kstack := some 0, pgdir := some 1, sz := 4096, name := "initcode" } else {}
  nextpid := 2
  kmem := fun k => k < 2

/-- The CPUs are about to enter the loop of `scheduler`; its pointers `p`, `high` and `medium`
have not been assigned. -/
structure Boot (s : State) : Prop where
  mem : s.mem = userinit
  lock : ∀ lk, s.lock lk = none
  kstk : ∀ i, s.kstk i = if i = initproc then forkret else []
  intena : ∀ i, s.intena i = none
  panicked : s.panicked = false
  proc : ∀ c, (s.cpu c).proc = none
  ncli : ∀ c, (s.cpu c).ncli = 0
  ops : ∀ c, (s.cpu c).ops = [schedTop]
  t : ∀ c, (s.cpu c).loc.t = 0
  head : ∀ c, (s.cpu c).loc.head = none

/-- The initial state in which all other variables are zero. -/
def bootState : State where
  mem := userinit
  lock _ := none
  cpu _ := {}
  kstk i := if i = initproc then forkret else []
  intena _ := none
  panicked := false

lemma boot_bootState : Boot bootState :=
  ⟨rfl, fun _ => rfl, fun _ => rfl, fun _ => rfl, rfl, fun _ => rfl, fun _ => rfl, fun _ => rfl, fun _ => rfl,
    fun _ => rfl⟩

instance : Inhabited Label := ⟨⟨0, .exec .go⟩⟩

/-- `n` steps of a CPU at which the processor has nothing to decide. -/
def go (c : CpuId) (n : Nat) : List Label := List.replicate n ⟨c, .exec .go⟩

/-- A step of a CPU with a decision. -/
def exec (c : CpuId) (ch : Choice) : List Label := [⟨c, .exec ch⟩]

/-- A timer interrupt on a CPU. -/
def timer (c : CpuId) : List Label := [⟨c, .timer⟩]

/-- Runs of the kernel. -/
abbrev KRun (flag : SchedFlag) (ncpu n : Nat) := Lts.Run Boot (step flag ncpu) n

end Os132

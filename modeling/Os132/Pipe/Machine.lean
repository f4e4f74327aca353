import Os132.Lib.Run
import Os132.Lib.Ring

/-!
# A pipe and the processes that use it

`pipewrite`, `piperead` and `pipeclose` of pipe.c in steps. A process holds `p->lock` while it is at `test`,
`copy` or `tosleep`; `sleep` releases the lock and goes to sleep in one step, and a sleeper that was woken
takes the lock again. A descriptor of an end may be shared by `fork` and `dup`; the last one to go calls `pipeclose`.
`kill` may come between any two steps.
-/

namespace Os132

namespace Pipes

def PIPESIZE : UInt32 := 512

structure Pipe where
  data : ℕ → UInt8
  nread : UInt32
  nwrite : UInt32
  readopen : Bool
  writeopen : Bool

/-- The two channels of a pipe. -/
inductive Chan where
  | nread
  | nwrite
  deriving DecidableEq

/-- Where a process is in its call. -/
inductive At where
  /-- before `acquire(&p->lock)` -/
  | enter
  /-- at the tests before the next byte, or of the first loop of `piperead` -/
  | test
  /-- in the copy loop of `piperead` -/
  | copy
  /-- before `sleep` -/
  | tosleep
  | asleep
  /-- in `sleep`, before it takes `p->lock` again -/
  | woken
  deriving DecidableEq

/-- A call of `pipewrite` for `n` bytes of `src`, of which `i` are stored; the process had stored `base` before. -/
structure Write where
  src : ℕ → UInt8
  n : ℤ
  i : ℕ
  base : ℕ

/-- A call of `piperead` for `n` bytes, with those it has. -/
structure Read where
  n : ℤ
  got : List UInt8

inductive Pc where
  | idle
  | write (w : Write) (a : At)
  | read (r : Read) (a : At)
  /-- in `fileclose`, before `pipeclose` -/
  | close (writable : Bool)

/-- The state of one pipe. `stored` and `returned` are history: the bytes in the order stored, each with
its writer, and the bytes returned by reads. -/
structure State (P : Type) where
  pipe : Pipe
  lock : Option P
  pc : P → Pc
  killed : P → Bool
  /-- the processes with a descriptor of the read end, one entry a descriptor -/
  rfds : List P
  wfds : List P
  stored : List (P × UInt8)
  returned : List UInt8

variable {P : Type} [DecidableEq P]

def Pipe.full (b : Pipe) : Bool := b.nwrite == b.nread + PIPESIZE

def Pipe.empty (b : Pipe) : Bool := b.nread == b.nwrite

/-- `p->data[p->nwrite++ % PIPESIZE] = v`. -/
def Pipe.put (b : Pipe) (v : UInt8) : Pipe :=
  { b with data := fun j => if j = (b.nwrite % PIPESIZE).toNat then v else b.data j, nwrite := b.nwrite + 1 }

/-- `p->data[p->nread++ % PIPESIZE]`. -/
def Pipe.front (b : Pipe) : UInt8 := b.data (b.nread % PIPESIZE).toNat

def Pipe.drop (b : Pipe) : Pipe := { b with nread := b.nread + 1 }

/-- What `wakeup` does to a process. -/
def Pc.wake (c : Chan) : Pc → Pc
  | .write w .asleep => if c = .nwrite then .write w .woken else .write w .asleep
  | .read r .asleep => if c = .nread then .read r .woken else .read r .asleep
  | pc => pc

namespace State

variable (s : State P) (p : P)

def goto (pc : Pc) : State P := { s with pc := fun q => if q = p then pc else s.pc q }

def wakeup (c : Chan) : State P := { s with pc := fun q => (s.pc q).wake c }

/-- `acquire(&p->lock)`. -/
def acquire (pc : Pc) : Option (State P) :=
  if s.lock.isNone then some { s.goto p pc with lock := some p } else none

/-- `release(&p->lock)`. -/
def release (pc : Pc) : State P := { s.goto p pc with lock := none }

/-- The next step of process `p`. -/
def act : Option (State P) :=
  match s.pc p with
  | .write w .enter | .write w .woken => s.acquire p (.write w .test)
  | .write w .test =>
    if (w.i : ℤ) < w.n then
      if s.pipe.full then
        if !s.pipe.readopen || s.killed p then some (s.release p .idle)
        else some ((s.wakeup .nread).goto p (.write w .tosleep))
      else some { s.goto p (.write { w with i := w.i + 1 } .test) with
        pipe := s.pipe.put (w.src w.i)
        stored := s.stored ++ [(p, w.src w.i)] }
    else some ((s.wakeup .nread).release p .idle)
  | .write w .tosleep => some (s.release p (.write w .asleep))
  | .read r .enter | .read r .woken => s.acquire p (.read r .test)
  | .read r .test =>
    if s.pipe.empty && s.pipe.writeopen then
      if s.killed p then some (s.release p .idle) else some (s.goto p (.read r .tosleep))
    else some (s.goto p (.read r .copy))
  | .read r .tosleep => some (s.release p (.read r .asleep))
  | .read r .copy =>
    if (r.got.length : ℤ) < r.n && !s.pipe.empty then
      some { s.goto p (.read { r with got := r.got ++ [s.pipe.front] } .copy) with pipe := s.pipe.drop }
    else some { (s.wakeup .nwrite).release p .idle with returned := s.returned ++ r.got }
  | .close writable =>
    if s.lock.isNone then
      if writable then some { (s.wakeup .nread).goto p .idle with pipe := { s.pipe with writeopen := false } }
      else some { (s.wakeup .nwrite).goto p .idle with pipe := { s.pipe with readopen := false } }
    else none
  | _ => none

/-- What the call returns, if the next step of `p` is its last. -/
def result : Option ℤ :=
  match s.pc p with
  | .write w .test =>
    if (w.i : ℤ) < w.n then
      if s.pipe.full && (!s.pipe.readopen || s.killed p) then some (-1) else none
    else some w.n
  | .read _ .test => if s.pipe.empty && s.pipe.writeopen && s.killed p then some (-1) else none
  | .read r .copy => if (r.got.length : ℤ) < r.n && !s.pipe.empty then none else some r.got.length
  | _ => none

/-- The bytes that `p` has stored. -/
def storedBy : List UInt8 := (s.stored.filter (·.1 = p)).map Prod.snd

end State

inductive Label (P : Type) where
  | write (p : P) (src : ℕ → UInt8) (n : ℤ)
  | read (p : P) (n : ℤ)
  | act (p : P)
  | close (p : P) (writable : Bool)
  /-- `fork` or `dup`: `q` gets a descriptor -/
  | share (p q : P) (writable : Bool)
  | kill (p : P)

/-- `p` is between system calls. -/
def State.Idle (s : State P) (p : P) : Bool := match s.pc p with | .idle => true | _ => false

def step : Label P → State P → Option (State P)
  | .write p src n, s =>
    if s.Idle p ∧ p ∈ s.wfds then some (s.goto p (.write ⟨src, n, 0, (s.storedBy p).length⟩ .enter)) else none
  | .read p n, s =>
    if s.Idle p ∧ p ∈ s.rfds then some (s.goto p (.read ⟨n, []⟩ .enter)) else none
  | .act p, s => s.act p
  | .close p true, s =>
    if s.Idle p ∧ p ∈ s.wfds then
      some { s.goto p (if s.wfds.erase p = [] then .close true else .idle) with wfds := s.wfds.erase p }
    else none
  | .close p false, s =>
    if s.Idle p ∧ p ∈ s.rfds then
      some { s.goto p (if s.rfds.erase p = [] then .close false else .idle) with rfds := s.rfds.erase p }
    else none
  | .share p q true, s =>
    if s.Idle p ∧ s.Idle q ∧ p ∈ s.wfds then some { s with wfds := q :: s.wfds } else none
  | .share p q false, s =>
    if s.Idle p ∧ s.Idle q ∧ p ∈ s.rfds then some { s with rfds := q :: s.rfds } else none
  | .kill p, s =>
    some { (s.goto p (((s.pc p).wake .nread).wake .nwrite)) with killed := fun q => if q = p then true else s.killed q }

/-- The pipe as `pipealloc` makes it, with both descriptors in one process. -/
structure Start (s : State P) : Prop where
  nread : s.pipe.nread = 0
  nwrite : s.pipe.nwrite = 0
  readopen : s.pipe.readopen = true
  writeopen : s.pipe.writeopen = true
  lock : s.lock = none
  pc : ∀ p, s.pc p = .idle
  fds : ∃ p, s.rfds = [p] ∧ s.wfds = [p]
  stored : s.stored = []
  returned : s.returned = []

end Pipes

end Os132

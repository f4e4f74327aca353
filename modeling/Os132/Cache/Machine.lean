import Os132.Lib.Chain
import Os132.Lib.Run
import Mathlib.Data.Finset.Insert

/-!
# The buffer cache under concurrent calls (bio.c)

Any number of processes call `bread`, `bwrite`, `log_write` and `brelse`. Whatever a process does with
`bcache.lock` held is one step, and so is every stretch of code between two points at which it may sleep.
A request handed to `iderw` waits in `idequeue` until the interrupt handler completes it; the disk serves
the request at the head and makes no errors. A panic stops the machine.
-/

namespace Os132

namespace Bcache

def NBUF : ℕ := 10

def LOGSIZE : ℕ := 10

def ROOTDEV : ℕ := 1

/-- The `dev` of a buffer that has not been used: -1. -/
def NODEV : ℕ := 2 ^ 32 - 1

abbrev BufId := Fin NBUF

/-- The contents of a sector. -/
abbrev Block := ℕ → ℕ

/-- `struct buf`; `next` and `prev` are fields of the state. `changed` is no field of the source: the holder has
stored in `data` since it last called `bread`, `bwrite` or `log_write`. -/
structure Buf where
  busy : Bool
  valid : Bool
  dirty : Bool
  dev : ℕ
  sector : ℕ
  data : Block
  changed : Bool

namespace Buf

variable (b : Buf)

/-- `(flags & (B_VALID|B_DIRTY)) == B_VALID` -/
def ready : Bool := b.valid && !b.dirty

/-- The buffer holds `sector` of `dev`. -/
def Caches (dev sector : ℕ) : Prop := b.dev = dev ∧ b.sector = sector

/-- `bget` may recycle it. -/
def Spare : Prop := b.busy = false ∧ b.dirty = false

instance (dev sector : ℕ) : Decidable (b.Caches dev sector) := inferInstanceAs (Decidable (_ ∧ _))

instance : Decidable b.Spare := inferInstanceAs (Decidable (_ ∧ _))

end Buf

/-- `struct log`; `n` and `sector` are the header `lh`. -/
structure Log where
  start : ℕ
  size : ℤ
  busy : Bool
  n : ℤ
  sector : ℕ → ℕ

/-- The index that the loop of `log_write` ends with. -/
def Log.slot (l : Log) (sector : ℕ) : ℕ :=
  ((List.range l.n.toNat).find? fun i => l.sector i = sector).getD l.n.toNat

/-- Who calls `bread`: code outside, or `log_write(b)` for entry `i` of the log. -/
inductive Use where
  | caller
  | log_write (b : BufId) (i : ℕ)

/-- Where a process is. -/
inductive Pc where
  | idle
  /-- `bget` at `loop`, about to take `bcache.lock` or with it taken again -/
  | bget (dev sector : ℕ) (k : Use)
  /-- `bget` asleep on `c` -/
  | asleep (c : BufId) (dev sector : ℕ) (k : Use)
  /-- `bread` behind `bget` -/
  | test (c : BufId) (dev sector : ℕ) (k : Use)
  /-- `bread` in `iderw` -/
  | fill (c : BufId) (dev sector : ℕ) (k : Use)
  /-- `bwrite(c)` in `iderw`, called by `log_write(b)` if there is a `b` -/
  | write (c : BufId) (k : Option (BufId × ℕ))
  /-- `log_write(b)` behind `lbuf = bread(...)` -/
  | logCopy (lbuf b : BufId) (i : ℕ)
  /-- before `brelse(lbuf)` -/
  | logRelse (lbuf b : BufId) (i : ℕ)
  /-- behind it -/
  | logMark (b : BufId) (i : ℕ)

/-- `wakeup(c)` sends a process in `bget` back to `loop`. One in `iderw` tests the flags again. -/
def Pc.wake (c : BufId) : Pc → Pc
  | .asleep b dev sector k => if b = c then .bget dev sector k else .asleep b dev sector k
  | pc => pc

/-- The cache, the disk queue and the processes. `own p` are the buffers that `p` has from `bget` and has not released.
The last two fields are history: the disk at the start, and what was last written to a sector through the cache. -/
structure State (P : Type) where
  next : Option BufId → Option BufId
  prev : Option BufId → Option BufId
  buf : BufId → Buf
  own : P → Finset BufId
  pc : P → Pc
  idequeue : List BufId
  disk : ℕ → ℕ → Block
  havedisk1 : Bool
  log : Log
  panicked : Option String
  image : ℕ → ℕ → Block
  last : ℕ → ℕ → Option Block

variable {P : Type} [DecidableEq P]

namespace State

variable (s : State P)

def goto (p : P) (pc : Pc) : State P := { s with pc := fun q => if q = p then pc else s.pc q }

def setBuf (c : BufId) (b : Buf) : State P := { s with buf := fun d => if d = c then b else s.buf d }

def halt (msg : String) : State P := { s with panicked := some msg }

/-- `p` gets buffer `c` from `bget`. -/
def take (p : P) (c : BufId) (b : Buf) (pc : Pc) : State P :=
  { (s.setBuf c b).goto p pc with own := fun q => if q = p then insert c (s.own q) else s.own q }

/-- What was last written to a sector through the cache, or the disk's own bytes. -/
def expected (dev sector : ℕ) : Block := (s.last dev sector).getD (s.image dev sector)

/-- The contents of `c` are written through the cache. -/
def record (c : BufId) : State P :=
  { s with
    last := fun dev sector =>
      if (s.buf c).dev = dev ∧ (s.buf c).sector = sector then some (s.buf c).data else s.last dev sector }

/-- The first loop of `bget`, along `next`. -/
def cached (dev sector : ℕ) : Option BufId :=
  Chain.seek s.next (fun c => decide ((s.buf c).Caches dev sector)) (NBUF + 1) (s.next none)

/-- The second loop of `bget`, along `prev`. -/
def spare : Option BufId := Chain.seek s.prev (fun c => decide (s.buf c).Spare) (NBUF + 1) (s.prev none)

/-- `bget`, from `loop` on. -/
def bget (p : P) (dev sector : ℕ) (k : Use) : State P :=
  match s.cached dev sector with
  | some c =>
    if (s.buf c).busy then s.goto p (.asleep c dev sector k)
    else s.take p c { s.buf c with busy := true } (.test c dev sector k)
  | none =>
    match s.spare with
    | some c =>
      s.take p c { s.buf c with dev := dev, sector := sector, busy := true, valid := false, dirty := false }
        (.test c dev sector k)
    | none => s.halt "bget: no buffers"

/-- `iderw`, up to its sleep. -/
def iderw (p : P) (c : BufId) (pc : Pc) : State P :=
  if (s.buf c).busy = false then s.halt "iderw: buf not busy"
  else if (s.buf c).ready then s.halt "iderw: nothing to do"
  else if (s.buf c).dev ≠ 0 ∧ s.havedisk1 = false then s.halt "iderw: ide disk 1 not present"
  else { s.goto p pc with idequeue := s.idequeue ++ [c] }

/-- `bread` returns `c`. -/
def returns (p : P) (c : BufId) : Use → State P
  | .caller => s.goto p .idle
  | .log_write b i => s.goto p (.logCopy c b i)

def bwrite (p : P) (c : BufId) (k : Option (BufId × ℕ)) : State P :=
  if (s.buf c).busy = false then s.halt "bwrite"
  else ((s.record c).setBuf c { s.buf c with dirty := true, changed := false }).iderw p c (.write c k)

def brelse (p : P) (c : BufId) (pc : Pc) : State P :=
  if (s.buf c).busy = false then s.halt "brelse"
  else
    let links := Chain.push c (Chain.unlink c (s.next, s.prev))
    { s.setBuf c { s.buf c with busy := false } with
      next := links.1
      prev := links.2
      own := fun q => if q = p then (s.own q).erase c else s.own q
      pc := fun q => if q = p then pc else (s.pc q).wake c }

/-- `log_write`, up to its `bread`. -/
def log_write (p : P) (b : BufId) : State P :=
  if (LOGSIZE : ℤ) ≤ s.log.n ∨ s.log.size - 1 ≤ s.log.n then s.halt "too big a transaction"
  else if s.log.busy = false then s.halt "write outside of trans"
  else
    let i := s.log.slot (s.buf b).sector
    { s.goto p (.bget (s.buf b).dev ((s.log.start + i + 1) % 2 ^ 32) (.log_write b i)) with
      log := { s.log with sector := fun j => if j = i then (s.buf b).sector else s.log.sector j } }

/-- The end of `log_write`. -/
def mark (p : P) (b : BufId) (i : ℕ) : State P :=
  { ((s.record b).setBuf b { s.buf b with dirty := true, changed := false }).goto p .idle with
    log := { s.log with n := if (i : ℤ) = s.log.n then s.log.n + 1 else s.log.n } }

/-- The command for `c`, complete, and what `ideintr` does with it: the disk gets one bit of `dev` and 28 of `sector`. -/
def complete (c : BufId) : State P :=
  let b := s.buf c
  { s with
    buf := fun d =>
      if d = c then
        { b with
          data := if b.dirty then b.data else s.disk (b.dev % 2) (b.sector % 2 ^ 28)
          valid := true
          dirty := false }
      else s.buf d
    disk := fun d x =>
      if b.dirty = true ∧ d = b.dev % 2 ∧ x = b.sector % 2 ^ 28 then b.data else s.disk d x
    pc := fun q => (s.pc q).wake c }

/-- `ideintr`, with the work of the disk before it. -/
def ideintr : State P :=
  match s.idequeue with
  | [] => s
  | c :: q => { s.complete c with idequeue := q }

/-- A process goes on to its next sleep. -/
def run (p : P) : Option (State P) :=
  match s.pc p with
  | .idle => none
  | .asleep .. => none
  | .bget dev sector k => some (s.bget p dev sector k)
  | .test c dev sector k =>
    if (s.buf c).valid then some (s.returns p c k) else some (s.iderw p c (.fill c dev sector k))
  | .fill c _ _ k => if (s.buf c).ready then some (s.returns p c k) else none
  | .write c none => if (s.buf c).ready then some (s.goto p .idle) else none
  | .write c (some (b, i)) => if (s.buf c).ready then some (s.goto p (.logRelse c b i)) else none
  | .logCopy c b i =>
    some ((s.setBuf c { s.buf c with data := (s.buf b).data, changed := true }).bwrite p c (some (b, i)))
  | .logRelse c b i => some (s.brelse p c (.logMark b i))
  | .logMark b i => some (s.mark p b i)

end State

inductive Label (P : Type) where
  | bread (p : P) (dev sector : ℕ)
  /-- the holder stores in `b->data` -/
  | store (p : P) (b : BufId) (data : Block)
  | bwrite (p : P) (b : BufId)
  | log_write (p : P) (b : BufId)
  | brelse (p : P) (b : BufId)
  /-- a process goes on with a call -/
  | run (p : P)
  | ideintr
  /-- `kill` ends the sleep of a process -/
  | kill (p : P)
  /-- `begin_trans`, `commit_trans` and the recovery change `log` -/
  | log (l : Log)

instance : Inhabited (Label P) := ⟨.ideintr⟩

/-- `p` is between calls. -/
def State.Idle (s : State P) (p : P) : Bool :=
  match s.pc p with
  | .idle => true
  | _ => false

def step (l : Label P) (s : State P) : Option (State P) :=
  if s.panicked.isSome then none
  else match l with
    | .bread p dev sector => if s.Idle p then some (s.goto p (.bget dev sector .caller)) else none
    | .store p b data =>
      if s.Idle p ∧ b ∈ s.own p then some (s.setBuf b { s.buf b with data := data, changed := true }) else none
    | .bwrite p b => if s.Idle p ∧ b ∈ s.own p then some (s.bwrite p b none) else none
    | .log_write p b => if s.Idle p ∧ b ∈ s.own p then some (s.log_write p b) else none
    | .brelse p b => if s.Idle p ∧ b ∈ s.own p then some (s.brelse p b .idle) else none
    | .run p => s.run p
    | .ideintr => some s.ideintr
    | .kill p =>
      match s.pc p with
      | .asleep _ dev sector k => some (s.goto p (.bget dev sector k))
      | _ => some s
    | .log l => some { s with log := l }

/-- The links that the loop of `binit` builds. -/
def links : (Option BufId → Option BufId) × (Option BufId → Option BufId) :=
  (List.finRange NBUF).foldl (fun l b => Chain.push b l) (fun _ => none, fun _ => none)

/-- After `binit`, with any contents of the disks. -/
def binit (image : ℕ → ℕ → Block) (havedisk1 : Bool) (log : Log) : State P where
  next := links.1
  prev := links.2
  buf := fun _ => ⟨false, false, false, NODEV, 0, fun _ => 0, false⟩
  own := fun _ => ∅
  pc := fun _ => .idle
  idequeue := []
  disk := image
  havedisk1 := havedisk1
  log := log
  panicked := none
  image := image
  last := fun _ _ => none

/-- The states at the start. -/
def Start (s : State P) : Prop := ∃ image havedisk1 log, s = binit image havedisk1 log

end Bcache

end Os132

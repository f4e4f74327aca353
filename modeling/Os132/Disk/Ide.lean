import Os132.Lib.Run

/-!
# The IDE driver and the disk in memory

`idestart`, `ideintr` and `iderw` of ide.c around an interrupt-driven disk, and `iderw` of memide.c, which
does the same at once. `idelock` is held from `acquire` to the `sleep` or `release`, so each stretch of the
driver is one step; the disk works by itself and interrupts once for each command. A buffer is used by the process that
holds it (`B_BUSY`), which may do what it likes with it while it is not in `iderw`.
-/

namespace Os132

namespace Disk

abbrev NBUF : ℕ := 10

abbrev BufId := Fin NBUF

abbrev Block := ℕ → UInt8

/-- `struct buf` without its links. -/
structure Buf where
  valid : Bool
  dirty : Bool
  dev : ℕ
  sector : ℕ
  data : Block

/-- `(b->flags & (B_VALID|B_DIRTY)) == B_VALID`. -/
def Buf.ready (b : Buf) : Bool := b.valid && !b.dirty

/-- The buffer after its request: what the disk has fetched if it was read. -/
def Buf.complete (b : Buf) (latch : Block) : Buf :=
  { b with valid := true, dirty := false, data := if b.dirty then b.data else latch }

/-! ### memide.c -/

/-- The buffers and the disk of memide.c. -/
structure Mem where
  buf : BufId → Buf
  busy : BufId → Bool
  disk : ℕ → Block

/-- `disksize` for an image of `img` bytes. -/
def disksize (img : UInt32) : ℕ := img.toNat / 512

variable (img : UInt32)

/-- `iderw` of memide.c; `none` where it panics. -/
def Mem.iderw (b : BufId) (m : Mem) : Option Mem :=
  if !m.busy b then none
  else if (m.buf b).ready then none
  else if (m.buf b).dev ≠ 1 then none
  else if (m.buf b).sector ≥ disksize img then none
  else if (m.buf b).dirty then
    some { m with
      buf := fun c => if c = b then { m.buf b with dirty := false, valid := true } else m.buf c
      disk := fun x => if x = (m.buf b).sector then (m.buf b).data else m.disk x }
  else
    some { m with buf := fun c => if c = b then { m.buf b with data := m.disk (m.buf b).sector, valid := true } else m.buf c }

/-- What happens to buffers and disk: a process takes, changes or gives back a buffer, or calls `iderw`. -/
inductive Use where
  | take (b : BufId)
  | touch (b : BufId) (v : Buf)
  | release (b : BufId)
  | iderw (b : BufId)

def Mem.use (m : Mem) : Use → Option Mem
  | .take b => some { m with busy := fun c => if c = b then true else m.busy c }
  | .touch b v => some { m with buf := fun c => if c = b then v else m.buf c }
  | .release b => some { m with busy := fun c => if c = b then false else m.busy c }
  | .iderw b => m.iderw img b

def Mem.uses : List Use → Mem → Option Mem
  | [], m => some m
  | u :: us, m => (m.use img u).bind (Mem.uses us)

/-! ### ide.c -/

/-- The command in the disk's registers. -/
inductive Cmd where
  | read (dev sector : ℕ)
  | write (dev sector : ℕ) (data : Block)

/-- Where a process is: outside `iderw`, or in it, asleep on its buffer or woken. -/
inductive Pc where
  | idle
  | asleep (b : BufId)
  | woken (b : BufId)
  deriving DecidableEq

/-- `arrived` and `served` are history: the requests in the order of their arrival and of their completion. -/
structure State (P : Type) where
  buf : BufId → Buf
  qnext : BufId → Option BufId
  idequeue : Option BufId
  /-- the process that holds the buffer -/
  holder : BufId → Option P
  pc : P → Pc
  disk : ℕ → ℕ → Block
  havedisk1 : Bool
  cmd : Option Cmd
  /-- the command is complete and the interrupt pending -/
  done : Bool
  /-- the sector that a read has fetched -/
  latch : Block
  arrived : List BufId
  served : List BufId

variable {P : Type} [DecidableEq P]

namespace State

variable (s : State P)

/-- The command for a buffer: the disk gets one bit of `dev` and 28 of `sector`. -/
def command (b : Buf) : Cmd :=
  if b.dirty then .write (b.dev % 2) (b.sector % 2 ^ 28) b.data else .read (b.dev % 2) (b.sector % 2 ^ 28)

/-- `idestart`; `idewait` would not return with a command under way. -/
def idestart (b : BufId) : Option (State P) :=
  if s.cmd.isNone then some { s with cmd := some (command (s.buf b)), done := false } else none

/-- The loop `for(pp=&idequeue; *pp; pp=&(*pp)->qnext)`: the buffer whose `qnext` is the place at the end. -/
def last : ℕ → BufId → Option BufId
  | 0, _ => none
  | fuel + 1, c =>
    match s.qnext c with
    | none => some c
    | some d => last fuel d

/-- `*pp = b` behind the last buffer. -/
def append (b : BufId) : Option (State P) :=
  let s := { s with qnext := fun c => if c = b then none else s.qnext c }
  match s.idequeue with
  | none => some { s with idequeue := some b }
  | some c =>
    (s.last NBUF c).map fun d => { s with qnext := fun c => if c = d then some b else s.qnext c }

/-- The loop at the end of `iderw`, for a process that holds `idelock`. -/
def await (p : P) (b : BufId) : State P :=
  { s with pc := fun q => if q = p then (if (s.buf b).ready then .idle else .asleep b) else s.pc q }

/-- `iderw` up to its sleep; `none` where it panics. -/
def iderw (p : P) (b : BufId) : Option (State P) :=
  if (s.holder b).isNone then none
  else if (s.buf b).ready then none
  else if (s.buf b).dev ≠ 0 ∧ s.havedisk1 = false then none
  else do
    let s ← s.append b
    let s := { s with arrived := s.arrived ++ [b] }
    let s ← if s.idequeue = some b then s.idestart b else some s
    pure (s.await p b)

/-- `ideintr`. -/
def ideintr : Option (State P) :=
  match s.idequeue with
  | none => some { s with done := false }
  | some b =>
    -- taking the interrupt ends the command
    let s := { s with
      idequeue := s.qnext b
      buf := fun c => if c = b then (s.buf b).complete s.latch else s.buf c
      pc := fun q => if s.pc q = Pc.asleep b then Pc.woken b else s.pc q
      cmd := none
      done := false
      served := s.served ++ [b] }
    match s.idequeue with
    | none => some s
    | some c => s.idestart c

/-- The disk completes its command. -/
def finish : Option (State P) :=
  match s.cmd with
  | none => none
  | some c =>
    if s.done then none
    else match c with
      | .read dev sector => some { s with done := true, latch := s.disk dev sector }
      | .write dev sector data =>
        some { s with done := true, disk := fun d x => if d = dev ∧ x = sector then data else s.disk d x }

end State

inductive Label (P : Type) where
  | take (p : P) (b : BufId)
  | touch (p : P) (b : BufId) (v : Buf)
  | release (p : P) (b : BufId)
  | iderw (p : P) (b : BufId)
  /-- the disk completes its command -/
  | finish
  /-- the interrupt for a completed command, or one that means nothing to an idle disk -/
  | intr
  /-- a process that was woken takes `idelock` again -/
  | run (p : P)
  /-- `kill` ends the sleep of a process -/
  | kill (p : P)

/-- The steps. The requests are those that memide.c accepts: for disk 1 and a sector that it has. -/
def step : Label P → State P → Option (State P)
  | .take p b, s =>
    if s.holder b = none then some { s with holder := fun c => if c = b then some p else s.holder c } else none
  | .touch p b v, s =>
    if s.holder b = some p ∧ s.pc p = .idle then some { s with buf := fun c => if c = b then v else s.buf c } else none
  | .release p b, s =>
    if s.holder b = some p ∧ s.pc p = .idle then some { s with holder := fun c => if c = b then none else s.holder c } else none
  | .iderw p b, s =>
    if s.holder b = some p ∧ s.pc p = .idle ∧ (s.buf b).dev = 1 ∧ (s.buf b).sector < disksize img then s.iderw p b else none
  | .finish, s => s.finish
  | .intr, s => if s.done || s.cmd.isNone then s.ideintr else none
  | .run p, s =>
    match s.pc p with
    | .woken b => some (s.await p b)
    | _ => none
  | .kill p, s =>
    match s.pc p with
    | .asleep b => some { s with pc := fun q => if q = p then .woken b else s.pc q }
    | _ => some s

/-- Nothing is requested. -/
structure Start (s : State P) : Prop where
  idequeue : s.idequeue = none
  holder : ∀ b, s.holder b = none
  pc : ∀ p, s.pc p = .idle
  cmd : s.cmd = none
  done : s.done = false
  arrived : s.arrived = []
  served : s.served = []

end Disk

end Os132

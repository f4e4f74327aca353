import Os132.Lib.Run
import Os132.Lib.Ledger
import Mathlib.Data.Fintype.Prod

/-!
# The file table under concurrent calls (file.c, pipe.c, sysfile.c, proc.c)

Any number of processes open, duplicate and close files, make pipes, fork and exit. What a call does with one lock held,
or with nothing but its own process to touch, is one step; between its steps other processes go on. `namei`,
`create` and the rest of the inode layer appear as the reference that they hand out and that `iput` takes back.
-/

namespace Os132

namespace Ftable

def NFILE : ℕ := 100

def NOFILE : ℕ := 16

abbrev FileId := Fin NFILE

abbrev Fd := Fin NOFILE

/-- The number of a page of memory. -/
abbrev Page := ℕ

/-- An entry of the inode cache. -/
abbrev Inode := ℕ

inductive FdType where
  | none
  | pipe
  | inode
  deriving DecidableEq

/-- `struct file` -/
structure File where
  type : FdType
  ref : ℕ
  readable : Bool
  writable : Bool
  pipe : Page
  ip : Inode
  off : ℕ

/-- The two flags of `struct pipe`. -/
structure Pipe where
  readopen : Bool
  writeopen : Bool
  deriving DecidableEq

/-- The end of the pipe that a file with this `writable` closes is open. -/
def Pipe.isOpen (p : Pipe) (writable : Bool) : Bool := if writable then p.writeopen else p.readopen

/-- `p->writeopen = 0` or `p->readopen = 0` -/
def Pipe.shut (p : Pipe) (writable : Bool) : Pipe :=
  if writable then { p with writeopen := false } else { p with readopen := false }

/-- What a process does after its calls of `fileclose`: return from `close`, `ofile[fd] = 0` in `exit`, `iunlockput(ip)` and
the return of -1 in `open`, the return of -1 in `pipe`. The page of the pipe that failed is there until it is freed; the
code has no such variable. -/
inductive After where
  | close
  | exit (fd : Fd)
  | openFail (ip : Inode)
  | pipeFail (g : Option Page)

/-- Where a process is. -/
inductive Pc (P : Type) where
  | idle
  /-- `open`: before `filealloc`, `fdalloc`, the stores in `f`, and the `iput` on the way to a failure -/
  | openAlloc (ip : Inode) (readable writable : Bool)
  | openFd (f : FileId) (ip : Inode) (readable writable : Bool)
  | openSet (f : FileId) (ip : Inode) (readable writable : Bool)
  | openPut (ip : Inode)
  /-- `dup`: before `filedup`; `fd` points to `f` already -/
  | dup (f : FileId) (fd : Fd)
  /-- `pipe`: before the two `filealloc`, `kalloc`, the stores in the two files, and the two `fdalloc` -/
  | pipe0
  | pipe1 (f0 : FileId)
  | pipe2 (f0 f1 : FileId)
  | pipeSet0 (f0 f1 : FileId) (g : Page)
  | pipeSet1 (f0 f1 : FileId) (g : Page)
  | pipeFd0 (f0 f1 : FileId) (g : Page)
  | pipeFd1 (fd0 : Fd) (f0 f1 : FileId) (g : Page)
  /-- `fileclose` of these files is to come -/
  | closing (l : List FileId) (k : After)
  /-- in `fileclose`, behind the release of `ftable.lock`: `pipeclose`, then perhaps `kfree` -/
  | pipeclose (f : FileId) (g : Page) (writable : Bool) (l : List FileId) (k : After)
  | kfree (g : Page) (l : List FileId) (k : After)
  /-- or `begin_trans(); iput(ff.ip); commit_trans()` -/
  | iput (f : FileId) (ip : Inode) (l : List FileId) (k : After)
  /-- the loop of `fork` at descriptor `i`, with child `q` -/
  | fork (q : P) (i : ℕ)
  /-- the loop of `exit` at descriptor `i` -/
  | exit (i : ℕ)

/-- A slot of `ptable`: `UNUSED` (or a zombie that is about to be reaped), a child in the making, or a process. -/
inductive Life where
  | unused
  | embryo
  | live
  deriving DecidableEq

/-- What the current call of a process, or else its last one, has changed: the descriptors at its start, and the sums of
its changes to the reference counts, the free pages and the references to inodes. `failed` is set when `open` or
`pipe` has returned -1. None of this is in the source. -/
structure Call where
  table : Fd → Option FileId
  refs : FileId → ℤ
  pages : Page → ℤ
  inodes : Inode → ℤ
  failed : Bool

/-- The file table, the pipes, the free pages and the processes. The rest is history: a panic or a use of a pipe that has been
freed; how often an entry was set up for a pipe or an inode, and how often its end or its reference was given up; how often
a page was made a pipe and freed; and the record of each process. -/
structure State (P : Type) where
  file : FileId → File
  pipe : Page → Option Pipe
  free : List Page
  iref : Inode → ℕ
  life : P → Life
  ofile : P → Fd → Option FileId
  pc : P → Pc P
  fault : Bool
  setups : FileId → ℕ
  drops : FileId → ℕ
  made : Page → ℕ
  freed : Page → ℕ
  call : P → Call

/-- The pipe that failed has been freed. -/
def After.paid : After → After
  | .pipeFail _ => .pipeFail none
  | k => k

variable {P : Type} [DecidableEq P]

namespace State

variable (s : State P)

def goto (p : P) (pc : Pc P) : State P := { s with pc := fun q => if q = p then pc else s.pc q }

def setFile (f : FileId) (x : File) : State P := { s with file := fun y => if y = f then x else s.file y }

def setSlot (p : P) (fd : Fd) (v : Option FileId) : State P :=
  { s with ofile := fun q x => if q = p ∧ x = fd then v else s.ofile q x }

def setPipe (g : Page) (x : Option Pipe) : State P := { s with pipe := fun y => if y = g then x else s.pipe y }

def halt : State P := { s with fault := true }

/-- A call of `p` begins. -/
def start (p : P) : State P :=
  { s with call := fun q => if q = p then ⟨s.ofile p, fun _ => 0, fun _ => 0, fun _ => 0, false⟩ else s.call q }

def addRef (p : P) (f : FileId) (d : ℤ) : State P :=
  { s with
    call := fun q =>
      if q = p then { s.call p with refs := fun y => if y = f then (s.call p).refs y + d else (s.call p).refs y } else s.call q }

def addPage (p : P) (g : Page) (d : ℤ) : State P :=
  { s with
    call := fun q =>
      if q = p then { s.call p with pages := fun y => if y = g then (s.call p).pages y + d else (s.call p).pages y } else s.call q }

def addInode (p : P) (ip : Inode) (d : ℤ) : State P :=
  { s with
    call := fun q =>
      if q = p then { s.call p with inodes := fun y => if y = ip then (s.call p).inodes y + d else (s.call p).inodes y }
      else s.call q }

/-- `open` or `pipe` returns -1. -/
def fail (p : P) : State P :=
  { s.goto p .idle with call := fun q => if q = p then { s.call p with failed := true } else s.call q }

/-- The loop of `filealloc`. -/
def unusedFile : Option FileId := (List.finRange NFILE).find? fun f => (s.file f).ref = 0

/-- `filealloc`, for an entry that its loop has found. -/
def filealloc (p : P) (f : FileId) : State P := (s.setFile f { s.file f with ref := 1 }).addRef p f 1

/-- The loop of `fdalloc`. -/
def unusedFd (p : P) : Option Fd := (List.finRange NOFILE).find? fun fd => s.ofile p fd = none

/-- The entry gets a type. -/
def setUp (f : FileId) (x : File) : State P :=
  { s.setFile f x with setups := fun y => if y = f then s.setups y + 1 else s.setups y }

/-- The end or the reference of an entry is given up. -/
def drop (f : FileId) : State P := { s with drops := fun y => if y = f then s.drops y + 1 else s.drops y }

def setIref (ip : Inode) (n : ℕ) : State P := { s with iref := fun y => if y = ip then n else s.iref y }

/-- `fileclose(f)`, up to the release of `ftable.lock`. -/
def fileclose (p : P) (f : FileId) (l : List FileId) (k : After) : State P :=
  let ff := s.file f
  if ff.ref < 1 then s.halt
  else if 1 < ff.ref then ((s.setFile f { ff with ref := ff.ref - 1 }).addRef p f (-1)).goto p (.closing l k)
  else
    ((s.setFile f { ff with ref := 0, type := .none }).addRef p f (-1)).goto p <|
      match ff.type with
      | .none => .closing l k
      | .pipe => .pipeclose f ff.pipe ff.writable l k
      | .inode => .iput f ff.ip l k

/-- `pipeclose(p, writable)`, where `p` is page `g`. -/
def pipeclose (p : P) (f : FileId) (g : Page) (writable : Bool) (l : List FileId) (k : After) : State P :=
  match s.pipe g with
  | none => s.halt
  | some x =>
    ((s.setPipe g (some (x.shut writable))).drop f).goto p <|
      if x.shut writable = ⟨false, false⟩ then .kfree g l k else .closing l k

/-- `kfree` at the end of `pipeclose`. -/
def kfree (p : P) (g : Page) (l : List FileId) (k : After) : State P :=
  match s.pipe g with
  | none => s.halt
  | some _ =>
    { ((s.setPipe g none).addPage p g 1).goto p (.closing l k.paid) with
      free := g :: s.free
      freed := fun y => if y = g then s.freed y + 1 else s.freed y }

/-- `iput(ip)` -/
def iput (p : P) (ip : Inode) : State P := (s.setIref ip (s.iref ip - 1)).addInode p ip (-1)

/-- The end of the calls of `fileclose`. -/
def closed (p : P) : After → State P
  | .close => s.goto p .idle
  | .exit fd => (s.setSlot p fd none).goto p (.exit (fd + 1))
  | .openFail ip => s.goto p (.openPut ip)
  | .pipeFail _ => s.fail p

/-- `p = kalloc(); p->readopen = 1; p->writeopen = 1` in `pipealloc`. -/
def pipePage (p : P) (f0 f1 : FileId) : State P :=
  match s.free with
  | [] => s.goto p (.closing [f0, f1] (.pipeFail none))
  | g :: rest =>
    { ((s.setPipe g (some ⟨true, true⟩)).addPage p g (-1)).goto p (.pipeSet0 f0 f1 g) with
      free := rest
      made := fun y => if y = g then s.made y + 1 else s.made y }

/-- The entry of a pipe's end. -/
def pipeEnd (x : File) (g : Page) (writable : Bool) : File :=
  { x with type := .pipe, readable := !writable, writable := writable, pipe := g }

/-- One descriptor in the loop of `fork`. -/
def forkFd (p q : P) (fd : Fd) : State P :=
  match s.ofile p fd with
  | none => s.goto p (.fork q (fd + 1))
  | some f =>
    if (s.file f).ref < 1 then s.halt
    else
      ((s.setFile f { s.file f with ref := (s.file f).ref + 1 }).setSlot q fd (some f)).goto p (.fork q (fd + 1))

/-- `np->state = RUNNABLE` -/
def born (p q : P) : State P :=
  { s.goto p .idle with life := fun x => if x = q then .live else s.life x }

/-- One descriptor in the loop of `exit`. -/
def exitFd (p : P) (fd : Fd) : State P :=
  match s.ofile p fd with
  | none => s.goto p (.exit (fd + 1))
  | some f => s.goto p (.closing [f] (.exit fd))

/-- The process is a zombie; `wait` frees its slot some time. -/
def gone (p : P) : State P :=
  { s.goto p .idle with life := fun x => if x = p then .unused else s.life x }

/-- The next step of a call. -/
def act (p : P) : Option (State P) :=
  match s.pc p with
  | .idle => none
  | .openAlloc ip readable writable =>
    match s.unusedFile with
    | none => some (s.goto p (.openPut ip))
    | some f => some ((s.filealloc p f).goto p (.openFd f ip readable writable))
  | .openFd f ip readable writable =>
    match s.unusedFd p with
    | none => some (s.goto p (.closing [f] (.openFail ip)))
    | some fd => some ((s.setSlot p fd (some f)).goto p (.openSet f ip readable writable))
  | .openSet f ip readable writable =>
    some ((s.setUp f { s.file f with type := .inode, ip := ip, off := 0, readable := readable, writable := writable }).goto p .idle)
  | .openPut ip => some ((s.iput p ip).fail p)
  | .dup f _ =>
    if (s.file f).ref < 1 then some s.halt
    else some ((s.setFile f { s.file f with ref := (s.file f).ref + 1 }).goto p .idle)
  | .pipe0 =>
    match s.unusedFile with
    | none => some (s.goto p (.closing [] (.pipeFail none)))
    | some f => some ((s.filealloc p f).goto p (.pipe1 f))
  | .pipe1 f0 =>
    match s.unusedFile with
    | none => some (s.goto p (.closing [f0] (.pipeFail none)))
    | some f => some ((s.filealloc p f).goto p (.pipe2 f0 f))
  | .pipe2 f0 f1 => some (s.pipePage p f0 f1)
  | .pipeSet0 f0 f1 g => some ((s.setUp f0 (pipeEnd (s.file f0) g false)).goto p (.pipeSet1 f0 f1 g))
  | .pipeSet1 f0 f1 g => some ((s.setUp f1 (pipeEnd (s.file f1) g true)).goto p (.pipeFd0 f0 f1 g))
  | .pipeFd0 f0 f1 g =>
    match s.unusedFd p with
    | none => some (s.goto p (.closing [f0, f1] (.pipeFail (some g))))
    | some fd => some ((s.setSlot p fd (some f0)).goto p (.pipeFd1 fd f0 f1 g))
  | .pipeFd1 fd0 f0 f1 g =>
    match s.unusedFd p with
    | none => some ((s.setSlot p fd0 none).goto p (.closing [f0, f1] (.pipeFail (some g))))
    | some fd => some ((s.setSlot p fd (some f1)).goto p .idle)
  | .closing [] k => some (s.closed p k)
  | .closing (f :: l) k => some (s.fileclose p f l k)
  | .pipeclose f g writable l k => some (s.pipeclose p f g writable l k)
  | .kfree g l k => some (s.kfree p g l k)
  | .iput f ip l k => some (((s.iput p ip).drop f).goto p (.closing l k))
  | .fork q i => if h : i < NOFILE then some (s.forkFd p q ⟨i, h⟩) else some (s.born p q)
  | .exit i => if h : i < NOFILE then some (s.exitFd p ⟨i, h⟩) else some (s.gone p)

end State

inductive Label (P : Type) where
  /-- `namei` or `create` has failed, or returned `ip` with a reference; `dir`: it is a directory, opened to write -/
  | opens (p : P) (ip : Option Inode) (dir readable writable : Bool)
  | dup (p : P) (fd : Fd)
  | pipe (p : P)
  | close (p : P) (fd : Fd)
  | fork (p q : P)
  | exit (p : P)
  /-- `read` or `write`, which go to the pipe if the descriptor is one's -/
  | uses (p : P) (fd : Fd)
  /-- the next step of a call -/
  | act (p : P)
  /-- the rest of the kernel takes a page or frees one of its own -/
  | kalloc
  | kfree (g : Page)

/-- `p` runs user code. -/
def State.Ready (s : State P) (p : P) : Bool :=
  match s.pc p with
  | .idle => s.life p == .live
  | _ => false

/-- A use of the pipe of an open file. -/
def State.touch (s : State P) (f : FileId) : State P :=
  if (s.file f).type = .pipe ∧ s.pipe (s.file f).pipe = none then s.halt else s

/-- A call of a process that runs user code. -/
def State.enter (s : State P) : Label P → Option (State P)
  | .opens p none _ _ _ => if s.Ready p then some ((s.start p).fail p) else none
  | .opens p (some ip) dir readable writable =>
    if s.Ready p then
      some ((((s.start p).setIref ip (s.iref ip + 1)).addInode p ip 1).goto p
        (if dir then .openPut ip else .openAlloc ip readable writable))
    else none
  | .dup p fd =>
    if s.Ready p then
      match s.ofile p fd, s.unusedFd p with
      | some f, some fd' => some (((s.start p).setSlot p fd' (some f)).goto p (.dup f fd'))
      | _, _ => some (s.start p)
    else none
  | .pipe p => if s.Ready p then some ((s.start p).goto p .pipe0) else none
  | .close p fd =>
    if s.Ready p then
      match s.ofile p fd with
      | some f => some (((s.start p).setSlot p fd none).goto p (.closing [f] .close))
      | none => some (s.start p)
    else none
  | .fork p q =>
    if s.Ready p ∧ s.life q = .unused then
      some { ((s.start p).start q).goto p (.fork q 0) with life := fun x => if x = q then .embryo else s.life x }
    else none
  | .exit p => if s.Ready p then some ((s.start p).goto p (.exit 0)) else none
  | .uses p fd =>
    if s.Ready p then
      match s.ofile p fd with
      | some f => some (s.touch f)
      | none => some s
    else none
  | _ => none

def step (l : Label P) (s : State P) : Option (State P) :=
  if s.fault then none
  else match l with
    | .act p => s.act p
    | .kalloc =>
      match s.free with
      | [] => some s
      | _ :: rest => some { s with free := rest }
    | .kfree g => if g ∉ s.free ∧ s.pipe g = none then some { s with free := g :: s.free } else none
    | l => s.enter l

/-- No file is open. -/
structure Start (s : State P) : Prop where
  file : ∀ f, (s.file f).type = .none ∧ (s.file f).ref = 0
  pipe : ∀ g, s.pipe g = none
  free : s.free.Nodup
  iref : ∀ ip, s.iref ip = 0
  ofile : ∀ p fd, s.ofile p fd = none
  pc : ∀ p, s.pc p = .idle
  life : ∀ p, s.life p ≠ .embryo
  fault : s.fault = false
  history : (∀ f, s.setups f = 0 ∧ s.drops f = 0) ∧ (∀ g, s.made g = 0 ∧ s.freed g = 0) ∧ ∀ p, (s.call p).failed = false

end Ftable

end Os132

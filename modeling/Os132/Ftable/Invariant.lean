import Os132.Ftable.Machine

/-!
# The references to files, inodes and pipes

Five ledgers say who holds what: the references to an entry of the file table, to an inode, to the ends of a pipe, to a page that
is about to be freed, and the releases of an entry that are still to come. `Inv` adds what the steps need of the rest
of the state.
-/

namespace Os132

namespace Ftable

section holders

variable {P : Type}

def After.inodes : After → List Inode
  | .openFail ip => [ip]
  | _ => []

/-- The references to entries that a process has in hand. -/
def Pc.hands : Pc P → List FileId
  | .openFd f _ _ _ => [f]
  | .pipe1 f0 => [f0]
  | .pipe2 f0 f1 => [f0, f1]
  | .pipeSet0 f0 f1 _ => [f0, f1]
  | .pipeSet1 f0 f1 _ => [f0, f1]
  | .pipeFd0 f0 f1 _ => [f0, f1]
  | .pipeFd1 _ _ f1 _ => [f1]
  | .closing l _ => l
  | .pipeclose _ _ _ l _ => l
  | .kfree _ l _ => l
  | .iput _ _ l _ => l
  | _ => []

def After.skip : After → Option Fd
  | .exit fd => some fd
  | _ => none

/-- A descriptor that has no reference: one that `dup` has set already, or one that `exit` is closing. -/
def Pc.skip : Pc P → Option Fd
  | .dup _ fd => some fd
  | .closing _ k => k.skip
  | .pipeclose _ _ _ _ k => k.skip
  | .kfree _ _ k => k.skip
  | .iput _ _ _ k => k.skip
  | _ => none

/-- The references to inodes in hand. -/
def Pc.inodes : Pc P → List Inode
  | .openAlloc ip _ _ => [ip]
  | .openFd _ ip _ _ => [ip]
  | .openSet _ ip _ _ => [ip]
  | .openPut ip => [ip]
  | .closing _ k => k.inodes
  | .pipeclose _ _ _ _ k => k.inodes
  | .kfree _ _ k => k.inodes
  | .iput _ ip _ k => ip :: k.inodes
  | _ => []

/-- The open ends of pipes in hand. -/
def Pc.ends : Pc P → List (Page × Bool)
  | .pipeSet0 _ _ g => [(g, false), (g, true)]
  | .pipeSet1 _ _ g => [(g, true)]
  | .pipeclose _ g w _ _ => [(g, w)]
  | _ => []

/-- The page that `kfree` will get. -/
def Pc.frees : Pc P → List Page
  | .kfree g _ _ => [g]
  | _ => []

def After.cleared : After → ℕ
  | .exit fd => fd
  | _ => 0

/-- The number of descriptors that `exit` has closed. -/
def Pc.cleared : Pc P → ℕ
  | .exit i => i
  | .closing _ k => k.cleared
  | .pipeclose _ _ _ _ k => k.cleared
  | .kfree _ _ k => k.cleared
  | .iput _ _ _ k => k.cleared
  | _ => 0

/-- The entry whose end or inode is to be given up. -/
def Pc.releases : Pc P → List FileId
  | .pipeclose f _ _ _ _ => [f]
  | .iput f _ _ _ => [f]
  | _ => []

def File.inodes (x : File) : List Inode := if x.type = .inode then [x.ip] else []

def File.ends (x : File) : List (Page × Bool) := if x.type = .pipe then [(x.pipe, x.writable)] else []

/-- The reference of a descriptor. -/
def slotRef (o : Fd → Option FileId) (skip : Option Fd) (fd : Fd) : List FileId := if skip = some fd then [] else (o fd).toList

variable (s : State P)

def State.slot (x : P × Fd) : List FileId := slotRef (s.ofile x.1) (s.pc x.1).skip x.2

/-- The number of open ends: 0 or 1 for either. -/
def State.openEnds (x : Page × Bool) : ℕ :=
  match s.pipe x.1 with
  | some b => if b.isOpen x.2 then 1 else 0
  | none => 0

def State.shutPipes (g : Page) : ℕ := if s.pipe g = some ⟨false, false⟩ then 1 else 0

def State.typed (f : FileId) : List FileId := if (s.file f).type = .none then [] else [f]

end holders

/-- Entry `f` is in no other hands. -/
structure New {P : Type} (s : State P) (f : FileId) (type : FdType) : Prop where
  type : (s.file f).type = type
  ref : (s.file f).ref = 1

/-- A new entry for an end of pipe `g`. -/
structure NewEnd {P : Type} (s : State P) (f : FileId) (g : Page) (writable : Bool) : Prop extends New s f .pipe where
  pipe : (s.file f).pipe = g
  writable : (s.file f).writable = writable

/-- What a failing call knows of the entries that it has still to close. -/
def Undo {P : Type} (s : State P) (l : List FileId) : After → Prop
  | .openFail _ => ∀ f ∈ l, New s f .none
  | .pipeFail none => ∀ f ∈ l, New s f .none
  | .pipeFail (some g) =>
    (∃ f0 f1, l = [f0, f1] ∧ NewEnd s f0 g false ∧ NewEnd s f1 g true) ∨
      ∃ f1, l = [f1] ∧ NewEnd s f1 g true ∧ s.pipe g = some ⟨false, true⟩
  | _ => True

/-- What a process knows at each place. -/
def At {P : Type} (s : State P) (p : P) : Pc P → Prop
  | .openFd f _ _ _ => New s f .none
  | .openSet f _ _ _ => New s f .none ∧ ∃ fd, s.ofile p fd = some f
  | .dup f fd => s.ofile p fd = some f ∧ ∃ fd', fd' ≠ fd ∧ s.ofile p fd' = some f
  | .pipe1 f0 => New s f0 .none
  | .pipe2 f0 f1 => New s f0 .none ∧ New s f1 .none
  | .pipeSet0 f0 f1 _ => New s f0 .none ∧ New s f1 .none
  | .pipeSet1 f0 f1 g => NewEnd s f0 g false ∧ New s f1 .none
  | .pipeFd0 f0 f1 g => NewEnd s f0 g false ∧ NewEnd s f1 g true
  | .pipeFd1 fd0 f0 f1 g => NewEnd s f0 g false ∧ NewEnd s f1 g true ∧ s.ofile p fd0 = some f0
  | .closing l k => Undo s l k
  | .pipeclose _ g w l k =>
    match k with
    | .openFail _ => False
    | .pipeFail none => False
    | .pipeFail (some g') => g = g' ∧
        ((w = false ∧ ∃ f1, l = [f1] ∧ NewEnd s f1 g true) ∨ w = true ∧ l = [] ∧ s.pipe g = some ⟨false, true⟩)
    | _ => True
  | .kfree g l k =>
    match k with
    | .openFail _ => False
    | .pipeFail none => False
    | .pipeFail (some g') => g = g' ∧ l = []
    | _ => True
  | .iput _ _ _ k =>
    match k with
    | .openFail _ => False
    | .pipeFail _ => False
    | _ => True
  | .fork q i => s.life q = .embryo ∧ ∀ j : Fd, i ≤ j → s.ofile q j = none
  | _ => True

/-- The invariant. -/
structure Inv {P : Type} [Fintype P] (s : State P) : Prop where
  refs : Ledger (fun f => (s.file f).ref) (fun _ => 0) (fun p => (s.pc p).hands) s.slot
  inodes : Ledger s.iref (fun _ => 0) (fun p => (s.pc p).inodes) fun f => (s.file f).inodes
  ends : Ledger s.openEnds (fun _ => 0) (fun p => (s.pc p).ends) fun f => (s.file f).ends
  frees : Ledger s.shutPipes (fun _ => 0) (fun p => (s.pc p).frees) fun _ : Unit => []
  releases : Ledger s.setups s.drops (fun p => (s.pc p).releases) s.typed
  typed : ∀ f, (s.file f).type ≠ .none → 0 < (s.file f).ref
  pages : ∀ g, s.made g = s.freed g + if (s.pipe g).isSome then 1 else 0
  nodup : s.free.Nodup
  unpiped : ∀ g ∈ s.free, s.pipe g = none
  fault : s.fault = false
  busy : ∀ p, s.life p ≠ .live → s.pc p = .idle
  unused : ∀ p, s.life p = .unused → ∀ fd, s.ofile p fd = none
  cleared : ∀ p (fd : Fd), fd < (s.pc p).cleared → s.ofile p fd = none
  parent : ∀ p p' q i i', s.pc p = .fork q i → s.pc p' = .fork q i' → p = p'
  place : ∀ p, At s p (s.pc p)

end Ftable

end Os132

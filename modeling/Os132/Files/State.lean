import Os132.Lib.Prog

/-!
# The state of the file system (fs.h, file.h, param.h)

What the buffer cache shows of the disk: the inodes of the inode blocks, the bits of the bitmap
blocks, the bytes of all other sectors. Over it the inode cache, the transaction that is open, the
table of open files and what each process holds. There is one device, so device numbers are left
out, and pipes, which touch no inode.

The functions of fs.c, file.c and sysfile.c are programs whose actions are the critical sections of
the source: what a process does between two points at which another one may run.
-/

namespace Os132

namespace Files

def ROOTINO : ℕ := 1
def BSIZE : ℕ := 512
def NDIRECT : ℕ := 12
def NINDIRECT : ℕ := 128
def MAXFILE : ℕ := NDIRECT + NINDIRECT
/-- Inodes per block. -/
def IPB : ℕ := 8
/-- Bitmap bits per block. -/
def BPB : ℕ := BSIZE * 8
def DIRSIZ : ℕ := 14
/-- `sizeof(struct dirent)` -/
def DIRENT : ℕ := 16
def NINODE : ℕ := 50
def NFILE : ℕ := 100
def NOFILE : ℕ := 16
def NDEV : ℕ := 10
def LOGSIZE : ℕ := 10

def T_DIR : Int16 := 1
def T_FILE : Int16 := 2
def T_DEV : Int16 := 3

/-- The first major number with functions in `devsw`. -/
def CONSOLE : Int16 := 1

/-- `struct superblock` -/
structure Super where
  size : ℕ
  nblocks : ℕ
  ninodes : ℕ
  nlog : ℕ

/-- `IBLOCK(i)` -/
def IBLOCK (i : ℕ) : ℕ := i / IPB + 2

/-- `BBLOCK(b, ninodes)` -/
def BBLOCK (b ninodes : ℕ) : ℕ := b / BPB + ninodes / IPB + 3

/-- The bytes of a sector. -/
abbrev Block := ℕ → UInt8

namespace Block

/-- Entry `i` of a block read as `uint a[]`. -/
def word (b : Block) (i : ℕ) : ℕ :=
  (b (4 * i)).toNat + 256 * (b (4 * i + 1)).toNat + 65536 * (b (4 * i + 2)).toNat + 16777216 * (b (4 * i + 3)).toNat

def setWord (b : Block) (i v : ℕ) : Block := fun j =>
  if j = 4 * i then UInt8.ofNat v
  else if j = 4 * i + 1 then UInt8.ofNat (v / 256)
  else if j = 4 * i + 2 then UInt8.ofNat (v / 65536)
  else if j = 4 * i + 3 then UInt8.ofNat (v / 16777216)
  else b j

/-- `memmove(data + off, src, src.length)` -/
def copy (b : Block) (off : ℕ) (src : List UInt8) : Block :=
  fun j => if off ≤ j then (src[j - off]?).getD (b j) else b j

end Block

/-- `struct dinode`, and the copy of it in `struct inode`; a free inode has type 0. -/
structure Dinode where
  type : Int16
  major : Int16
  minor : Int16
  nlink : Int16
  size : ℕ
  addrs : ℕ → ℕ

def Dinode.zero : Dinode := ⟨0, 0, 0, 0, 0, fun _ => 0⟩

/-- `struct inode`: `busy` and `valid` are `I_BUSY` and `I_VALID`. -/
structure Inode where
  inum : ℕ
  ref : ℕ
  busy : Bool
  valid : Bool
  d : Dinode

inductive FileType where
  | none
  | inode
  deriving DecidableEq

/-- `struct file` -/
structure File where
  type : FileType
  ref : ℕ
  readable : Bool
  writable : Bool
  ip : ℕ
  off : ℕ

/-- What a process holds: `cwd`, a place in the inode cache, and `ofile`, places in the file table. -/
structure Proc where
  cwd : ℕ
  ofile : ℕ → Option ℕ

structure State where
  sb : Super
  dinode : ℕ → Dinode
  bit : ℕ → Bool
  data : ℕ → Block
  /-- the sectors whose buffers are busy -/
  held : List ℕ
  icache : ℕ → Inode
  /-- `log.busy` -/
  busy : Bool
  /-- `log.lh.sector[0 .. log.lh.n)` -/
  logged : List ℕ
  file : ℕ → File
  proc : ℕ → Proc
  /-- what a read of `n` bytes from the console gives -/
  console : ℕ → List UInt8

inductive Stop where
  | panic (msg : String)
  /-- the action has to wait for another process -/
  | asleep
  deriving DecidableEq

/-- The actions that the properties of a run speak about. -/
inductive Label where
  | begin
  | commit
  | logWrite (sector : ℕ)
  /-- the test of `iput` -/
  | drop (ip : ℕ)
  /-- `bmap` looks at `ip->addrs[i]` -/
  | addr (ip i : ℕ)
  /-- `bmap` looks at `a[i]` of the indirect block `b` -/
  | indirect (b i : ℕ)
  | other

/-- A part of the kernel. -/
abbrev Code := Prog State Stop Label

/-! ### Actions -/

/-- Read shared state. -/
def look {α : Type} (f : State → α) : Code α := Prog.act .other fun s => .ok (f s, s)

/-- Change shared state. -/
def change (f : State → State) : Code Unit := Prog.act .other fun s => .ok ((), f s)

def panic {α : Type} (msg : String) : Code α := Prog.act .other fun _ => .error (.panic msg)

/-- `bread`: the buffer is busy from here on. -/
def bread (sector : ℕ) : Code Unit := Prog.act .other fun s =>
  if sector ∈ s.held then .error .asleep else .ok ((), { s with held := sector :: s.held })

def brelse (sector : ℕ) : Code Unit := change fun s => { s with held := s.held.erase sector }

def beginTrans : Code Unit := Prog.act .begin fun s =>
  if s.busy then .error .asleep else .ok ((), { s with busy := true })

/-- The commit itself is the subject of log.c; what others see of it is the end of the transaction. -/
def commitTrans : Code Unit := Prog.act .commit fun s => .ok ((), { s with busy := false, logged := [] })

/-- `log_write` of the buffer of this sector, with log absorption. -/
def logWrite (sector : ℕ) : Code Unit := Prog.act (.logWrite sector) fun s =>
  if LOGSIZE ≤ s.logged.length ∨ s.sb.nlog - 1 ≤ s.logged.length then .error (.panic "too big a transaction")
  else if ¬ s.busy then .error (.panic "write outside of trans")
  else .ok ((), if sector ∈ s.logged then s else { s with logged := s.logged ++ [sector] })

namespace State

def setBit (s : State) (b : ℕ) (v : Bool) : State := { s with bit := fun x => if x = b then v else s.bit x }

def setData (s : State) (b : ℕ) (v : Block) : State := { s with data := fun x => if x = b then v else s.data x }

def setDinode (s : State) (i : ℕ) (v : Dinode) : State := { s with dinode := fun x => if x = i then v else s.dinode x }

def setInode (s : State) (ip : ℕ) (v : Inode) : State := { s with icache := fun x => if x = ip then v else s.icache x }

def setFile (s : State) (f : ℕ) (v : File) : State := { s with file := fun x => if x = f then v else s.file x }

def setProc (s : State) (p : ℕ) (v : Proc) : State := { s with proc := fun x => if x = p then v else s.proc x }

end State

/-- The fields of an inode that is locked. -/
def inode (ip : ℕ) : Code Dinode := look fun s => (s.icache ip).d

def setInode (ip : ℕ) (f : Dinode → Dinode) : Code Unit :=
  change fun s => s.setInode ip { s.icache ip with d := f (s.icache ip).d }

end Files

end Os132

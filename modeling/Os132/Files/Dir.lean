import Os132.Files.Inode

/-!
# Directories and paths (fs.c)

A directory is a file of 16-byte entries: an inode number in two bytes and a name of up to `DIRSIZ`
bytes, ended by a NUL byte if it is shorter.
-/

namespace Os132

namespace Files

abbrev Name := List UInt8

def slash : UInt8 := 47
def dot : Name := [46]
def dotdot : Name := [46, 46]

/-- The part of a string that `strncmp(s, t, DIRSIZ)` looks at. -/
def cname (s : Name) : Name := (s.take DIRSIZ).takeWhile (· ≠ 0)

/-- `namecmp(s, t) == 0` -/
def namecmp (s t : Name) : Prop := cname s = cname t

instance (s t : Name) : Decidable (namecmp s t) := inferInstanceAs (Decidable (_ = _))

/-- `struct dirent` in memory. -/
structure Dirent where
  inum : ℕ
  name : Name

def Dirent.ofBytes (b : List UInt8) : Dirent :=
  ⟨(b.getD 0 0).toNat + 256 * (b.getD 1 0).toNat, (b.drop 2).take DIRSIZ⟩

/-- `strncpy(de.name, name, DIRSIZ)` pads with NUL bytes; `de.inum` is a `ushort`. -/
def Dirent.toBytes (inum : ℕ) (name : Name) : List UInt8 :=
  [UInt8.ofNat inum, UInt8.ofNat (inum / 256)] ++ cname name ++ List.replicate (DIRSIZ - (cname name).length) 0

/-- Read the entry at `off`; `msg` is the panic when it cannot be read. -/
def readDirent (dp off : ℕ) (msg : String) : Code Dirent := do
  match ← readi dp off DIRENT with
  | some b => if b.length = DIRENT then return Dirent.ofBytes b else panic msg
  | none => panic msg

/-- The loop of `dirlookup` from `off` on, with `k` entries to go. -/
def dirlookupFrom (dp : ℕ) (name : Name) (off : ℕ) : ℕ → Code (Option (ℕ × ℕ))
  | 0 => return none
  | k + 1 => do
    let de ← readDirent dp off "dirlink read"
    if de.inum ≠ 0 ∧ namecmp name de.name then do
      let ip ← iget de.inum
      return some (ip, off)
    else dirlookupFrom dp name (off + DIRENT) k

/-- `dirlookup`: the inode of the entry and the entry's offset. -/
def dirlookup (dp : ℕ) (name : Name) : Code (Option (ℕ × ℕ)) := do
  let d ← inode dp
  if d.type ≠ T_DIR then panic "dirlookup not DIR"
  else dirlookupFrom dp name 0 ((d.size + (DIRENT - 1)) / DIRENT)

/-- The second loop of `dirlink`: the offset of a free entry, or the end. -/
def emptyFrom (dp off : ℕ) : ℕ → Code ℕ
  | 0 => return off
  | k + 1 => do
    let de ← readDirent dp off "dirlink read"
    if de.inum = 0 then return off else emptyFrom dp (off + DIRENT) k

/-- `dirlink`: `false` for -1. -/
def dirlink (dp : ℕ) (name : Name) (inum : ℕ) : Code Bool := do
  match ← dirlookup dp name with
  | some (ip, _) => do
    iput ip
    return false
  | none => do
    let d ← inode dp
    let off ← emptyFrom dp 0 ((d.size + (DIRENT - 1)) / DIRENT)
    let r ← writei dp (Dirent.toBytes inum name) off
    if r = some DIRENT then return true else panic "dirlink"

/-! ### Paths -/

/-- `skipelem`: the first element and what follows it. -/
def skipelem (path : Name) : Option (Name × Name) :=
  let path := path.dropWhile (· = slash)
  if path = [] then none
  else some ((path.takeWhile (· ≠ slash)).take DIRSIZ, (path.dropWhile (· ≠ slash)).dropWhile (· = slash))

/-- The loop of `namex` at `ip`. Every pass takes at least a byte off the path. -/
def namexFrom (nameiparent : Bool) : ℕ → ℕ → Name → Name → Code (Option (ℕ × Name))
  | 0, _, _, _ => return none
  | fuel + 1, ip, path, name =>
    match skipelem path with
    | none =>
      if nameiparent then do
        iput ip
        return none
      else return some (ip, name)
    | some (name, path) => do
      ilock ip
      let d ← inode ip
      if d.type ≠ T_DIR then do
        iunlockput ip
        return none
      else if nameiparent ∧ path = [] then do
        -- stop one level early
        iunlock ip
        return some (ip, name)
      else
        match ← dirlookup ip name with
        | none => do
          iunlockput ip
          return none
        | some (next, _) => do
          iunlockput ip
          namexFrom nameiparent fuel next path name

/-- `namex` in process `p`. -/
def namex (p : ℕ) (path : Name) (nameiparent : Bool) : Code (Option (ℕ × Name)) := do
  if path.head? = some slash then
    let ip ← iget ROOTINO
    namexFrom nameiparent (path.length + 1) ip path []
  else do
    let cwd ← look fun s => (s.proc p).cwd
    let ip ← idup cwd
    namexFrom nameiparent (path.length + 1) ip path []

def namei (p : ℕ) (path : Name) : Code (Option ℕ) := do
  match ← namex p path false with
  | some (ip, _) => return some ip
  | none => return none

def nameiparent (p : ℕ) (path : Name) : Code (Option (ℕ × Name)) := namex p path true

end Files

end Os132

import Os132.Files.Dir

/-!
# System calls on files (file.c, sysfile.c, and the file part of fork, exec and exit)

`p` is the calling process. A string argument is `none` when its pointer is not a valid one; other
arguments are as `argint` and `argptr` deliver them.
-/

namespace Os132

namespace Files

def O_WRONLY : ℕ := 1
def O_RDWR : ℕ := 2
def O_CREATE : ℕ := 0x200

/-! ### file.c -/

def filealloc : Code (Option ℕ) := Prog.act .other fun s =>
  match (List.range NFILE).find? fun f => (s.file f).ref = 0 with
  | some f => .ok (some f, s.setFile f { s.file f with ref := 1 })
  | none => .ok (none, s)

def filedup (f : ℕ) : Code Unit := Prog.act .other fun s =>
  if (s.file f).ref < 1 then .error (.panic "filedup")
  else .ok ((), s.setFile f { s.file f with ref := (s.file f).ref + 1 })

/-- `fileclose` under `ftable.lock`: the inode to put if this was the last reference. -/
def filecloseRef (f : ℕ) : Code (Option ℕ) := Prog.act .other fun s =>
  if (s.file f).ref < 1 then .error (.panic "fileclose")
  else if 0 < (s.file f).ref - 1 then .ok (none, s.setFile f { s.file f with ref := (s.file f).ref - 1 })
  else .ok (if (s.file f).type = .inode then some (s.file f).ip else none,
    s.setFile f { s.file f with ref := 0, type := .none })

def fileclose (f : ℕ) : Code Unit := do
  match ← filecloseRef f with
  | none => return ()
  | some ip => do
    beginTrans
    iput ip
    commitTrans

def filestat (f : ℕ) : Code Int := do
  let ff ← look fun s => s.file f
  if ff.type = .inode then do
    ilock ff.ip
    iunlock ff.ip
    return 0
  else return -1

def fileread (f n : ℕ) : Code Int := do
  let ff ← look fun s => s.file f
  if ff.readable = false then return -1
  else if ff.type = .inode then do
    ilock ff.ip
    let ff ← look fun s => s.file f
    let r ← readi ff.ip ff.off n
    match r with
    | some bytes => do
      change fun s => s.setFile f { s.file f with off := (s.file f).off + bytes.length }
      iunlock ff.ip
      return bytes.length
    | none => do
      iunlock ff.ip
      return -1
  else panic "fileread"

/-- `max` of `filewrite`, in bytes. -/
def maxWrite : ℕ := (LOGSIZE - 1 - 1 - 2) / 2 * 512

/-- One transaction of `filewrite`. -/
def filewriteChunk (f : ℕ) (src : List UInt8) : Code (Option ℕ) := do
  beginTrans
  let ff ← look fun s => s.file f
  ilock ff.ip
  let ff ← look fun s => s.file f
  let r ← writei ff.ip src ff.off
  change fun s => s.setFile f { s.file f with off := (s.file f).off + r.getD 0 }
  iunlock ff.ip
  commitTrans
  return r

/-- The loop of `filewrite`, which has written all but `src` of `n` bytes. -/
def filewriteLoop (f n : ℕ) : ℕ → List UInt8 → Code Int
  | 0, _ => return n
  | fuel + 1, src =>
    if src.length = 0 then return n
    else do
      let r ← filewriteChunk f (src.take maxWrite)
      match r with
      | none => return -1
      | some k =>
        if k ≠ (src.take maxWrite).length then panic "short filewrite"
        else filewriteLoop f n fuel (src.drop maxWrite)

def filewrite (f : ℕ) (src : List UInt8) : Code Int := do
  let ff ← look fun s => s.file f
  if ff.writable = false then return -1
  else if ff.type = .inode then filewriteLoop f src.length (src.length + 1) src
  else panic "filewrite"

/-! ### sysfile.c -/

/-- `argfd` -/
def argfd (p fd : ℕ) : Code (Option ℕ) := look fun s => if fd < NOFILE then (s.proc p).ofile fd else none

/-- `proc->ofile[fd] = v` -/
def setOfile (p fd : ℕ) (v : Option ℕ) : Code Unit := change fun s =>
  s.setProc p { s.proc p with ofile := fun x => if x = fd then v else (s.proc p).ofile x }

def fdalloc (p f : ℕ) : Code (Option ℕ) := do
  let pr ← look fun s => s.proc p
  match (List.range NOFILE).find? fun fd => (pr.ofile fd).isNone with
  | some fd => do
    setOfile p fd (some f)
    return some fd
  | none => return none

def sysDup (p fd : ℕ) : Code Int := do
  match ← argfd p fd with
  | none => return -1
  | some f => do
    match ← fdalloc p f with
    | none => return -1
    | some fd' => do
      filedup f
      return fd'

def sysRead (p fd n : ℕ) : Code Int := do
  match ← argfd p fd with
  | none => return -1
  | some f => fileread f n

def sysWrite (p fd : ℕ) (src : List UInt8) : Code Int := do
  match ← argfd p fd with
  | none => return -1
  | some f => filewrite f src

def sysClose (p fd : ℕ) : Code Int := do
  match ← argfd p fd with
  | none => return -1
  | some f => do
    setOfile p fd none
    fileclose f
    return 0

def sysFstat (p fd : ℕ) : Code Int := do
  match ← argfd p fd with
  | none => return -1
  | some f => filestat f

/-- The label `bad` of `sys_link`. -/
def linkBad (ip : ℕ) : Code Int := do
  ilock ip
  setInode ip fun d => { d with nlink := d.nlink - 1 }
  iupdate ip
  iunlockput ip
  commitTrans
  return -1

/-- `sys_link` from `nameiparent` on. -/
def linkTarget (p ip : ℕ) (new : Name) : Code Int := do
  match ← nameiparent p new with
  | none => linkBad ip
  | some (dp, name) => do
    ilock dp
    let inum ← look fun s => (s.icache ip).inum
    if ← dirlink dp name inum then do
      iunlockput dp
      iput ip
      commitTrans
      return 0
    else do
      iunlockput dp
      linkBad ip

def sysLink (p : ℕ) (old new : Option Name) : Code Int :=
  match old, new with
  | some old, some new => do
    match ← namei p old with
    | none => return -1
    | some ip => do
      beginTrans
      ilock ip
      let d ← inode ip
      if d.type = T_DIR then do
        iunlockput ip
        commitTrans
        return -1
      else do
        setInode ip fun d => { d with nlink := d.nlink + 1 }
        iupdate ip
        iunlock ip
        linkTarget p ip new
  | _, _ => return -1

/-- The loop of `isdirempty` from `off` on, with `k` entries to go. -/
def isdiremptyFrom (dp off : ℕ) : ℕ → Code Bool
  | 0 => return true
  | k + 1 => do
    let de ← readDirent dp off "isdirempty: readi"
    if de.inum ≠ 0 then return false else isdiremptyFrom dp (off + DIRENT) k

def isdirempty (dp : ℕ) : Code Bool := do
  let d ← inode dp
  isdiremptyFrom dp (2 * DIRENT) ((d.size + (DIRENT - 1)) / DIRENT - 2)

/-- The label `bad` of `sys_unlink`. -/
def unlinkBad (dp : ℕ) : Code Int := do
  iunlockput dp
  commitTrans
  return -1

/-- A removed directory has no `..` any more. -/
def unlinkDotdot (dp ip : ℕ) : Code Unit := do
  let d ← inode ip
  if d.type = T_DIR then do
    setInode dp fun d => { d with nlink := d.nlink - 1 }
    iupdate dp
  else return ()

/-- `sys_unlink` from the erasure of the entry at `off` on. -/
def unlinkEntry (dp ip off : ℕ) : Code Int := do
  let r ← writei dp (List.replicate DIRENT 0) off
  if r ≠ some DIRENT then panic "unlink: writei"
  else do
    unlinkDotdot dp ip
    iunlockput dp
    setInode ip fun d => { d with nlink := d.nlink - 1 }
    iupdate ip
    iunlockput ip
    commitTrans
    return 0

def sysUnlink (p : ℕ) (path : Option Name) : Code Int :=
  match path with
  | none => return -1
  | some path => do
    match ← nameiparent p path with
    | none => return -1
    | some (dp, name) => do
      beginTrans
      ilock dp
      if namecmp name dot ∨ namecmp name dotdot then unlinkBad dp
      else
        match ← dirlookup dp name with
        | none => unlinkBad dp
        | some (ip, off) => do
          ilock ip
          let d ← inode ip
          if d.nlink < 1 then panic "unlink: nlink < 1"
          else if d.type = T_DIR then
            if ← isdirempty ip then unlinkEntry dp ip off
            else do
              iunlockput ip
              unlinkBad dp
          else unlinkEntry dp ip off

/-- The entries `.` and `..` of a new directory, and the link of the latter. -/
def createDots (dp ip : ℕ) : Code Unit := do
  setInode dp fun d => { d with nlink := d.nlink + 1 }
  iupdate dp
  let inum ← look fun s => (s.icache ip).inum
  let parent ← look fun s => (s.icache dp).inum
  let r₁ ← dirlink ip dot inum
  if r₁ = false then panic "create dots"
  else do
    let r₂ ← dirlink ip dotdot parent
    if r₂ = false then panic "create dots" else return ()

/-- The end of `create`: the entry in the parent. -/
def createEntry (dp ip : ℕ) (name : Name) : Code (Option ℕ) := do
  let inum ← look fun s => (s.icache ip).inum
  let r ← dirlink dp name inum
  if r = false then panic "create: dirlink"
  else do
    iunlockput dp
    return some ip

/-- `create` after `ialloc`. -/
def createNew (dp ip : ℕ) (name : Name) (type major minor : Int16) : Code (Option ℕ) := do
  ilock ip
  setInode ip fun d => { d with major := major, minor := minor, nlink := 1 }
  iupdate ip
  if type = T_DIR then do
    createDots dp ip
    createEntry dp ip name
  else createEntry dp ip name

def create (p : ℕ) (path : Name) (type major minor : Int16) : Code (Option ℕ) := do
  match ← nameiparent p path with
  | none => return none
  | some (dp, name) => do
    ilock dp
    match ← dirlookup dp name with
    | some (ip, _) => do
      iunlockput dp
      ilock ip
      let d ← inode ip
      if type = T_FILE ∧ d.type = T_FILE then return some ip
      else do
        iunlockput ip
        return none
    | none => do
      let ip ← ialloc type
      createNew dp ip name type major minor

/-- `sys_open` once it has a locked inode. -/
def openFile (p ip omode : ℕ) : Code Int := do
  match ← filealloc with
  | none => do
    iunlockput ip
    return -1
  | some f => do
    match ← fdalloc p f with
    | none => do
      fileclose f
      iunlockput ip
      return -1
    | some fd => do
      iunlock ip
      change fun s => s.setFile f
        { s.file f with
          type := .inode
          ip := ip
          off := 0
          readable := omode &&& O_WRONLY = 0
          writable := omode &&& O_WRONLY ≠ 0 ∨ omode &&& O_RDWR ≠ 0 }
      return fd

def sysOpen (p : ℕ) (path : Option Name) (omode : ℕ) : Code Int :=
  match path with
  | none => return -1
  | some path =>
    if omode &&& O_CREATE ≠ 0 then do
      beginTrans
      let r ← create p path T_FILE 0 0
      commitTrans
      match r with
      | none => return -1
      | some ip => openFile p ip omode
    else do
      match ← namei p path with
      | none => return -1
      | some ip => do
        ilock ip
        let d ← inode ip
        if d.type = T_DIR ∧ omode ≠ 0 then do
          iunlockput ip
          return -1
        else openFile p ip omode

/-- What `sys_mkdir` and `sys_mknod` do with the result of `create`. -/
def closeNew (r : Option ℕ) : Code Int := do
  match r with
  | none => do
    commitTrans
    return -1
  | some ip => do
    iunlockput ip
    commitTrans
    return 0

def sysMkdir (p : ℕ) (path : Option Name) : Code Int := do
  beginTrans
  match path with
  | none => closeNew none
  | some path => do
    let r ← create p path T_DIR 0 0
    closeNew r

def sysMknod (p : ℕ) (path : Option Name) (major minor : Int16) : Code Int := do
  beginTrans
  match path with
  | none => closeNew none
  | some path => do
    let r ← create p path T_DEV major minor
    closeNew r

def sysChdir (p : ℕ) (path : Option Name) : Code Int :=
  match path with
  | none => return -1
  | some path => do
    match ← namei p path with
    | none => return -1
    | some ip => do
      ilock ip
      let d ← inode ip
      if d.type ≠ T_DIR then do
        iunlockput ip
        return -1
      else do
        iunlock ip
        let cwd ← look fun s => (s.proc p).cwd
        iput cwd
        change fun s => s.setProc p { s.proc p with cwd := ip }
        return 0

/-! ### fork, exec and exit -/

/-- The child gets what is in the parent's descriptor `fd`. -/
def forkFile (p child fd : ℕ) : Code Unit := do
  match ← look fun s => (s.proc p).ofile fd with
  | some f => do
    filedup f
    setOfile child fd (some f)
  | none => return ()

/-- The loop of `fork` over the parent's descriptors, with `k` to go. -/
def forkFiles (p child fd : ℕ) : ℕ → Code Unit
  | 0 => return ()
  | k + 1 => do
    forkFile p child fd
    forkFiles p child (fd + 1) k

/-- The part of `fork` that gives the child the parent's files. -/
def fork (p child : ℕ) : Code Int := do
  forkFiles p child 0 NOFILE
  let cwd ← look fun s => (s.proc p).cwd
  let ip ← idup cwd
  change fun s => s.setProc child { s.proc child with cwd := ip }
  return child

def exitFile (p fd : ℕ) : Code Unit := do
  match ← look fun s => (s.proc p).ofile fd with
  | some f => do
    fileclose f
    setOfile p fd none
  | none => return ()

/-- The loop of `exit` over the descriptors, with `k` to go. -/
def exitFiles (p fd : ℕ) : ℕ → Code Unit
  | 0 => return ()
  | k + 1 => do
    exitFile p fd
    exitFiles p (fd + 1) k

/-- `exit` up to `acquire(&ptable.lock)`. -/
def exit (p : ℕ) : Code Unit := do
  exitFiles p 0 NOFILE
  let cwd ← look fun s => (s.proc p).cwd
  iput cwd

/-- The little-endian `uint` at `off`. -/
def uintAt (b : List UInt8) (off : ℕ) : ℕ :=
  Block.word (fun i => b.getD (off + i) 0) 0

/-- The loop of `loaduvm`: `n` bytes of the file in pages. -/
def loaduvm (ip off : ℕ) : ℕ → ℕ → Code Bool
  | 0, _ => return true
  | fuel + 1, n =>
    if n = 0 then return true
    else do
      let m := min n 4096
      match ← readi ip off m with
      | some b => if b.length = m then loaduvm ip (off + m) fuel (n - m) else return false
      | none => return false

/-- The loop of `exec` over the program headers, with `k` to go; `alloc i` says whether memory for
segment `i` is found. -/
def execSegments (alloc : ℕ → Bool) (ip i off : ℕ) : ℕ → Code Bool
  | 0 => return true
  | k + 1 => do
    match ← readi ip off 32 with
    | none => return false
    | some ph =>
      if ph.length ≠ 32 then return false
      else if uintAt ph 0 ≠ 1 then execSegments alloc ip (i + 1) (off + 32) k
      else if uintAt ph 20 < uintAt ph 16 then return false
      else if alloc i = false then return false
      else if ← loaduvm ip (uintAt ph 4) (uintAt ph 16) (uintAt ph 16) then
        execSegments alloc ip (i + 1) (off + 32) k
      else return false

/-- `exec`, without what it does to memory; -1 stands for every failure. -/
def exec (p : ℕ) (path : Name) (alloc : ℕ → Bool) : Code Int := do
  match ← namei p path with
  | none => return -1
  | some ip => do
    ilock ip
    match ← readi ip 0 52 with
    | none => do
      iunlockput ip
      return -1
    | some elf =>
      if elf.length < 52 ∨ uintAt elf 0 ≠ 0x464C457F then do
        iunlockput ip
        return -1
      else do
        let ok ← execSegments alloc ip 0 (uintAt elf 28) ((elf.getD 44 0).toNat + 256 * (elf.getD 45 0).toNat)
        iunlockput ip
        return if ok then 0 else -1

end Files

end Os132

import Os132.Syscall.Args

/-!
# System calls and user memory

What the system calls read and write through user pointers: `readi`, `writei`, `piperead`, `pipewrite`,
`consoleread`, `consolewrite`, `namex`, `wait2`, `exec` and the `sys_` functions above them. Everything
that they find in the kernel (inodes, pipes, the console, the disk, other processes) may change while
they sleep and is given by `Kernel`; `value` stands for results that touch no user memory.
-/

namespace Os132

namespace UserMemory

open Touch

def MAXFILE : ℕ := 140
def BSIZE : ℕ := 512
def NDEV : ℤ := 10
def CONSOLE : ℤ := 1
def T_DEV : ℕ := 3
def LOGSIZE : ℕ := 10
def MAXARG : ℕ := 32
def DIRSIZ : ℕ := 14
def PGSIZE : ℕ := 4096
def PTE_P : UInt32 := 1
def PTE_U : UInt32 := 4

/-- A loop over memory that passes this many addresses never ends. -/
def ADDRS : ℕ := 2 ^ 32

/-- An inode and the offset of the open file, as a call finds them when it has locked the inode.
`bmap` finds or allocates the blocks before `blocks` and panics there. -/
structure Locked where
  type : ℕ
  major : ℤ
  size : UInt32
  off : UInt32
  blocks : ℕ
  blocks_le : blocks ≤ MAXFILE

/-- What `exec` has built when it comes to the arguments: its `sz`, and the entry that `walkpgdir` finds for an
address, `none` where there is no page table. -/
structure Image where
  sz : UInt32
  pte : UInt32 → Option UInt32

structure Stat where
  type : UInt16
  dev : UInt32
  ino : UInt32
  nlink : UInt16
  size : UInt32

/-- What a call meets in the kernel. -/
structure Kernel where
  /-- The inode at the `j`-th `ilock` of the call. -/
  locked : ℕ → Locked
  /-- The bytes of the file. -/
  data : UInt32 → UInt8
  /-- The `i`-th byte that `consoleread` takes, `none` if the reader is killed while it waits. -/
  input : ℕ → Option UInt8
  /-- The contents of the pipe when `piperead` stops waiting, `none` if the reader is killed. -/
  piped : Option (List UInt8)
  /-- Whether `pipewrite` gets to store its `i`-th byte. -/
  room : ℕ → Bool
  /-- For the `w`-th path of the call, whether the inode of the `i`-th element is a directory and
  whether `dirlookup` finds the next one. -/
  walk : ℕ → ℕ → Bool × Bool
  stat : Stat
  /-- `rtime`, `wtime` and `pid` of the zombie that `wait2` finds, if it finds one. -/
  child : Option (UInt32 × UInt32 × UInt32)
  pipealloc : Bool
  /-- Whether the rest of the call, after its path is resolved, goes on. -/
  goes : Bool
  image : Image
  value : UInt32

variable (p : Proc) (k : Kernel)

/-! ### Files -/

/-- `for(i = 0; i < n; i++)` over an `int`. -/
def count (n : UInt32) : ℕ := (int32 n).toNat

/-- The loop of `consoleread`, with the bytes still wanted and those already taken. -/
def consolereadLoop : ℕ → ℕ → UInt32 → Code (Option ℕ)
  | 0, i, _ => pure (some i)
  | n + 1, i, dst =>
    match k.input i with
    | none => pure none
    | some c =>
      if c = 4 then pure (some i)
      else do
        store dst c
        if c = 10 then pure (some (i + 1)) else consolereadLoop n (i + 1) (dst + 1)

def consoleread (dst n : UInt32) : Code UInt32 := do
  match ← consolereadLoop k (count n) 0 dst with
  | some i => pure i.toUInt32
  | none => pure (-1)

def consolewrite (buf n : UInt32) : Code UInt32 := do
  let _ ← loads (count n) buf
  pure n

/-- The loop of `readi`; `dst`, `off` and `tot` move together. -/
def readiLoop (ip : Locked) (n : UInt32) : ℕ → UInt32 → UInt32 → UInt32 → Code Unit
  | 0, _, _, _ => pure ()
  | fuel + 1, tot, off, dst =>
    if tot < n then
      if off.toNat / BSIZE < ip.blocks then do
        let m := min (n.toNat - tot.toNat) (BSIZE - off.toNat % BSIZE)
        stores ((List.range m).map fun i => k.data (off + i.toUInt32)) dst
        readiLoop ip n fuel (tot + m.toUInt32) (off + m.toUInt32) (dst + m.toUInt32)
      else throw .panic
    else pure ()

/-- `n` after `if(off + n > ip->size) n = ip->size - off`. -/
def clip (ip : Locked) (off n : UInt32) : UInt32 := if off + n > ip.size then ip.size - off else n

def readi (ip : Locked) (dst off n : UInt32) : Code UInt32 :=
  if ip.type = T_DEV then
    if ip.major < 0 ∨ ip.major ≥ NDEV ∨ ip.major ≠ CONSOLE then pure (-1)
    else consoleread k dst n
  else if off > ip.size ∨ off + n < off then pure (-1)
  else do
    readiLoop k ip (clip ip off n) (clip ip off n).toNat 0 off dst
    pure (clip ip off n)

def writeiLoop (ip : Locked) (n : UInt32) : ℕ → UInt32 → UInt32 → UInt32 → Code Unit
  | 0, _, _, _ => pure ()
  | fuel + 1, tot, off, src =>
    if tot < n then
      if off.toNat / BSIZE < ip.blocks then do
        let m := min (n.toNat - tot.toNat) (BSIZE - off.toNat % BSIZE)
        let _ ← loads m src
        writeiLoop ip n fuel (tot + m.toUInt32) (off + m.toUInt32) (src + m.toUInt32)
      else throw .panic
    else pure ()

def writei (ip : Locked) (src off n : UInt32) : Code UInt32 :=
  if ip.type = T_DEV then
    if ip.major < 0 ∨ ip.major ≥ NDEV ∨ ip.major ≠ CONSOLE then pure (-1)
    else consolewrite src n
  else if off > ip.size ∨ off + n < off then pure (-1)
  else if (off + n).toNat > MAXFILE * BSIZE then pure (-1)
  else do
    writeiLoop ip n n.toNat 0 off src
    pure n

def piperead (addr n : UInt32) : Code UInt32 :=
  match k.piped with
  | none => pure (-1)
  | some l => do
    stores (l.take (count n)) addr
    pure (l.take (count n)).length.toUInt32

/-- The loop of `pipewrite`, with the bytes to go and those done. -/
def pipewriteLoop : ℕ → ℕ → UInt32 → Code Bool
  | 0, _, _ => pure true
  | n + 1, i, addr =>
    if k.room i then do
      let _ ← load addr
      pipewriteLoop n (i + 1) (addr + 1)
    else pure false

def pipewrite (addr n : UInt32) : Code UInt32 := do
  if ← pipewriteLoop k (count n) 0 addr then pure n else pure (-1)

def fileread (f : File) (addr n : UInt32) : Code UInt32 :=
  if !f.readable then pure (-1)
  else match f.type with
    | .pipe => piperead k addr n
    | .inode => readi k (k.locked 0) addr (k.locked 0).off n
    | .none => throw .panic

/-- The loop of `filewrite` in its `j`-th turn, with `i` bytes written. -/
def filewriteLoop (addr n : UInt32) : ℕ → ℕ → ℕ → Code UInt32
  | 0, _, _ => throw .endless
  | fuel + 1, j, i =>
    if (i : ℤ) < int32 n then do
      let n1 := min (count n - i) ((LOGSIZE - 1 - 1 - 2) / 2 * BSIZE)
      let r ← writei (k.locked j) (addr + i.toUInt32) (k.locked j).off n1.toUInt32
      if int32 r < 0 then pure (-1)
      else if r ≠ n1.toUInt32 then throw .panic
      else filewriteLoop addr n fuel (j + 1) (i + n1)
    else if (i : ℤ) = int32 n then pure n
    else pure (-1)

def filewrite (f : File) (addr n : UInt32) : Code UInt32 :=
  if !f.writable then pure (-1)
  else match f.type with
    | .pipe => pipewrite k addr n
    | .inode => filewriteLoop k addr n (count n + 1) 0 0
    | .none => throw .panic

/-- `stati` through the user's `st`. -/
def stati (st : UInt32) : Code Unit := do
  storeInt (st + 4) k.stat.dev
  storeInt (st + 8) k.stat.ino
  stores [k.stat.type.toUInt8, (k.stat.type / 256).toUInt8] st
  stores [k.stat.nlink.toUInt8, (k.stat.nlink / 256).toUInt8] (st + 12)
  storeInt (st + 16) k.stat.size

def filestat (f : File) (st : UInt32) : Code UInt32 :=
  if f.type = .inode then do
    stati k st
    pure 0
  else pure (-1)

/-! ### Paths -/

/-- The rest of the path and the element. -/
def skipelem (path : UInt32) : Code (Option (UInt32 × List UInt8)) := do
  let s ← skipWhile (· == 47) ADDRS path
  let b ← load s
  if b = 0 then pure none
  else
    let e ← skipWhile (fun c => c != 47 && c != 0) ADDRS s
    let name ← loads (if (e - s).toNat ≥ DIRSIZ then DIRSIZ else (e - s).toNat) s
    let path ← skipWhile (· == 47) ADDRS e
    pure (some (path, name))

/-- `nameiparent && *path == '\0'`. -/
def atLast (nameiparent : Bool) (path : UInt32) : Code Bool :=
  if nameiparent then do
    let b ← load path
    pure (b == 0)
  else pure false

/-- The loop of `namex`; the result says whether an inode is returned. -/
def namexLoop (nameiparent : Bool) (w : ℕ → Bool × Bool) : ℕ → ℕ → UInt32 → Code Bool
  | 0, _, _ => throw .endless
  | fuel + 1, i, path => do
    match ← skipelem path with
    | none => pure !nameiparent
    | some (path, _) =>
      if !(w i).1 then pure false
      else do
        let last ← atLast nameiparent path
        if last then pure true
        else if !(w i).2 then pure false
        else namexLoop nameiparent w fuel (i + 1) path

def namex (path : UInt32) (nameiparent : Bool) (w : ℕ → Bool × Bool) : Code Bool := do
  let _ ← load path
  namexLoop nameiparent w ADDRS 0 path

def namei (path : UInt32) (w : ℕ → Bool × Bool) : Code Bool := namex path false w

def nameiparent (path : UInt32) (w : ℕ → Bool × Bool) : Code Bool := namex path true w

def create (path : UInt32) : Code Bool := do
  if ← nameiparent path (k.walk 0) then pure k.goes else pure false

/-! ### exec -/

def strlen (s : UInt32) : Code ℕ := do
  let e ← skipWhile (· != 0) ADDRS s
  pure (e - s).toNat

def PGROUNDDOWN (a : UInt32) : UInt32 := a / 4096 * 4096
def PTE_ADDR (pte : UInt32) : UInt32 := pte / 4096 * 4096
def p2v (a : UInt32) : UInt32 := a + KERNBASE

/-- `*pte` for the result of `walkpgdir`: the word at address 0 of the process where that is a null pointer. -/
def loadPte (im : Image) (uva : UInt32) : Code UInt32 :=
  match im.pte uva with
  | some e => pure e
  | none => loadInt 0

/-- The kernel address of the page, 0 where the source returns a null pointer. The result of `walkpgdir` is not
tested. -/
def uva2ka (im : Image) (uva : UInt32) : Code UInt32 := do
  let pte ← loadPte im uva
  if pte &&& PTE_P = 0 then pure 0
  else if pte &&& PTE_U = 0 then pure 0
  else pure (p2v (PTE_ADDR pte))

/-- `memmove(pa0 + off, buf, n)`. A page that has a page table belongs to the new image and is no memory of the
process; without one the bytes go wherever the word at address 0 says. -/
def memmove (im : Image) (va0 dst : UInt32) (bytes : List UInt8) : Code Unit :=
  if (im.pte va0).isSome then pure () else stores bytes dst

/-- The loop of `copyout`, with the bytes done and those left; `buf i n` are the `n` bytes of the buffer from the
`i`-th on. -/
def copyoutLoop (im : Image) (buf : ℕ → ℕ → Code (List UInt8)) : ℕ → ℕ → UInt32 → ℕ → Code Bool
  | 0, _, _, _ => throw .endless
  | fuel + 1, i, va, len =>
    if len > 0 then do
      let va0 := PGROUNDDOWN va
      let pa0 ← uva2ka im va0
      if pa0 = 0 then pure false
      else
        let n := min (PGSIZE - (va - va0).toNat) len
        let bytes ← buf i n
        memmove im va0 (pa0 + (va - va0)) bytes
        copyoutLoop im buf fuel (i + n) (va0 + PGSIZE.toUInt32) (len - n)
    else pure true

def copyout (im : Image) (va : UInt32) (buf : ℕ → ℕ → Code (List UInt8)) (len : ℕ) : Code Bool :=
  copyoutLoop im buf (len + 1) 0 va len

/-- The loop of `exec` that copies the argument strings: their addresses and the stack pointer. -/
def copyArgs (im : Image) : ℕ → UInt32 → List UInt32 → Code (Option (List UInt32 × UInt32))
  | _, sp, [] => pure (some ([], sp))
  | argc, sp, s :: argv =>
    if argc ≥ MAXARG then pure none
    else do
      let l ← strlen s
      let sp := (sp - (l.toUInt32 + 1)) / 4 * 4
      let len ← strlen s
      if ← copyout im sp (fun i n => loads n (s + i.toUInt32)) (len + 1) then
        let rest ← copyArgs im (argc + 1) sp argv
        pure (rest.map fun r => (sp :: r.1, r.2))
      else pure none

/-- The bytes of words. -/
def wordBytes (ws : List UInt32) : List UInt8 :=
  ws.flatMap fun v => [v.toUInt8, (v / 256).toUInt8, (v / 65536).toUInt8, (v / 16777216).toUInt8]

/-- `for(last=s=path; *s; s++)`. -/
def lastElem : ℕ → UInt32 → UInt32 → Code UInt32
  | 0, _, _ => throw .endless
  | fuel + 1, s, last => do
    let b ← load s
    if b = 0 then pure last
    else lastElem fuel (s + 1) (if b = 47 then s + 1 else last)

/-- The bytes that `safestrcpy` copies, for `n - 1` of the source. -/
def safestrcpy : ℕ → UInt32 → Code (List UInt8)
  | 0, _ => pure []
  | n + 1, t => do
    let b ← load t
    if b = 0 then pure []
    else
      let bs ← safestrcpy n (t + 1)
      pure (b :: bs)

def exec (path : UInt32) (argv : List UInt32) : Code UInt32 := do
  if ← namei path (k.walk 0) then
    if k.goes then
      match ← copyArgs k.image 0 k.image.sz argv with
      | none => pure (-1)
      | some (strs, sp) =>
        let argc := strs.length
        let ustack := [0xffffffff, argc.toUInt32, sp - (argc.toUInt32 + 1) * 4] ++ strs ++ [0]
        let sp := sp - (3 + argc.toUInt32 + 1) * 4
        if ← copyout k.image sp (fun i n => pure (((wordBytes ustack).drop i).take n)) ((3 + argc + 1) * 4) then do
          let last ← lastElem ADDRS path path
          let _ ← safestrcpy 15 last
          pure 0
        else pure (-1)
    else pure (-1)
  else pure (-1)

/-! ### The calls -/

def sys_read : Code UInt32 := do
  match ← argfd p 0 with
  | none => pure (-1)
  | some (_, f) =>
    match ← argint p 2 with
    | none => pure (-1)
    | some n =>
      match ← argptr p 1 n with
      | none => pure (-1)
      | some a => fileread k f a n

def sys_write : Code UInt32 := do
  match ← argfd p 0 with
  | none => pure (-1)
  | some (_, f) =>
    match ← argint p 2 with
    | none => pure (-1)
    | some n =>
      match ← argptr p 1 n with
      | none => pure (-1)
      | some a => filewrite k f a n

def sys_fstat : Code UInt32 := do
  match ← argfd p 0 with
  | none => pure (-1)
  | some (_, f) =>
    match ← argptr p 1 20 with
    | none => pure (-1)
    | some st => filestat k f st

/-- `fdalloc`, for a table without its first `n` entries free below `fd`. -/
def fdalloc (ofile : ℕ → Option File) : Option ℕ :=
  (List.range NOFILE).find? fun fd => (ofile fd).isNone

def sys_pipe : Code UInt32 := do
  match ← argptr p 0 8 with
  | none => pure (-1)
  | some fd =>
    if !k.pipealloc then pure (-1)
    else match fdalloc p.ofile with
      | none => pure (-1)
      | some fd0 =>
        match fdalloc fun i => if i = fd0 then some ⟨.pipe, true, false⟩ else p.ofile i with
        | none => pure (-1)
        | some fd1 => do
          storeInt fd fd0.toUInt32
          storeInt (fd + 4) fd1.toUInt32
          pure 0

/-- `wait2` through the pointers `wtime` and `rtime`. -/
def wait2 (wtime rtime : UInt32) : Code UInt32 :=
  match k.child with
  | none => pure (-1)
  | some (rt, wt, pid) => do
    storeInt rtime rt
    storeInt wtime wt
    pure pid

def sys_wait2 : Code UInt32 := do
  let rtime ← argptr p 1 4
  let wtime ← argptr p 0 4
  -- a pointer that `argptr` refuses stays 0
  wait2 k (wtime.getD 0) (rtime.getD 0)

def sys_open : Code UInt32 := do
  match ← argstr p 0 with
  | none => pure (-1)
  | some (path, _) =>
    match ← argint p 1 with
    | none => pure (-1)
    | some omode =>
      let found ← if omode &&& 0x200 ≠ 0 then create k path else namei path (k.walk 0)
      if found then pure k.value else pure (-1)

def sys_mkdir : Code UInt32 := do
  match ← argstr p 0 with
  | none => pure (-1)
  | some (path, _) => do
    if ← create k path then pure 0 else pure (-1)

def sys_mknod : Code UInt32 := do
  match ← argstr p 0 with
  | none => pure (-1)
  | some (path, _) =>
    match ← argint p 1 with
    | none => pure (-1)
    | some _ =>
      match ← argint p 2 with
      | none => pure (-1)
      | some _ => do
        if ← create k path then pure 0 else pure (-1)

def sys_chdir : Code UInt32 := do
  match ← argstr p 0 with
  | none => pure (-1)
  | some (path, _) => do
    if ← namei path (k.walk 0) then pure k.value else pure (-1)

def sys_unlink : Code UInt32 := do
  match ← argstr p 0 with
  | none => pure (-1)
  | some (path, _) => do
    if ← nameiparent path (k.walk 0) then pure k.value else pure (-1)

def sys_link : Code UInt32 := do
  match ← argstr p 0 with
  | none => pure (-1)
  | some (old, _) =>
    match ← argstr p 1 with
    | none => pure (-1)
    | some (new, _) => do
      if ← namei old (k.walk 0) then
        if k.goes then
          if ← nameiparent new (k.walk 1) then pure k.value else pure (-1)
        else pure (-1)
      else pure (-1)

/-- The loop of `sys_exec`, with the entries of `argv` still free and those filled. -/
def fetchArgv (uargv : UInt32) : ℕ → ℕ → Code (Option (List UInt32))
  | 0, _ => pure none
  | left + 1, i => do
    match ← fetchint p (uargv + 4 * i.toUInt32) with
    | none => pure none
    | some uarg =>
      if uarg = 0 then pure (some [])
      else
        match ← fetchstr p uarg with
        | none => pure none
        | some _ =>
          let rest ← fetchArgv uargv left (i + 1)
          pure (rest.map (uarg :: ·))

def sys_exec : Code UInt32 := do
  match ← argstr p 0 with
  | none => pure (-1)
  | some (path, _) =>
    match ← argint p 1 with
    | none => pure (-1)
    | some uargv =>
      match ← fetchArgv p uargv MAXARG 0 with
      | none => pure (-1)
      | some argv => exec k path argv

/-- The calls that take one `int`, or a descriptor, and touch nothing else. -/
def sys_int : Code UInt32 := do
  match ← argint p 0 with
  | none => pure (-1)
  | some _ => pure k.value

def sys_fd : Code UInt32 := do
  match ← argfd p 0 with
  | none => pure (-1)
  | some _ => pure k.value

/-- `syscalls[num]`; the calls without arguments return `value`. -/
def syscalls : ℤ → Option (Code UInt32)
  | 1 | 2 | 3 | 11 | 14 | 23 => some (pure k.value)
  | 4 => some (sys_pipe p k)
  | 5 => some (sys_read p k)
  | 6 | 12 | 13 => some (sys_int p k)
  | 7 => some (sys_exec p k)
  | 8 => some (sys_fstat p k)
  | 9 => some (sys_chdir p k)
  | 10 | 21 => some (sys_fd p k)
  | 15 => some (sys_open p k)
  | 16 => some (sys_write p k)
  | 17 => some (sys_mknod p k)
  | 18 => some (sys_unlink p k)
  | 19 => some (sys_link p k)
  | 20 => some (sys_mkdir p k)
  | 22 => some (sys_wait2 p k)
  | _ => none

def syscall : Code UInt32 :=
  (syscalls p k (int32 p.eax)).getD (pure (-1))

end UserMemory

end Os132

import Os132.Files.State

/-!
# Blocks and inodes (fs.c)

The block allocator, the inode cache and the map from a file's blocks to sectors.
-/

namespace Os132

namespace Files

def readsb : Code Super := do
  bread 1
  let sb ← look State.sb
  brelse 1
  return sb

def bzero (bno : ℕ) : Code Unit := do
  bread bno
  change fun s => s.setData bno fun _ => 0
  logWrite bno
  brelse bno

/-- The scan of `balloc` from bit `b` on, with `k` bitmap blocks to go. -/
def ballocFrom (sb : Super) (b : ℕ) : ℕ → Code ℕ
  | 0 => panic "balloc: out of blocks"
  | k + 1 => do
    bread (BBLOCK b sb.ninodes)
    let bit ← look State.bit
    match (List.range BPB).find? fun bi => b + bi < sb.size ∧ bit (b + bi) = false with
    | some bi => do
      change fun s => s.setBit (b + bi) true
      logWrite (BBLOCK b sb.ninodes)
      brelse (BBLOCK b sb.ninodes)
      bzero (b + bi)
      return b + bi
    | none => do
      brelse (BBLOCK b sb.ninodes)
      ballocFrom sb (b + BPB) k

def balloc : Code ℕ := do
  let sb ← readsb
  ballocFrom sb 0 ((sb.size + (BPB - 1)) / BPB)

def bfree (b : ℕ) : Code Unit := do
  let sb ← readsb
  bread (BBLOCK b sb.ninodes)
  let used ← look fun s => s.bit b
  if used = false then panic "freeing free block"
  else do
    change fun s => s.setBit b false
    logWrite (BBLOCK b sb.ninodes)
    brelse (BBLOCK b sb.ninodes)

/-! ### The inode cache -/

/-- `iget`: the entry in use for `inum`, or the first free one. -/
def iget (inum : ℕ) : Code ℕ := Prog.act .other fun s =>
  match (List.range NINODE).find? fun ip => 0 < (s.icache ip).ref ∧ (s.icache ip).inum = inum with
  | some ip => .ok (ip, s.setInode ip { s.icache ip with ref := (s.icache ip).ref + 1 })
  | none =>
    match (List.range NINODE).find? fun ip => (s.icache ip).ref = 0 with
    | some ip => .ok (ip, s.setInode ip { s.icache ip with inum := inum, ref := 1, busy := false, valid := false })
    | none => .error (.panic "iget: no inodes")

def idup (ip : ℕ) : Code ℕ := do
  change fun s => s.setInode ip { s.icache ip with ref := (s.icache ip).ref + 1 }
  return ip

/-- The search of `ialloc` from `inum` on, with `k` inodes to go. -/
def iallocFrom (type : Int16) (inum : ℕ) : ℕ → Code ℕ
  | 0 => panic "ialloc: no inodes"
  | k + 1 => do
    bread (IBLOCK inum)
    let dip ← look fun s => s.dinode inum
    if dip.type = 0 then do
      change fun s => s.setDinode inum { Dinode.zero with type := type }
      logWrite (IBLOCK inum)
      brelse (IBLOCK inum)
      iget inum
    else do
      brelse (IBLOCK inum)
      iallocFrom type (inum + 1) k

def ialloc (type : Int16) : Code ℕ := do
  let sb ← readsb
  iallocFrom type 1 (sb.ninodes - 1)

def iupdate (ip : ℕ) : Code Unit := do
  let inum ← look fun s => (s.icache ip).inum
  bread (IBLOCK inum)
  change fun s => s.setDinode inum (s.icache ip).d
  logWrite (IBLOCK inum)
  brelse (IBLOCK inum)

/-- The first half of `ilock`: wait for `I_BUSY` and set it. -/
def ilockBusy (ip : ℕ) : Code Unit := Prog.act .other fun s =>
  if (s.icache ip).ref < 1 then .error (.panic "ilock")
  else if (s.icache ip).busy then .error .asleep
  else .ok ((), s.setInode ip { s.icache ip with busy := true })

def ilock (ip : ℕ) : Code Unit := do
  ilockBusy ip
  let valid ← look fun s => (s.icache ip).valid
  if valid then return ()
  else do
    let inum ← look fun s => (s.icache ip).inum
    bread (IBLOCK inum)
    change fun s => s.setInode ip { s.icache ip with d := s.dinode inum }
    brelse (IBLOCK inum)
    change fun s => s.setInode ip { s.icache ip with valid := true }
    let d ← inode ip
    if d.type = 0 then panic "ilock: no type" else return ()

def iunlock (ip : ℕ) : Code Unit := Prog.act .other fun s =>
  if (s.icache ip).busy = false ∨ (s.icache ip).ref < 1 then .error (.panic "iunlock")
  else .ok ((), s.setInode ip { s.icache ip with busy := false })

/-- The loop of `itrunc` over the direct blocks, with `k` to go. -/
def itruncDirect (ip : ℕ) (i : ℕ) : ℕ → Code Unit
  | 0 => return ()
  | k + 1 => do
    let d ← inode ip
    if d.addrs i = 0 then itruncDirect ip (i + 1) k
    else do
      bfree (d.addrs i)
      setInode ip fun d => { d with addrs := fun x => if x = i then 0 else d.addrs x }
      itruncDirect ip (i + 1) k

/-- The loop of `itrunc` over the entries of the indirect block `b`. -/
def itruncIndirect (b : ℕ) (j : ℕ) : ℕ → Code Unit
  | 0 => return ()
  | k + 1 => do
    let a ← look fun s => (s.data b).word j
    if a = 0 then itruncIndirect b (j + 1) k
    else do
      bfree a
      itruncIndirect b (j + 1) k

/-- The part of `itrunc` for the indirect block. -/
def itruncRest (ip : ℕ) : Code Unit := do
  let d ← inode ip
  if d.addrs NDIRECT = 0 then return ()
  else do
    bread (d.addrs NDIRECT)
    itruncIndirect (d.addrs NDIRECT) 0 NINDIRECT
    brelse (d.addrs NDIRECT)
    bfree (d.addrs NDIRECT)
    setInode ip fun d => { d with addrs := fun x => if x = NDIRECT then 0 else d.addrs x }

def itrunc (ip : ℕ) : Code Unit := do
  itruncDirect ip 0 NDIRECT
  itruncRest ip
  setInode ip fun d => { d with size := 0 }
  iupdate ip

/-- Whether `iput` frees the inode. -/
def lastLink (i : Inode) : Prop := i.ref = 1 ∧ i.valid = true ∧ i.d.nlink = 0

instance (i : Inode) : Decidable (lastLink i) := inferInstanceAs (Decidable (_ ∧ _ ∧ _))

/-- `iput` up to the first `release(&icache.lock)`: the last reference to an inode without links is
marked busy, any other one is dropped. -/
def iputTest (ip : ℕ) : Code Bool := Prog.act (.drop ip) fun s =>
  if lastLink (s.icache ip) then
    if (s.icache ip).busy then .error (.panic "iput busy")
    else .ok (true, s.setInode ip { s.icache ip with busy := true })
  else .ok (false, s.setInode ip { s.icache ip with ref := (s.icache ip).ref - 1 })

/-- The freeing path of `iput`. -/
def ifree (ip : ℕ) : Code Unit := do
  itrunc ip
  setInode ip fun d => { d with type := 0 }
  iupdate ip
  change fun s => s.setInode ip { s.icache ip with busy := false, valid := false, ref := (s.icache ip).ref - 1 }

def iput (ip : ℕ) : Code Unit := do
  let free ← iputTest ip
  if free then ifree ip else return ()

def iunlockput (ip : ℕ) : Code Unit := do
  iunlock ip
  iput ip

/-! ### Inode content -/

/-- The address in `ip->addrs[i]`, allocated if there is none. -/
def bmapAddr (ip i : ℕ) : Code ℕ := do
  let addr ← Prog.act (.addr ip i) fun s => .ok ((s.icache ip).d.addrs i, s)
  if addr = 0 then do
    let b ← balloc
    setInode ip fun d => { d with addrs := fun x => if x = i then b else d.addrs x }
    return b
  else return addr

/-- The address in entry `i` of the indirect block `addr`, allocated if there is none. -/
def bmapIndirect (addr i : ℕ) : Code ℕ := do
  bread addr
  let a ← Prog.act (.indirect addr i) fun s => .ok ((s.data addr).word i, s)
  if a = 0 then do
    let b ← balloc
    change fun s => s.setData addr ((s.data addr).setWord i b)
    logWrite addr
    brelse addr
    return b
  else do
    brelse addr
    return a

def bmap (ip bn : ℕ) : Code ℕ :=
  if bn < NDIRECT then bmapAddr ip bn
  else if bn - NDIRECT < NINDIRECT then do
    let addr ← bmapAddr ip NDIRECT
    bmapIndirect addr (bn - NDIRECT)
  else panic "bmap: out of range"

/-- The device function of `devsw[major]`; only the console has some. -/
def hasDevice (d : Dinode) : Prop := ¬ (d.major < 0 ∨ 10 ≤ d.major ∨ d.major ≠ CONSOLE)

instance (d : Dinode) : Decidable (hasDevice d) := inferInstanceAs (Decidable (¬ _))

/-- The loop of `readi`. Every pass reads at least one byte, so `n` passes suffice. -/
def readLoop (ip : ℕ) : ℕ → ℕ → ℕ → Code (List UInt8)
  | 0, _, _ => return []
  | fuel + 1, off, n =>
    if n = 0 then return []
    else do
      let b ← bmap ip (off / BSIZE)
      bread b
      let m := min n (BSIZE - off % BSIZE)
      let bytes ← look fun s => (List.range m).map fun i => s.data b (off % BSIZE + i)
      brelse b
      let rest ← readLoop ip fuel (off + m) (n - m)
      return bytes ++ rest

/-- `readi`: the bytes read, or `none` for -1. -/
def readi (ip off n : ℕ) : Code (Option (List UInt8)) := do
  let d ← inode ip
  if d.type = T_DEV then
    if hasDevice d then do
      -- `consoleread`
      iunlock ip
      let bytes ← look fun s => s.console n
      ilock ip
      return some bytes
    else return none
  else if d.size < off ∨ (off + n) % 2 ^ 32 < off then return none
  else do
    let n := if d.size < off + n then d.size - off else n
    let bytes ← readLoop ip n off n
    return some bytes

/-- The loop of `writei`, for the bytes of `src`. -/
def writeLoop (ip : ℕ) : ℕ → ℕ → List UInt8 → Code Unit
  | 0, _, _ => return ()
  | fuel + 1, off, src =>
    if src.length = 0 then return ()
    else do
      let b ← bmap ip (off / BSIZE)
      bread b
      let m := min src.length (BSIZE - off % BSIZE)
      change fun s => s.setData b ((s.data b).copy (off % BSIZE) (src.take m))
      logWrite b
      brelse b
      writeLoop ip fuel (off + m) (src.drop m)

/-- `writei`: the number of bytes written, or `none` for -1. -/
def writei (ip : ℕ) (src : List UInt8) (off : ℕ) : Code (Option ℕ) := do
  let d ← inode ip
  if d.type = T_DEV then
    if hasDevice d then do
      -- `consolewrite`
      iunlock ip
      ilock ip
      return some src.length
    else return none
  else if d.size < off ∨ (off + src.length) % 2 ^ 32 < off then return none
  else if MAXFILE * BSIZE < off + src.length then return none
  else do
    writeLoop ip src.length off src
    let d ← inode ip
    if 0 < src.length ∧ d.size < off + src.length then do
      setInode ip fun d => { d with size := off + src.length }
      iupdate ip
      return some src.length
    else return some src.length

end Files

end Os132

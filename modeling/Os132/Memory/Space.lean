import Os132.Lib.Run

/-!
# The address space of a process

The page directory of a process, and `walkpgdir`, `mappages`, `allocuvm`, `deallocuvm` of vm.c, `growproc`
of proc.c and `sys_sbrk` of sysproc.c over it. Addresses are numbers below `2 ^ 32`, additions wrap where
the source's do. A function returns `none` where the source panics.
-/

namespace Os132

namespace Memory

def PGSIZE : ℕ := 4096
def NPTENTRIES : ℕ := 1024
def KERNBASE : ℕ := 0x80000000
/-- The end of physical memory. -/
def PHYSTOP : ℕ := 0xE000000

/-- The pages below `KERNBASE`. -/
def PAGES : ℕ := KERNBASE / PGSIZE

/-- The address of a page of physical memory. -/
abbrev Frame := ℕ

abbrev PageTable := ℕ → Option Frame

/-- What `proc->sz` and `proc->pgdir` hold, and the contents of physical pages. -/
structure Space where
  sz : ℕ
  pgdir : ℕ → Option PageTable
  content : Frame → ℕ → UInt8

/-- What `kalloc` answers during a call: the page it gives for page `i` of the process, and whether it
gives one for the page table in front of page `i`. -/
structure Kalloc where
  page : ℕ → Option Frame
  table : ℕ → Bool

/-- `PGROUNDUP`. -/
def PGROUNDUP (sz : ℕ) : ℕ := (sz + PGSIZE - 1) % 2 ^ 32 / PGSIZE * PGSIZE

/-- The number of the page, `PDX` and `PTX` together. -/
def page (va : ℕ) : ℕ := va / PGSIZE

/-- `*pte`, if page `i` has a page table and is present. -/
def Space.entry (s : Space) (i : ℕ) : Option Frame :=
  (s.pgdir (i / NPTENTRIES)).bind fun t => t (i % NPTENTRIES)

/-- `*pte = v` for page `i`, if it has a page table. -/
def Space.setEntry (s : Space) (i : ℕ) (v : Option Frame) : Space :=
  { s with pgdir := fun d => if d = i / NPTENTRIES then
      (s.pgdir d).map fun t x => if x = i % NPTENTRIES then v else t x
    else s.pgdir d }

/-- `walkpgdir` with `alloc = 1`; `false` where it returns 0. -/
def Space.walkpgdir (s : Space) (table : Bool) (i : ℕ) : Space × Bool :=
  match s.pgdir (i / NPTENTRIES) with
  | some _ => (s, true)
  | none =>
    if table then ({ s with pgdir := fun d => if d = i / NPTENTRIES then some fun _ => none else s.pgdir d }, true)
    else (s, false)

/-- `mappages` of one page. -/
def Space.mappages (s : Space) (table : Bool) (i : ℕ) (mem : Frame) : Option (Space × ℤ) :=
  let (s', found) := s.walkpgdir table i
  if !found then some (s', -1)
  else if (s'.entry i).isSome then none
  else some (s'.setEntry i (some mem), 0)

/-- The loop of `deallocuvm`. -/
def deallocLoop (oldsz : ℕ) : ℕ → ℕ → Space → Option Space
  | 0, _, _ => none
  | fuel + 1, a, s =>
    if a < oldsz then
      match s.pgdir (page a / NPTENTRIES) with
      | none => deallocLoop oldsz fuel ((a + (NPTENTRIES - 1) * PGSIZE + PGSIZE) % 2 ^ 32) s
      | some t =>
        match t (page a % NPTENTRIES) with
        | none => deallocLoop oldsz fuel ((a + PGSIZE) % 2 ^ 32) s
        | some pa =>
          if pa = 0 then none
          else
            -- `kfree` fills the page with ones
            let s := { s with content := fun f => if f = pa then fun _ => 1 else s.content f }
            deallocLoop oldsz fuel ((a + PGSIZE) % 2 ^ 32) (s.setEntry (page a) none)
    else some s

def deallocuvm (s : Space) (oldsz newsz : ℕ) : Option (Space × ℕ) :=
  if newsz ≥ oldsz then some (s, oldsz)
  else (deallocLoop oldsz PAGES.succ (PGROUNDUP newsz) s).map fun s => (s, newsz)

/-- The loop of `allocuvm`. -/
def allocLoop (k : Kalloc) (oldsz newsz : ℕ) : ℕ → ℕ → Space → Option (Space × ℕ)
  | 0, _, _ => none
  | fuel + 1, a, s =>
    if a < newsz then
      match k.page (page a) with
      | none => (deallocuvm s newsz oldsz).map fun r => (r.1, 0)
      | some mem =>
        let s := { s with content := fun f => if f = mem then fun _ => 0 else s.content f }
        -- the result of `mappages` is ignored
        (s.mappages (k.table (page a)) (page a) mem).bind fun r => allocLoop k oldsz newsz fuel ((a + PGSIZE) % 2 ^ 32) r.1
    else some (s, newsz)

def allocuvm (k : Kalloc) (s : Space) (oldsz newsz : ℕ) : Option (Space × ℕ) :=
  if newsz ≥ KERNBASE then some (s, 0)
  else if newsz < oldsz then some (s, oldsz)
  else allocLoop k oldsz newsz PAGES.succ (PGROUNDUP oldsz) s

/-- `sz + n` of an unsigned and an `int`. -/
def addInt (sz : ℕ) (n : ℤ) : ℕ := ((sz + n) % 2 ^ 32).toNat

def growproc (k : Kalloc) (s : Space) (n : ℤ) : Option (Space × ℤ) :=
  if n > 0 then
    (allocuvm k s s.sz (addInt s.sz n)).map fun (s, sz) => if sz = 0 then (s, -1) else ({ s with sz := sz }, 0)
  else if n < 0 then
    (deallocuvm s s.sz (addInt s.sz n)).map fun (s, sz) => if sz = 0 then (s, -1) else ({ s with sz := sz }, 0)
  else some (s, 0)

/-- One call of `sbrk`: its argument, if `argint` can fetch it, and what `kalloc` does. -/
structure Sbrk where
  arg : Option (BitVec 32)
  kalloc : Kalloc

def sys_sbrk (l : Sbrk) (s : Space) : Option (Space × ℤ) :=
  match l.arg with
  | none => some (s, -1)
  | some n => (growproc l.kalloc s n.toInt).map fun r => if r.2 < 0 then (r.1, -1) else (r.1, s.sz)

end Memory

end Os132

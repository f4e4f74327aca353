import Os132.Memory.Copyout
import Os132.Memory.Copyuvm

/-!
# The image that exec builds (exec.c, and the functions of vm.c it calls)

`exec` from the ELF header to the new stack, over the page table that it fills. A page belongs to the
table that maps it, since `kalloc` gives it to nobody else. The file is its bytes, locked meanwhile.
-/

namespace Os132

namespace Memory

namespace Exec

def MAXARG : ℕ := 32
def ELF_MAGIC : ℕ := 0x464C457F
def ELF_PROG_LOAD : ℕ := 1

/-- What ends `exec` early: `goto bad`, or the kernel stops or writes where it must not. -/
inductive Fail where
  | bad
  | panic
  deriving DecidableEq

/-- A page whose entry is present: `PTE_U` and its bytes. -/
structure Page where
  user : Bool
  byte : ℕ → UInt8

/-- The page tables that are there, and the pages that they map. -/
structure Vm where
  table : ℕ → Bool
  page : ℕ → Option Page

/-- What `kalloc` answers: whether `setupkvm` succeeds, whether there is a page for page `p` of the process,
and whether there is one for the page table in front of it. `entry` is the word at address 0 of the old memory,
which `uva2ka` reads where there is no page table, `none` if that is a page fault. -/
structure Env where
  kvm : Bool
  page : ℕ → Bool
  table : ℕ → Bool
  entry : Option ℕ

/-- Whether `uva2ka` faults at address 0 or returns something other than 0 for the word there. -/
def Env.null (env : Env) : Bool :=
  match env.entry with
  | none => true
  | some pte => decide (Present pte ∧ User pte ∧ Ram.p2v (PTE_ADDR pte) ≠ 0)

/-- The pages of the kernel. -/
def Kernel (p : ℕ) : Prop :=
  KERNBASE / PGSIZE ≤ p ∧ p < (KERNBASE + PHYSTOP) / PGSIZE ∨ DEVSPACE / PGSIZE ≤ p ∧ p < 2 ^ 32 / PGSIZE

instance (p : ℕ) : Decidable (Kernel p) := inferInstanceAs (Decidable (_ ∨ _))

/-- `setupkvm` -/
def setupkvm (env : Env) : Except Fail Vm :=
  if env.kvm then
    .ok ⟨fun i => decide (Kernel (i * NPTENTRIES)), fun p => if Kernel p then some ⟨false, fun _ => 0⟩ else none⟩
  else .error .bad

/-- `mappages` for one page, and `allocuvm` does not look at what it returns. -/
def mappages (env : Env) (p : ℕ) (s : Vm) : Except Fail Vm :=
  if s.table (p / NPTENTRIES) ∨ env.table p then
    if (s.page p).isSome then .error .panic
    else .ok ⟨fun i => if i = p / NPTENTRIES then true else s.table i,
      fun q => if q = p then some ⟨true, fun _ => 0⟩ else s.page q⟩
  else .ok s

/-- The loop of `allocuvm` from page `p` on. -/
def allocLoop (env : Env) (newsz : ℕ) : ℕ → ℕ → Vm → Except Fail Vm
  | 0, _, s => .ok s
  | fuel + 1, p, s =>
    if p * PGSIZE < newsz then
      if env.page p then do
        let s ← mappages env p s
        allocLoop env newsz fuel (p + 1) s
      else .error .bad
    else .ok s

/-- `allocuvm`; `exec` gives up when it returns 0. -/
def allocuvm (env : Env) (s : Vm) (oldsz newsz : ℕ) : Except Fail (Vm × ℕ) :=
  if KERNBASE ≤ newsz then .error .bad
  else if newsz < oldsz then .ok (s, oldsz)
  else do
    let s ← allocLoop env newsz (newsz / PGSIZE + 1) (PGROUNDUP oldsz / PGSIZE) s
    if newsz = 0 then .error .bad
    else .ok (s, newsz)

/-- `memmove(p2v(PTE_ADDR(*pte)) + o, src, src.length)` for the entry of page `p`. -/
def Vm.write (s : Vm) (p o : ℕ) (src : List UInt8) : Vm :=
  { s with page := fun q => if q = p then
      (s.page q).map fun g => { g with byte := fun j => if o ≤ j then (src[j - o]?).getD (g.byte j) else g.byte j }
    else s.page q }

/-- `readi`: what it returns is the number of the bytes. -/
def readi (file : List UInt8) (off n : ℕ) : Option (List UInt8) :=
  if file.length < off ∨ (off + n) % 2 ^ 32 < off then none
  else some ((file.drop off).take n)

/-- The loop of `loaduvm`. -/
def loadLoop (file : List UInt8) (addr offset sz : ℕ) : ℕ → ℕ → Vm → Except Fail Vm
  | 0, _, s => .ok s
  | fuel + 1, i, s =>
    if i < sz then
      if s.table ((addr + i) / PGSIZE / NPTENTRIES) then
        let n := min (sz - i) PGSIZE
        match readi file ((offset + i) % 2 ^ 32) n with
        | some bytes =>
          if bytes.length = n then loadLoop file addr offset sz fuel (i + PGSIZE) (s.write ((addr + i) / PGSIZE) 0 bytes)
          else .error .bad
        | none => .error .bad
      else .error .panic
    else .ok s

def loaduvm (s : Vm) (addr : ℕ) (file : List UInt8) (offset sz : ℕ) : Except Fail Vm :=
  if addr % PGSIZE ≠ 0 then .error .panic
  else loadLoop file addr offset sz (sz / PGSIZE + 1) 0 s

/-- `clearpteu` for page `p` -/
def clearpteu (s : Vm) (p : ℕ) : Except Fail Vm :=
  if s.table (p / NPTENTRIES) then
    .ok { s with page := fun q => if q = p then (s.page q).map fun g => { g with user := false } else s.page q }
  else .error .panic

/-- The loop of `copyout`, which calls `uva2ka` for each page. -/
def copyLoop (null : Bool) : ℕ → ℕ → List UInt8 → Vm → Except Fail Vm
  | 0, _, _, s => .ok s
  | fuel + 1, va, buf, s =>
    if buf = [] then .ok s
    else
      let n := min (PGSIZE - va % PGSIZE) buf.length
      let next := (va / PGSIZE + 1) * PGSIZE % 2 ^ 32
      if s.table (va / PGSIZE / NPTENTRIES) then
        if (s.page (va / PGSIZE)).any Page.user then
          copyLoop null fuel next (buf.drop n) (s.write (va / PGSIZE) (va % PGSIZE) (buf.take n))
        else .error .bad
      -- the bytes go wherever the word at address 0 leads
      else if null then .error .panic
      else .error .bad

def copyout (null : Bool) (s : Vm) (va : ℕ) (buf : List UInt8) : Except Fail Vm :=
  copyLoop null (buf.length + 1) va buf s

/-- `struct proghdr`, as far as `exec` reads it. -/
structure ProgHdr where
  type : ℕ
  off : ℕ
  vaddr : ℕ
  filesz : ℕ
  memsz : ℕ
  deriving DecidableEq

/-- The `uint` at offset `i`. -/
def word (b : List UInt8) (i : ℕ) : ℕ :=
  (b.getD i 0).toNat + 256 * (b.getD (i + 1) 0).toNat + 65536 * (b.getD (i + 2) 0).toNat +
    16777216 * (b.getD (i + 3) 0).toNat

def proghdr (b : List UInt8) : ProgHdr := ⟨word b 0, word b 4, word b 8, word b 16, word b 20⟩

/-- The loop of `exec` over the program headers; `sz` is the size of the image so far. -/
def segmentLoop (env : Env) (file : List UInt8) : ℕ → ℕ → Vm × ℕ → Except Fail (Vm × ℕ)
  | 0, _, r => .ok r
  | k + 1, off, r =>
    match readi file off 32 with
    | none => .error .bad
    | some b =>
      if b.length ≠ 32 then .error .bad
      else if (proghdr b).type ≠ ELF_PROG_LOAD then segmentLoop env file k ((off + 32) % 2 ^ 32) r
      else if (proghdr b).memsz < (proghdr b).filesz then .error .bad
      else do
        let r ← allocuvm env r.1 r.2 (((proghdr b).vaddr + (proghdr b).memsz) % 2 ^ 32)
        let s ← loaduvm r.1 (proghdr b).vaddr file (proghdr b).off (proghdr b).filesz
        segmentLoop env file k ((off + 32) % 2 ^ 32) (s, r.2)

/-- The loop of `exec` over the arguments, with `sp` and the pointers in `ustack`. -/
def pushLoop (null : Bool) : List (List UInt8) → Vm → ℕ → List ℕ → Except Fail (Vm × ℕ × List ℕ)
  | [], s, sp, ptrs => .ok (s, sp, ptrs)
  | a :: args, s, sp, ptrs =>
    if MAXARG ≤ ptrs.length then .error .bad
    else do
      let sp := (sp + 2 ^ 32 - (a.length + 1) % 2 ^ 32) % 2 ^ 32 / 4 * 4
      let s ← copyout null s sp (a ++ [0])
      pushLoop null args s sp (ptrs ++ [sp])

/-- The bytes of words. -/
def bytes (ws : List ℕ) : List UInt8 :=
  ws.flatMap fun v => [UInt8.ofNat v, UInt8.ofNat (v / 256), UInt8.ofNat (v / 65536), UInt8.ofNat (v / 16777216)]

/-- What `exec` commits to: the page table, `sz`, `eip` and `esp`. -/
structure Proc where
  pgdir : Vm
  sz : ℕ
  eip : ℕ
  esp : ℕ

/-- The two pages behind the segments, the first of which becomes inaccessible. -/
def stackPages (env : Env) (r : Vm × ℕ) : Except Fail (Vm × ℕ) := do
  let r ← allocuvm env r.1 (PGROUNDUP r.2) (PGROUNDUP r.2 + 2 * PGSIZE)
  let s ← clearpteu r.1 (r.2 / PGSIZE - 2)
  return (s, r.2)

/-- The stack and what `exec` commits to. -/
def pushStack (null : Bool) (args : List (List UInt8)) (entry : ℕ) (r : Vm × ℕ) : Except Fail Proc := do
  let (s, sp, ptrs) ← pushLoop null args r.1 r.2 []
  let ustack := 0xffffffff :: ptrs.length :: (sp + 2 ^ 32 - (ptrs.length + 1) * 4) % 2 ^ 32 :: (ptrs ++ [0])
  let sp := (sp + 2 ^ 32 - ustack.length * 4) % 2 ^ 32
  let s ← copyout null s sp (bytes ustack)
  return ⟨s, r.2, entry, sp⟩

/-- The memory that `exec` makes before it looks at the arguments. -/
def image (env : Env) (file elf : List UInt8) : Except Fail (Vm × ℕ) := do
  let s ← setupkvm env
  let r ← segmentLoop env file (word elf 44 % 65536) (word elf 28) (s, 0)
  stackPages env r

/-- `exec` of a file that has been found; `.error .bad` where it returns -1. -/
def exec (env : Env) (file : List UInt8) (args : List (List UInt8)) : Except Fail Proc :=
  match readi file 0 52 with
  | none => .error .bad
  | some elf =>
    if elf.length < 52 ∨ word elf 0 ≠ ELF_MAGIC then .error .bad
    else do
      let r ← image env file elf
      pushStack env.null args (word elf 24) r

end Exec

end Memory

end Os132

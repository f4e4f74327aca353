import Mathlib.Logic.Function.Basic
import Mathlib.Data.Nat.Notation

/-!
# The storage allocator of user programs

A free block starts with a header: the next free block and its size in headers. Addresses and
sizes are 32-bit words, kept as natural numbers with the wrap of an addition written out. The
searches of `free` and `malloc` follow pointers, so they take fuel; `none` is a search that has
not come to its end. What `sbrk` answers is a parameter, and what it gave is kept in `chunks`.
-/

namespace Os132.User

def WORD : ℕ := 4294967296

/-- `sizeof(Header)`. -/
def HEADER : ℕ := 8

/-- The headers in memory, the roving pointer, and the start and length of what `sbrk` gave. -/
structure Heap where
  ptr : ℕ → ℕ
  size : ℕ → ℕ
  freep : ℕ
  chunks : List (ℕ × ℕ)

namespace Heap

def setPtr (h : Heap) (p q : ℕ) : Heap := { h with ptr := Function.update h.ptr p q }

def setSize (h : Heap) (p n : ℕ) : Heap := { h with size := Function.update h.size p n }

def setFreep (h : Heap) (p : ℕ) : Heap := { h with freep := p }

end Heap

/-- `p + n` for a `Header *`. -/
def plus (p n : ℕ) : ℕ := (p + n * HEADER) % WORD

/-- The loop of `free`: the block of the list after which `bp` belongs. -/
def findSlot (h : Heap) (bp : ℕ) : ℕ → ℕ → Option ℕ
  | 0, _ => none
  | fuel + 1, p =>
    if bp > p ∧ bp < h.ptr p then some p
    else if p ≥ h.ptr p ∧ (bp > p ∨ bp < h.ptr p) then some p
    else findSlot h bp fuel (h.ptr p)

/-- `bp` takes in the block that follows `p`, if it ends there, and else points to it. -/
def joinUpper (h : Heap) (bp p : ℕ) : Heap :=
  if plus bp (h.size bp) = h.ptr p then
    (h.setSize bp ((h.size bp + h.size (h.ptr p)) % WORD)).setPtr bp (h.ptr (h.ptr p))
  else h.setPtr bp (h.ptr p)

/-- `p` takes in `bp`, if it ends there, and else points to it. -/
def joinLower (h : Heap) (bp p : ℕ) : Heap :=
  if plus p (h.size p) = bp then
    (h.setSize p ((h.size p + h.size bp) % WORD)).setPtr p (h.ptr bp)
  else h.setPtr p bp

def free (fuel : ℕ) (h : Heap) (ap : ℕ) : Option Heap :=
  let bp := ap - HEADER
  (findSlot h bp fuel h.freep).map fun p => (joinLower (joinUpper h bp p) bp p).setFreep p

/-- The headers that `morecore` asks for. -/
def request (nu : ℕ) : ℕ := if nu < 4096 then 4096 else nu

/-- The return value is `freep`, and 0 when `sbrk` failed. -/
def morecore (fuel : ℕ) (h : Heap) (sbrk : ℕ → Option ℕ) (nu : ℕ) : Option (Heap × ℕ) :=
  let nu := request nu
  match sbrk (nu * HEADER % WORD) with
  | none => some (h, 0)
  | some p =>
    let h := { h with chunks := (p, nu * HEADER % WORD) :: h.chunks }
    (free fuel (h.setSize p nu) (plus p 1)).map fun h => (h, h.freep)

/-- Takes `nunits` headers from the block `p`, which follows `prevp`: all of it or its tail. -/
def carve (h : Heap) (nunits prevp p : ℕ) : Heap × ℕ :=
  if h.size p = nunits then
    ((h.setPtr prevp (h.ptr p)).setFreep prevp, plus p 1)
  else
    let h := h.setSize p (h.size p - nunits)
    let q := plus p (h.size p)
    ((h.setSize q nunits).setFreep prevp, plus q 1)

/-- The loop of `malloc`; `sbrk k` is the answer to the `k`-th call of `sbrk` that it makes. -/
def mallocLoop (nunits : ℕ) (sbrk : ℕ → ℕ → Option ℕ) : ℕ → ℕ → Heap → ℕ → ℕ → Option (Heap × ℕ)
  | 0, _, _, _, _ => none
  | fuel + 1, k, h, prevp, p =>
    if h.size p ≥ nunits then some (carve h nunits prevp p)
    else if p = h.freep then
      (morecore fuel h (sbrk k) nunits).bind fun r =>
        if r.2 = 0 then some (r.1, 0)
        else mallocLoop nunits sbrk fuel (k + 1) r.1 r.2 (r.1.ptr r.2)
    else mallocLoop nunits sbrk fuel k h p (h.ptr p)

def units (nbytes : ℕ) : ℕ := (nbytes + HEADER - 1) % WORD / HEADER + 1

/-- The first call makes a list of the static header `base` alone. -/
def makeBase (base : ℕ) (h : Heap) : Heap :=
  if h.freep = 0 then ((h.setPtr base base).setFreep base).setSize base 0 else h

def malloc (base fuel : ℕ) (h : Heap) (sbrk : ℕ → ℕ → Option ℕ) (nbytes : ℕ) : Option (Heap × ℕ) :=
  let h := makeBase base h
  mallocLoop (units nbytes) sbrk fuel 0 h h.freep (h.ptr h.freep)

/-- A call of the program, with the answers `sbrk` has for it. -/
inductive Call where
  | malloc (nbytes : ℕ) (sbrk : ℕ → ℕ → Option ℕ)
  | free (ap : ℕ)

/-- The allocator with the headers of the blocks the program holds. -/
structure Machine where
  heap : Heap
  live : List ℕ

/-- One call, run for `fuel` rounds of its loops. -/
def step (base : ℕ) : Call × ℕ → Machine → Option Machine
  | (.malloc nbytes sbrk, fuel), m =>
    (malloc base fuel m.heap sbrk nbytes).map fun r =>
      ⟨r.1, if r.2 = 0 then m.live else (r.2 - HEADER) :: m.live⟩
  | (.free ap, fuel), m =>
    (free fuel m.heap ap).map fun h => ⟨h, m.live.erase (ap - HEADER)⟩

/-- Before the first call: `freep` is null. -/
def start (m : Machine) : Prop := m.heap.freep = 0 ∧ m.heap.chunks = [] ∧ m.live = []

end Os132.User

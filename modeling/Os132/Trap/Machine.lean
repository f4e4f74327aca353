import Os132.Lib.Words

/-!
# The instructions under traps and context switches

The subset of the processor that vectors.S, trapasm.S and swtch.S use, with the listings of these
files, the gates that `tvinit` writes and what the processor does when an interrupt, an exception
or an `int` instruction goes through a gate. Where the linker puts the code is a parameter
(`Text`). The C functions `trap` and `forkret` have an address and no listing.
-/

namespace Os132.Trap

open Words

def SEG_KCODE : ℕ := 1
def SEG_KDATA : ℕ := 2
def SEG_KCPU : ℕ := 3
def SEG_UCODE : ℕ := 4
def SEG_UDATA : ℕ := 5
def DPL_USER : ℕ := 3
def FL_IF : Word := 0x200#32
def T_SYSCALL : Fin 256 := 64
def T_GPFLT : Fin 256 := 13
def STS_IG32 : BitVec 4 := 0xE#4
def STS_TG32 : BitVec 4 := 0xF#4

/-- A selector: the index of a descriptor and a requested privilege level. -/
def selector (seg rpl : ℕ) : BitVec 16 := BitVec.ofNat 16 (seg * 8 + rpl)

/-- The privilege level in the low bits of a selector. -/
def level (sel : BitVec 16) : ℕ := sel.toNat % 4

inductive Reg where
  | eax | ecx | edx | ebx | esp | ebp | esi | edi
  deriving DecidableEq

inductive Seg where
  | ds | es | fs | gs
  deriving DecidableEq

inductive Label where
  | vector (i : Fin 256)
  | alltraps
  | trapret
  | swtch
  | trap
  | forkret
  deriving DecidableEq

inductive Instr where
  | pushl (r : Reg)
  | pushImm (v : Word)
  | pushSeg (g : Seg)
  | popl (r : Reg)
  | popSeg (g : Seg)
  | pushal
  | popal
  | movwAx (v : BitVec 16)
  | movwSeg (g : Seg)
  | addEsp (v : Word)
  | movlFrom (d : Word) (r : Reg)
  | movlTo (r : Reg)
  | movl (r r' : Reg)
  | jmp (l : Label)
  | call (l : Label)
  | ret
  | iret
  deriving DecidableEq

/-- The test of vectors.pl: for these vectors the entry point pushes no error code. -/
def pushesError (i : Fin 256) : Bool := i.val == 8 || (10 ≤ i.val && i.val ≤ 14) || i.val == 17

/-- What vectors.pl prints for an entry point. -/
def vectorCode (i : Fin 256) : List Instr :=
  (if pushesError i then [] else [.pushImm 0#32]) ++ [.pushImm (BitVec.ofNat 32 i), .jmp .alltraps]

/-- Builds the trap frame. -/
def savesAll : List Instr :=
  [.pushSeg .ds, .pushSeg .es, .pushSeg .fs, .pushSeg .gs, .pushal]

/-- Sets up the kernel's segments and the argument of `trap`. -/
def kernelSegments : List Instr :=
  [.movwAx (selector SEG_KDATA 0), .movwSeg .ds, .movwSeg .es,
    .movwAx (selector SEG_KCPU 0), .movwSeg .fs, .movwSeg .gs, .pushl .esp]

def restoresAll : List Instr :=
  [.popal, .popSeg .gs, .popSeg .fs, .popSeg .es, .popSeg .ds, .addEsp 8#32]

def trapretCode : List Instr := restoresAll ++ [.iret]

def beforeTrapret : List Instr := savesAll ++ kernelSegments ++ [.call .trap, .addEsp 4#32]

def alltrapsCode : List Instr := beforeTrapret ++ trapretCode

def swtchCode : List Instr :=
  [.movlFrom 4#32 .eax, .movlFrom 8#32 .edx,
    .pushl .ebp, .pushl .ebx, .pushl .esi, .pushl .edi,
    .movlTo .eax, .movl .edx .esp,
    .popl .edi, .popl .esi, .popl .ebx, .popl .ebp, .ret]

def asm : Label → List Instr
  | .vector i => vectorCode i
  | .alltraps => alltrapsCode
  | .trapret => trapretCode
  | .swtch => swtchCode
  | .trap => []
  | .forkret => []

/-- Where the linker put the code: the address of each instruction of a listing, and what is
fetched there with the address of the instruction after it. -/
structure Text where
  addr : Label → ℕ → Word
  fetch : Word → Option (Instr × Word)
  fetch_addr : ∀ l k i, (asm l)[k]? = some i → fetch (addr l k) = some (i, addr l (k + 1))
  falls : ∀ k, addr .trapret k = addr .alltraps (beforeTrapret.length + k)

/-- One way to lay out the code, an address for each instruction. -/
def place : Label → ℕ
  | .vector i => 16 * i
  | .alltraps => 4096
  | .trapret => 4096 + beforeTrapret.length
  | .swtch => 8192
  | .trap => 12288
  | .forkret => 12304

def linked : Text where
  addr l k := BitVec.ofNat 32 (place l + k)
  fetch w :=
    let code := if h : w.toNat < 4096 then (vectorCode ⟨w.toNat / 16, by omega⟩)[w.toNat % 16]?
      else if w.toNat < 8192 then alltrapsCode[w.toNat - 4096]? else swtchCode[w.toNat - 8192]?
    code.map fun i => (i, w + 1#32)
  fetch_addr l k i hi := by
    obtain ⟨hk, -⟩ := List.getElem?_eq_some_iff.1 hi
    have hnext : BitVec.ofNat 32 (place l + k) + 1#32 = BitVec.ofNat 32 (place l + (k + 1)) := by
      apply BitVec.eq_of_toNat_eq
      simp only [BitVec.toNat_add, BitVec.toNat_ofNat]
      omega
    simp only [hnext]
    cases l with
    | vector j =>
      have hlen : k < 3 := lt_of_lt_of_le hk (by
        simp only [asm, vectorCode, List.length_append]
        split_ifs <;> simp)
      have hj := j.isLt
      have hw : (BitVec.ofNat 32 (16 * j.val + k)).toNat = 16 * j.val + k := by
        rw [BitVec.toNat_ofNat]
        omega
      have hdiv : (16 * j.val + k) / 16 = j.val := by omega
      have hmod : (16 * j.val + k) % 16 = k := by omega
      simp only [place, hw, hdiv, hmod, Fin.eta]
      rw [dif_pos (by omega)]
      exact congrArg _ hi
    | alltraps =>
      have hlen : k < 21 := hk
      have hw : (BitVec.ofNat 32 (4096 + k)).toNat = 4096 + k := by
        rw [BitVec.toNat_ofNat]
        omega
      simp only [place, hw]
      rw [dif_neg (by omega), if_pos (by omega), Nat.add_sub_cancel_left]
      exact congrArg _ hi
    | trapret =>
      have hlen : k < 7 := hk
      have hw : (BitVec.ofNat 32 (4096 + beforeTrapret.length + k)).toNat = 4096 + (beforeTrapret.length + k) := by
        rw [BitVec.toNat_ofNat]
        have : beforeTrapret.length = 14 := rfl
        omega
      have h14 : beforeTrapret.length = 14 := rfl
      simp only [place, hw]
      rw [dif_neg (by omega), if_pos (by omega), Nat.add_sub_cancel_left, alltrapsCode,
        List.getElem?_append_right (by omega), Nat.add_sub_cancel_left]
      exact congrArg _ hi
    | swtch =>
      have hlen : k < 13 := hk
      have hw : (BitVec.ofNat 32 (8192 + k)).toNat = 8192 + k := by
        rw [BitVec.toNat_ofNat]
        omega
      simp only [place, hw]
      rw [dif_neg (by omega), if_neg (by omega), Nat.add_sub_cancel_left]
      exact congrArg _ hi
    | trap => exact absurd hk (by simp [asm])
    | forkret => exact absurd hk (by simp [asm])
  falls k := by simp only [place, Nat.add_assoc]

/-- Registers and memory, the instruction pointer aside. -/
structure Core where
  eax : Word
  ecx : Word
  edx : Word
  ebx : Word
  esp : Word
  ebp : Word
  esi : Word
  edi : Word
  cs : BitVec 16
  ds : BitVec 16
  es : BitVec 16
  fs : BitVec 16
  gs : BitVec 16
  ss : BitVec 16
  eflags : Word
  mem : ByteMem

structure State where
  core : Core
  eip : Word

/-- What the listings do not fix of the processor: the flags that an addition leaves, and the
privilege level in the descriptor of a selector. -/
structure Processor where
  flags : Word → Word → Word
  dpl : BitVec 16 → ℕ

namespace Core

variable (s : Core)

def reg : Reg → Word
  | .eax => s.eax
  | .ecx => s.ecx
  | .edx => s.edx
  | .ebx => s.ebx
  | .esp => s.esp
  | .ebp => s.ebp
  | .esi => s.esi
  | .edi => s.edi

def setReg (v : Word) : Reg → Core
  | .eax => { s with eax := v }
  | .ecx => { s with ecx := v }
  | .edx => { s with edx := v }
  | .ebx => { s with ebx := v }
  | .esp => { s with esp := v }
  | .ebp => { s with ebp := v }
  | .esi => { s with esi := v }
  | .edi => { s with edi := v }

def seg : Seg → BitVec 16
  | .ds => s.ds
  | .es => s.es
  | .fs => s.fs
  | .gs => s.gs

def setSeg (v : BitVec 16) : Seg → Core
  | .ds => { s with ds := v }
  | .es => { s with es := v }
  | .fs => { s with fs := v }
  | .gs => { s with gs := v }

def push (v : Word) : Core :=
  { s with esp := s.esp - 4#32, mem := store s.mem (s.esp - 4#32) v }

/-- A selector is pushed as 16 bits into a slot of 32: the upper half of the slot stays. -/
def pushSel (v : BitVec 16) : Core :=
  s.push ((load s.mem (s.esp - 4#32)).extractLsb' 16 16 ++ v)

def top : Word := load s.mem s.esp

def topSel : BitVec 16 := s.top.setWidth 16

def drop : Core := { s with esp := s.esp + 4#32 }

def pop (r : Reg) : Core := s.drop.setReg s.top r

def popSel (g : Seg) : Core := s.drop.setSeg s.topSel g

/-- The current privilege level. -/
def cpl : ℕ := level s.cs

def pushal : Core :=
  (((((((s.push s.eax).push s.ecx).push s.edx).push s.ebx).push s.esp).push s.ebp).push s.esi).push s.edi

variable {s} {v : Word} {w : BitVec 16} {g g' : Reg} {h h' : Seg}

@[simp] lemma reg_drop : s.drop.reg g = if g = .esp then s.esp + 4#32 else s.reg g := by
  cases g <;> rfl

@[simp] lemma reg_setReg : (s.setReg v g).reg g' = if g' = g then v else s.reg g' := by
  cases g <;> cases g' <;> rfl

@[simp] lemma reg_setSeg : (s.setSeg w h).reg g = s.reg g := by
  cases h <;> cases g <;> rfl

@[simp] lemma seg_drop : s.drop.seg h = s.seg h := by
  cases h <;> rfl

@[simp] lemma seg_setReg : (s.setReg v g).seg h = s.seg h := by
  cases g <;> cases h <;> rfl

@[simp] lemma seg_setSeg : (s.setSeg w h).seg h' = if h' = h then w else s.seg h' := by
  cases h <;> cases h' <;> rfl

@[simp] lemma reg_push : (s.push v).reg g = if g = .esp then s.esp - 4#32 else s.reg g := by
  cases g <;> rfl

@[simp] lemma seg_push : (s.push v).seg h = s.seg h := by
  cases h <;> rfl

@[simp] lemma esp_push : (s.push v).esp = s.esp - 4#32 := rfl

@[simp] lemma mem_push : (s.push v).mem = store s.mem (s.esp - 4#32) v := rfl

@[simp] lemma esp_drop : s.drop.esp = s.esp + 4#32 := rfl

@[simp] lemma esp_setReg : (s.setReg v g).esp = if g = .esp then v else s.esp := by
  cases g <;> rfl

@[simp] lemma esp_setSeg : (s.setSeg w h).esp = s.esp := by
  cases h <;> rfl

@[simp] lemma mem_drop : s.drop.mem = s.mem := rfl

@[simp] lemma mem_setReg : (s.setReg v g).mem = s.mem := by
  cases g <;> rfl

@[simp] lemma mem_setSeg : (s.setSeg w h).mem = s.mem := by
  cases h <;> rfl

@[simp] lemma cs_drop : s.drop.cs = s.cs := rfl

@[simp] lemma cs_setReg : (s.setReg v g).cs = s.cs := by
  cases g <;> rfl

@[simp] lemma cs_setSeg : (s.setSeg w h).cs = s.cs := by
  cases h <;> rfl

@[simp] lemma ss_drop : s.drop.ss = s.ss := rfl

@[simp] lemma ss_setReg : (s.setReg v g).ss = s.ss := by
  cases g <;> rfl

@[simp] lemma ss_setSeg : (s.setSeg w h).ss = s.ss := by
  cases h <;> rfl

/-- Two states with the same registers and memory are the same. -/
lemma ext_reg {t : Core} (hreg : ∀ g, s.reg g = t.reg g) (hseg : ∀ h, s.seg h = t.seg h) (hcs : s.cs = t.cs)
    (hss : s.ss = t.ss) (hfl : s.eflags = t.eflags) (hm : s.mem = t.mem) : s = t := by
  have h1 := hreg .eax
  have h2 := hreg .ecx
  have h3 := hreg .edx
  have h4 := hreg .ebx
  have h5 := hreg .esp
  have h6 := hreg .ebp
  have h7 := hreg .esi
  have h8 := hreg .edi
  have h9 := hseg .ds
  have h10 := hseg .es
  have h11 := hseg .fs
  have h12 := hseg .gs
  cases s
  cases t
  simp only [reg, seg] at *
  simp only [*]

variable (s)

@[simp] lemma push_cs (v : Word) : (s.push v).cs = s.cs := rfl

@[simp] lemma pushSel_cs (v : BitVec 16) : (s.pushSel v).cs = s.cs := rfl

@[simp] lemma pushal_cs : s.pushal.cs = s.cs := by
  simp only [pushal, push_cs]

@[simp] lemma push_ss (v : Word) : (s.push v).ss = s.ss := rfl

@[simp] lemma pushSel_ss (v : BitVec 16) : (s.pushSel v).ss = s.ss := rfl

@[simp] lemma pushal_ss : s.pushal.ss = s.ss := by
  simp only [pushal, push_ss]

/-- The stack pointer that `pushal` saved is skipped. -/
def popal : Core :=
  (((((((s.pop .edi).pop .esi).pop .ebp).drop).pop .ebx).pop .edx).pop .ecx).pop .eax

/-- A return to a less privileged level clears the selectors that are out of its reach. -/
def lower (c : Processor) (v : BitVec 16) (sel : BitVec 16) : BitVec 16 :=
  if c.dpl sel < level v then 0#16 else sel

def iret (c : Processor) : State :=
  let eip := s.top
  let cs := s.drop.topSel
  let eflags := s.drop.drop.top
  let t := s.drop.drop.drop
  if s.cpl < level cs then
    ⟨{ t with cs := cs, eflags := eflags, esp := t.top, ss := t.drop.topSel,
              ds := lower c cs s.ds, es := lower c cs s.es, fs := lower c cs s.fs, gs := lower c cs s.gs }, eip⟩
  else ⟨{ t with cs := cs, eflags := eflags }, eip⟩

end Core

/-- What an instruction that goes on to the next one does. -/
def effect (c : Processor) (s : Core) : Instr → Core
  | .pushl r => s.push (s.reg r)
  | .pushImm v => s.push v
  | .pushSeg g => s.pushSel (s.seg g)
  | .popl r => s.pop r
  | .popSeg g => s.popSel g
  | .pushal => s.pushal
  | .popal => s.popal
  | .movwAx v => { s with eax := s.eax.extractLsb' 16 16 ++ v }
  | .movwSeg g => s.setSeg (s.eax.setWidth 16) g
  | .addEsp v => { s with esp := s.esp + v, eflags := c.flags s.esp v }
  | .movlFrom d r => s.setReg (load s.mem (s.esp + d)) r
  | .movlTo r => { s with mem := store s.mem (s.reg r) s.esp }
  | .movl r r' => s.setReg (s.reg r) r'
  | _ => s

def exec (x : Text) (c : Processor) (i : Instr) (next : Word) (s : Core) : State :=
  match i with
  | .jmp l => ⟨s, x.addr l 0⟩
  | .call l => ⟨s.push next, x.addr l 0⟩
  | .ret => ⟨s.drop, s.top⟩
  | .iret => s.iret c
  | i => ⟨effect c s i, next⟩

/-- One instruction; none where the text has no listing. -/
def step (x : Text) (c : Processor) (s : State) : Option State :=
  (x.fetch s.eip).map fun p => exec x c p.1 p.2 s.core

def steps (x : Text) (c : Processor) : ℕ → State → Option State
  | 0, s => some s
  | n + 1, s => (step x c s).bind (steps x c n)

/-! ### Gates -/

/-- A gate descriptor, as mmu.h lays it out. -/
structure Gatedesc where
  off_15_0 : BitVec 16
  cs : BitVec 16
  args : BitVec 5
  rsv1 : BitVec 3
  type : BitVec 4
  s : BitVec 1
  dpl : BitVec 2
  p : BitVec 1
  off_31_16 : BitVec 16
  deriving DecidableEq

def SETGATE (istrap : Bool) (sel : BitVec 16) (off : Word) (d : ℕ) : Gatedesc where
  off_15_0 := off.setWidth 16
  cs := sel
  args := 0
  rsv1 := 0
  type := if istrap then STS_TG32 else STS_IG32
  s := 0
  dpl := BitVec.ofNat 2 d
  p := 1
  off_31_16 := off.extractLsb' 16 16

/-- The entry point in a gate. -/
def Gatedesc.off (g : Gatedesc) : Word := g.off_31_16 ++ g.off_15_0

def tvinit (x : Text) : Fin 256 → Gatedesc :=
  Function.update (fun i => SETGATE false (selector SEG_KCODE 0) (x.addr (.vector i) 0) 0)
    T_SYSCALL (SETGATE true (selector SEG_KCODE 0) (x.addr (.vector T_SYSCALL) 0) DPL_USER)

/-- The flags that a gate clears: TF, NT, RF and VM, and IF in an interrupt gate. -/
def gateMask (type : BitVec 4) : Word := if type = STS_IG32 then 0x34300#32 else 0x34100#32

/-- Where the processor finds the kernel stack when it leaves user mode. -/
structure Tss where
  ss0 : BitVec 16
  esp0 : Word

namespace Core

/-- The stack on which a gate to level 0 pushes: that of the task state in user mode. -/
def onKernel (s : Core) (ts : Tss) : Core :=
  if 0 < s.cpl then (({ s with esp := ts.esp0, ss := ts.ss0 }).pushSel s.ss).push s.esp else s

/-- What is pushed on the way through a gate. -/
def pushes (s : Core) (ts : Tss) (eip : Word) (err : Option Word) : Core :=
  let t := (((s.onKernel ts).push s.eflags).pushSel s.cs).push eip
  (err.map t.push).getD t

def enter (s : Core) (ts : Tss) (eip : Word) (g : Gatedesc) (err : Option Word) : State :=
  ⟨{ s.pushes ts eip err with cs := g.cs, eflags := s.eflags &&& ~~~ gateMask g.type }, g.off⟩

end Core

/-- What makes the processor leave the running code: an interrupt of a device, an exception with
the code it would push, an `int` instruction with the address after it. -/
inductive Event where
  | irq (i : Fin 256)
  | exception (i : Fin 256) (err : Word)
  | int (i : Fin 256) (next : Word)
  deriving DecidableEq

namespace Event

/-- Devices use the vectors from 32 on, exceptions those below; the kernel contains no `int`. -/
def Proper (cpl : ℕ) : Event → Prop
  | irq i => 32 ≤ i.val
  | exception i _ => i.val < 32
  | int _ _ => cpl = 3

instance (cpl : ℕ) (e : Event) : Decidable (e.Proper cpl) := by
  cases e <;> unfold Proper <;> infer_instance

/-- An `int` through a gate that the running code may not use. -/
def denied (idt : Fin 256 → Gatedesc) (cpl : ℕ) : Event → Bool
  | int i _ => (idt i).dpl.toNat < cpl
  | _ => false

/-- The general protection fault that a forbidden `int` turns into says which gate it was. -/
def actual (idt : Fin 256 → Gatedesc) (cpl : ℕ) (e : Event) : Event :=
  match e with
  | int i _ => if e.denied idt cpl then exception T_GPFLT (BitVec.ofNat 32 (i.val * 8 + 2)) else e
  | e => e

def number : Event → Fin 256
  | irq i => i
  | exception i _ => i
  | int i _ => i

/-- The exceptions with an error code: double fault, invalid TSS, segment not present, stack, general protection,
page fault and alignment. -/
def faultsWithCode : List ℕ := [8, 10, 11, 12, 13, 14, 17]

/-- The code that the processor pushes. -/
def code : Event → Option Word
  | exception i err => if i.val ∈ faultsWithCode then some err else none
  | _ => none

/-- The address that the processor pushes. -/
def resumesAt (eip : Word) : Event → Word
  | int _ next => next
  | _ => eip

end Event

/-- The processor goes through the gate of an event. -/
def deliver (idt : Fin 256 → Gatedesc) (ts : Tss) (s : State) (e : Event) : State :=
  let e' := e.actual idt s.core.cpl
  s.core.enter ts (e'.resumesAt s.eip) (idt e'.number) e'.code

end Os132.Trap

import Os132.Trap.Frame

/-!
# Through `trap` and back

Whatever leaves the running code arrives in `trap` with a complete frame on the kernel stack, and
`trapret` takes up what the frame says. With the frame as it was, the interrupted code cannot tell
that it was interrupted.
-/

namespace Os132.Trap

open Words

variable {x : Text} {c : Processor} {s t u : State} {r : Core} {ts : Tss} {e : Event}

/-- The state in which `trap` is called: the address after the call, the address of the frame and the
frame itself lie on the stack, nothing above the frame has changed, and the kernel's selectors are loaded. -/
structure InTrap (x : Text) (ts : Tss) (s : State) (f : Trapframe) (pad : ℕ → BitVec 16) (t : State) : Prop where
  eip : t.eip = x.addr .trap 0
  pushed : Pushed s.core.mem (frameEnd ts s.core)
    (x.addr .alltraps 13 :: (t.core.esp + 8#32) :: f.words pad (0 < s.core.cpl)) t.core
  kernel : InKernel t.core
  ss : s.core.cpl = 0 → t.core.ss = s.core.ss

/-- Every event that leaves the running code enters `trap` with the frame of the interrupted state. An
`int` from user mode arrives under its own number only if it is the system call. -/
theorem enters_trap (x : Text) (c : Processor) (ts : Tss) (s : State) (e : Event) (he : e.Proper s.core.cpl) :
    ∃ n t pad oesp, steps x c n (deliver (tvinit x) ts s e) = some t ∧
      InTrap x ts s (interrupted s (e.actual (tvinit x) s.core.cpl) oesp) pad t ∧
      ∀ i next, e = .int i next → i ≠ T_SYSCALL →
        e.actual (tvinit x) s.core.cpl = .exception T_GPFLT (BitVec.ofNat 32 (i.val * 8 + 2)) := by
  have hcode := code_isSome (x := x) he
  have hint : ∀ i next, e = .int i next → i ≠ T_SYSCALL →
      e.actual (tvinit x) s.core.cpl = .exception T_GPFLT (BitVec.ofNat 32 (i.val * 8 + 2)) := by
    intro i next h hi
    subst h
    have hc : s.core.cpl = 3 := he
    simp [Event.actual, Event.denied, tvinit_dpl, hi, hc]
  set e' := e.actual (tvinit x) s.core.cpl with he'
  obtain ⟨pad, hpushed, hsame⟩ := pushes_words (r := s.core) ts (e'.resumesAt s.eip) e'.code
    (f := interrupted s e' 0#32) rfl rfl rfl rfl rfl
  set r₀ : Core := { s.core.pushes ts (e'.resumesAt s.eip) e'.code with
    cs := (tvinit x e'.number).cs, eflags := s.core.eflags &&& ~~~ gateMask (tvinit x e'.number).type } with hr₀
  have hdeliver : deliver (tvinit x) ts s e = ⟨r₀, x.addr (.vector e'.number) 0⟩ := by
    rw [← tvinit_off]
    rfl
  have hp₀ : Pushed s.core.mem (frameEnd ts s.core)
      (e'.code.toList ++ (interrupted s e' 0#32).hardware pad (0 < s.core.cpl)) r₀ := hpushed.of_eq rfl rfl
  have hlen : ((interrupted s e' 0#32).hardware pad (0 < s.core.cpl)).length ≤ 5 := by
    rw [Trapframe.hardware_length]
    split_ifs <;> simp
  obtain ⟨n, r₁, hrun, hp₁, hsame₁, hcs₁⟩ := vector_runs (x := x) (c := c) hcode hp₀ (by omega)
  have hcs : r₁.cs = selector SEG_KCODE 0 := hcs₁.trans (tvinit_cs _)
  obtain ⟨r₂, pad', oesp, hrun₂, hp₂, hk, hss⟩ := alltraps_runs (x := x) (c := c) hp₁ (by simp only [List.length_cons]; omega) hcs
  refine ⟨n + 13, ⟨r₂, x.addr .trap 0⟩, fun i => if i < 5 then pad' i else pad i, oesp, ?_, ⟨rfl, ?_, hk, fun h0 => ?_⟩, hint⟩
  · rw [hdeliver]
    exact steps_trans hrun hrun₂
  · obtain ⟨g1, g2, g3, g4, g5, g6, g7⟩ := hsame₁.general
    obtain ⟨d1, d2, d3, d4⟩ := hsame₁.segments
    obtain ⟨i1, i2, i3, i4, i5, i6, i7⟩ := hsame.general
    obtain ⟨j1, j2, j3, j4⟩ := hsame.segments
    have hw : (interrupted s e' oesp).words (fun i => if i < 5 then pad' i else pad i) (0 < s.core.cpl) =
        [r₁.edi, r₁.esi, r₁.ebp, oesp, r₁.ebx, r₁.edx, r₁.ecx, r₁.eax,
          pad' 1 ++ r₁.gs, pad' 2 ++ r₁.fs, pad' 3 ++ r₁.es, pad' 4 ++ r₁.ds] ++
        (BitVec.ofNat 32 e'.number :: e'.code.getD 0#32 ::
          (interrupted s e' 0#32).hardware pad (0 < s.core.cpl)) := by
      rw [g1, g2, g3, g4, g5, g6, g7, d1, d2, d3, d4, hr₀]
      simp only [i1, i2, i3, i4, i5, i6, i7, j1, j2, j3, j4]
      rfl
    rw [hw]
    exact hp₂
  · have h₀ : r₀.cpl = 0 := by
      rw [Core.cpl, hr₀]
      exact congrArg level (tvinit_cs _)
    rw [hss, hsame₁.ss h₀]
    exact hsame.ss h0

/-- A user program about to run from address 16, with its stack pointer at 4096. -/
def userProgram : State where
  core := ⟨1#32, 2#32, 3#32, 4#32, 4096#32, 5#32, 6#32, 7#32, selector SEG_UCODE DPL_USER, selector SEG_UDATA DPL_USER,
    selector SEG_UDATA DPL_USER, 0#16, 0#16, selector SEG_UDATA DPL_USER, FL_IF, fun _ => 0⟩
  eip := 16#32

/-- A processor on which a selector asks for the level of its descriptor, and null selectors are never out of reach. -/
def simpleProcessor : Processor := ⟨fun a b => a + b, fun sel => if sel = 0 then 3 else level sel⟩

def simpleTss : Tss := ⟨selector SEG_KDATA 0, 0x80010000#32⟩

theorem enters_trap_breakpoint : ∃ n t pad oesp,
    steps linked simpleProcessor n (deliver (tvinit linked) simpleTss userProgram (.int 3 18#32)) = some t ∧
    InTrap linked simpleTss userProgram
      (interrupted userProgram (Event.actual (tvinit linked) userProgram.core.cpl (.int 3 18#32)) oesp) pad t ∧
    ∀ i next, Event.int 3 18#32 = .int i next → i ≠ T_SYSCALL →
      Event.actual (tvinit linked) userProgram.core.cpl (.int 3 18#32) =
        .exception T_GPFLT (BitVec.ofNat 32 (i.val * 8 + 2)) :=
  enters_trap linked simpleProcessor simpleTss userProgram (.int 3 18#32) (by decide)

/-! ### Out of `trap` -/

/-- A C function returns: to the address on the stack, which it takes off, in the same segments. -/
structure Returns (t u : State) : Prop where
  eip : u.eip = t.core.top
  esp : u.core.esp = t.core.esp + 4#32
  cs : u.core.cs = t.core.cs
  ss : u.core.ss = t.core.ss

/-- The state that a frame describes; the stack pointer is the frame's when the level changes,
and the end of the frame otherwise. -/
def Trapframe.resumed (f : Trapframe) (c : Processor) (r : Core) : Core where
  eax := f.eax
  ecx := f.ecx
  edx := f.edx
  ebx := f.ebx
  esp := if r.cpl < level f.cs then f.esp else r.esp + 68#32
  ebp := f.ebp
  esi := f.esi
  edi := f.edi
  cs := f.cs
  ds := if r.cpl < level f.cs then Core.lower c f.cs f.ds else f.ds
  es := if r.cpl < level f.cs then Core.lower c f.cs f.es else f.es
  fs := if r.cpl < level f.cs then Core.lower c f.cs f.fs else f.fs
  gs := if r.cpl < level f.cs then Core.lower c f.cs f.gs else f.gs
  ss := if r.cpl < level f.cs then f.ss else r.ss
  eflags := f.eflags
  mem := r.mem

lemma pop_words {w : Word} {ws : List Word} {g : Reg} (hg : g ≠ .esp) (h : Holds r.mem r.esp (w :: ws)) :
    r.pop g = r.drop.setReg w g ∧ Holds (r.drop.setReg w g).mem (r.drop.setReg w g).esp ws := by
  refine ⟨by rw [Core.pop, Core.top, h.head], ?_⟩
  have h' := h.tail
  cases g with
  | esp => exact absurd rfl hg
  | _ => exact h'

lemma popSel_words {p v : BitVec 16} {ws : List Word} {g : Seg} (h : Holds r.mem r.esp ((p ++ v) :: ws)) :
    r.popSel g = r.drop.setSeg v g ∧ Holds (r.drop.setSeg v g).mem (r.drop.setSeg v g).esp ws := by
  have hv : r.topSel = v := (congrArg (BitVec.setWidth 16) h.head).trans (low_sel p v)
  refine ⟨by rw [Core.popSel, hv], ?_⟩
  have h' := h.tail
  cases g <;> exact h'

lemma drop_words {w : Word} {ws : List Word} (h : Holds r.mem r.esp (w :: ws)) : Holds r.drop.mem r.drop.esp ws :=
  h.tail

/-- The registers in a frame; of the two stack pointers the one that `pushal` saved. -/
def Trapframe.reg (f : Trapframe) : Reg → Word
  | .eax => f.eax
  | .ecx => f.ecx
  | .edx => f.edx
  | .ebx => f.ebx
  | .esp => f.oesp
  | .ebp => f.ebp
  | .esi => f.esi
  | .edi => f.edi

def Trapframe.seg (f : Trapframe) : Seg → BitVec 16
  | .ds => f.ds
  | .es => f.es
  | .fs => f.fs
  | .gs => f.gs

/-- What is left to `iret` when the rest of a frame has been taken off. -/
structure Restored (f : Trapframe) (r r' : Core) : Prop where
  reg : ∀ g, g ≠ .esp → r'.reg g = f.reg g
  seg : ∀ g, r'.seg g = f.seg g
  esp : r'.esp = r.esp + 56#32
  cs : r'.cs = r.cs
  ss : r'.ss = r.ss
  mem : r'.mem = r.mem

lemma effect_addEsp {v : Word} :
    effect c r (.addEsp v) = { r with esp := r.esp + v, eflags := c.flags r.esp v } := rfl

lemma Restored.addEsp {f : Trapframe} {r' : Core} (h : ∀ g, g ≠ .esp → r'.reg g = f.reg g)
    (hs : ∀ g, r'.seg g = f.seg g) (he : r'.esp = r.esp + 48#32) (hcs : r'.cs = r.cs) (hss : r'.ss = r.ss)
    (hm : r'.mem = r.mem) : Restored f r (effect c r' (.addEsp 8#32)) where
  reg g hg := by
    rw [← h g hg]
    cases g with
    | esp => exact absurd rfl hg
    | _ => rfl
  seg g := by
    rw [← hs g]
    cases g <;> rfl
  esp := by
    rw [effect_addEsp, he]
    simp only [BitVec.add_assoc, BitVec.reduceAdd]
  cs := hcs
  ss := hss
  mem := hm

lemma restoresAll_restored {f : Trapframe} {pad : ℕ → BitVec 16} {outer : Bool}
    (h : Holds r.mem r.esp (f.words pad outer)) : Restored f r (block c restoresAll r) := by
  obtain ⟨e1, h1⟩ := pop_words (g := .edi) (by decide) h
  obtain ⟨e2, h2⟩ := pop_words (g := .esi) (by decide) h1
  obtain ⟨e3, h3⟩ := pop_words (g := .ebp) (by decide) h2
  have h4 := drop_words h3
  obtain ⟨e5, h5⟩ := pop_words (g := .ebx) (by decide) h4
  obtain ⟨e6, h6⟩ := pop_words (g := .edx) (by decide) h5
  obtain ⟨e7, h7⟩ := pop_words (g := .ecx) (by decide) h6
  obtain ⟨e8, h8⟩ := pop_words (g := .eax) (by decide) h7
  obtain ⟨e9, h9⟩ := popSel_words (g := .gs) h8
  obtain ⟨e10, h10⟩ := popSel_words (g := .fs) h9
  obtain ⟨e11, h11⟩ := popSel_words (g := .es) h10
  obtain ⟨e12, h12⟩ := popSel_words (g := .ds) h11
  have hall : block c restoresAll r =
      effect c (((((r.popal).popSel .gs).popSel .fs).popSel .es).popSel .ds) (.addEsp 8#32) := rfl
  rw [hall, Core.popal, e1, e2, e3, e5, e6, e7, e8, e9, e10, e11, e12]
  refine Restored.addEsp (fun g hg => ?_) (fun g => ?_) ?_ ?_ ?_ ?_
  · cases g with
    | esp => exact absurd rfl hg
    | _ => simp [Trapframe.reg]
  · cases g <;> simp [Trapframe.seg]
  · simp only [Core.esp_drop, Core.esp_setReg, Core.esp_setSeg, reduceCtorEq, if_false, BitVec.add_assoc, BitVec.reduceAdd]
  · simp
  · simp
  · simp

lemma InKernel.cpl (h : InKernel r) : r.cpl = 0 := by
  rw [Core.cpl, h.cs]
  rfl

lemma topSel_head {p v : BitVec 16} {ws : List Word} (h : Holds r.mem r.esp ((p ++ v) :: ws)) : r.topSel = v :=
  (congrArg (BitVec.setWidth 16) h.head).trans (low_sel p v)

/-- A return to an outer level takes the stack from the frame. -/
lemma iret_outer {f : Trapframe} {pad : ℕ → BitVec 16} (h : Holds r.mem r.esp (f.hardware pad true))
    (hl : r.cpl < level f.cs) :
    r.iret c = ⟨{ r with
      cs := f.cs, eflags := f.eflags, esp := f.esp, ss := f.ss, ds := Core.lower c f.cs r.ds,
      es := Core.lower c f.cs r.es, fs := Core.lower c f.cs r.fs, gs := Core.lower c f.cs r.gs }, f.eip⟩ := by
  have h0 : Holds r.mem r.esp [f.eip, pad 5 ++ f.cs, f.eflags, f.esp, pad 6 ++ f.ss] := h
  have h1 := drop_words h0
  have h2 := drop_words h1
  have h3 := drop_words h2
  have h4 := drop_words h3
  have t0 : r.top = f.eip := h0.head
  have t1 : r.drop.topSel = f.cs := topSel_head h1
  have t2 : r.drop.drop.top = f.eflags := h2.head
  have t3 : r.drop.drop.drop.top = f.esp := h3.head
  have t4 : r.drop.drop.drop.drop.topSel = f.ss := topSel_head h4
  simp only [Core.iret, t0, t1, t2, t3, t4, if_pos hl]
  rfl

/-- A return to the same level goes on just above the frame. -/
lemma iret_inner {f : Trapframe} {pad : ℕ → BitVec 16} (h : Holds r.mem r.esp (f.hardware pad false))
    (hl : ¬ r.cpl < level f.cs) :
    r.iret c = ⟨{ r with cs := f.cs, eflags := f.eflags, esp := r.esp + 4#32 + 4#32 + 4#32 }, f.eip⟩ := by
  have h0 : Holds r.mem r.esp [f.eip, pad 5 ++ f.cs, f.eflags] := h
  have h1 := drop_words h0
  have h2 := drop_words h1
  have t0 : r.top = f.eip := h0.head
  have t1 : r.drop.topSel = f.cs := topSel_head h1
  have t2 : r.drop.drop.top = f.eflags := h2.head
  simp only [Core.iret, t0, t1, t2, if_neg hl]
  rfl

/-- `trapret` takes up the state that the frame on the stack describes. -/
theorem trapret_resumes {f : Trapframe} {pad : ℕ → BitVec 16}
    (h : Holds r.mem r.esp (f.words pad (r.cpl < level f.cs))) :
    steps x c 7 ⟨r, x.addr .trapret 0⟩ = some ⟨f.resumed c r, f.eip⟩ := by
  have hblock : steps x c 6 ⟨r, x.addr .trapret 0⟩ = some ⟨block c restoresAll r, x.addr .trapret 6⟩ :=
    steps_block restoresAll rfl fun j hj => by
      rw [Nat.zero_add, asm, trapretCode]
      exact List.getElem?_append_left hj
  have hiret := step_at (x := x) (c := c) (r := block c restoresAll r) (l := .trapret) (k := 6) (i := .iret) rfl
  have hrun := steps_trans hblock hiret
  rw [hrun]
  have hr := restoresAll_restored (c := c) h
  generalize block c restoresAll r = r' at hr ⊢
  -- the processor's part of the frame is still on the stack
  have hw : Holds r'.mem r'.esp (f.hardware pad (r.cpl < level f.cs)) := by
    rw [Trapframe.words, holds_append] at h
    rw [hr.mem, hr.esp]
    exact h.2
  have hcpl : r'.cpl = r.cpl := by rw [Core.cpl, Core.cpl, hr.cs]
  have hex : exec x c .iret (x.addr .trapret 7) r' = r'.iret c := rfl
  rw [hex]
  have hseg := hr.seg
  by_cases hl : r.cpl < level f.cs
  · rw [decide_eq_true hl] at hw
    rw [iret_outer hw (by rwa [hcpl])]
    refine congrArg (fun q => some (State.mk q f.eip)) ?_
    refine Core.ext_reg (fun g => ?_) (fun g => ?_) rfl ?_ rfl hr.mem
    · have hreg := hr.reg g
      cases g with
      | esp => exact (if_pos hl).symm
      | _ => exact hreg Reg.noConfusion
    · cases g with
      | ds => exact (congrArg (Core.lower c f.cs) (hseg .ds)).trans (if_pos hl).symm
      | es => exact (congrArg (Core.lower c f.cs) (hseg .es)).trans (if_pos hl).symm
      | fs => exact (congrArg (Core.lower c f.cs) (hseg .fs)).trans (if_pos hl).symm
      | gs => exact (congrArg (Core.lower c f.cs) (hseg .gs)).trans (if_pos hl).symm
    · exact (if_pos hl).symm
  · rw [decide_eq_false hl] at hw
    rw [iret_inner hw (by rwa [hcpl])]
    refine congrArg (fun q => some (State.mk q f.eip)) ?_
    refine Core.ext_reg (fun g => ?_) (fun g => ?_) rfl ?_ rfl hr.mem
    · have hreg := hr.reg g
      cases g with
      | esp =>
        have hesp : r'.esp + 4#32 + 4#32 + 4#32 = r.esp + 68#32 := by
          rw [hr.esp]
          simp only [BitVec.add_assoc, BitVec.reduceAdd]
        exact hesp.trans (if_neg hl).symm
      | _ => exact hreg Reg.noConfusion
    · cases g with
      | ds => exact (hseg .ds).trans (if_neg hl).symm
      | es => exact (hseg .es).trans (if_neg hl).symm
      | fs => exact (hseg .fs).trans (if_neg hl).symm
      | gs => exact (hseg .gs).trans (if_neg hl).symm
    · exact hr.ss.trans (if_neg hl).symm

/-- From the return of `trap` on, the listing takes up the state that `trap` left in the frame. -/
theorem trap_returns {f f' : Trapframe} {pad pad' : ℕ → BitVec 16} (ht : InTrap x ts s f pad t) (hu : Returns t u)
    (hf : Holds u.core.mem (t.core.esp + 8#32) (f'.words pad' (0 < s.core.cpl))) (hl : level f'.cs = s.core.cpl) :
    ∃ r, r.mem = u.core.mem ∧ r.esp = t.core.esp + 8#32 ∧ r.ss = t.core.ss ∧ r.cpl = 0 ∧
      steps x c 8 u = some ⟨f'.resumed c r, f'.eip⟩ := by
  have heip : u = ⟨u.core, x.addr .alltraps 13⟩ := by
    have h : u.eip = x.addr .alltraps 13 := hu.eip.trans ht.pushed.holds.head
    rw [← h]
  have hadd := step_at (x := x) (c := c) (r := u.core) (l := .alltraps) (k := 13) (i := .addEsp 4#32) rfl
  rw [← heip] at hadd
  have hfall : x.addr .alltraps 14 = x.addr .trapret 0 := (x.falls 0).symm
  set r := effect c u.core (.addEsp 4#32) with hr
  have hcpl : r.cpl = 0 := by
    have h : r.cpl = u.core.cpl := rfl
    rw [h, Core.cpl, hu.cs]
    exact ht.kernel.cpl
  have hesp : r.esp = t.core.esp + 8#32 := by
    rw [hr, effect_addEsp, hu.esp]
    simp only [BitVec.add_assoc, BitVec.reduceAdd]
  have hw : Holds r.mem r.esp (f'.words pad' (r.cpl < level f'.cs)) := by
    rw [hesp, hcpl, hl]
    exact hf
  refine ⟨r, rfl, hesp, hu.ss, hcpl, ?_⟩
  have h1 : steps x c 1 u = some ⟨r, x.addr .trapret 0⟩ := by
    rw [hadd, ← hfall]
    rfl
  exact steps_trans h1 (trapret_resumes hw)

/-- No data segment of the running code is out of its reach; the processor loads no other. -/
def Core.Reaches (c : Processor) (r : Core) : Prop := ∀ g, ¬ c.dpl (r.seg g) < level r.cs

lemma lower_reach {v : BitVec 16} {sel : BitVec 16} (h : ¬ c.dpl sel < level v) : Core.lower c v sel = sel :=
  if_neg h

/-- The number of bytes that the way into `trap` takes on the stack. -/
def entrySize (r : Core) : ℕ := if 0 < r.cpl then 84 else 76

lemma words_length {f : Trapframe} {pad : ℕ → BitVec 16} {outer : Bool} :
    (f.words pad outer).length = if outer then 19 else 17 := by
  cases outer <;> rfl

lemma InTrap.frame_holds {f : Trapframe} {pad : ℕ → BitVec 16} (ht : InTrap x ts s f pad t) :
    Holds t.core.mem (t.core.esp + 8#32) (f.words pad (0 < s.core.cpl)) := by
  have h := ht.pushed.holds.tail.tail
  rwa [BitVec.add_assoc, show (4#32 + 4#32 : Word) = 8#32 from rfl] at h

lemma InTrap.span {f : Trapframe} {pad : ℕ → BitVec 16} (ht : InTrap x ts s f pad t) :
    t.core.esp + BitVec.ofNat 32 (entrySize s.core) = frameEnd ts s.core ∧
      Words.Frame (Within t.core.esp (entrySize s.core)) s.core.mem t.core.mem := by
  obtain ⟨-, h1, h2⟩ := ht.pushed
  have hlen : 4 * (x.addr .alltraps 13 :: (t.core.esp + 8#32) :: f.words pad (0 < s.core.cpl)).length =
      entrySize s.core := by
    simp only [List.length_cons, words_length, entrySize, decide_eq_true_eq]
    split_ifs <;> rfl
  rw [hlen] at h1 h2
  exact ⟨h1, h2⟩

/-- The frame of an interrupted state, as it was written, gives that state back. -/
lemma interrupted_resumed (e : Event) (oesp : Word) {m : ByteMem} (hseg : s.core.Reaches c) (hcpl : r.cpl = 0) (hm : r.mem = m)
    (hss : s.core.cpl = 0 → r.ss = s.core.ss) (hesp : s.core.cpl = 0 → r.esp + 68#32 = s.core.esp) :
    (interrupted s e oesp).resumed c r = { s.core with mem := m } := by
  by_cases hl : r.cpl < level s.core.cs
  · refine Core.ext_reg (fun g => ?_) (fun g => ?_) rfl (if_pos hl) rfl hm
    · cases g with
      | esp => exact if_pos hl
      | _ => rfl
    · have hg := lower_reach (hseg g)
      cases g <;> exact (if_pos hl).trans hg
  · have h0 : s.core.cpl = 0 := by
      rw [hcpl] at hl
      exact Nat.eq_zero_of_not_pos hl
    refine Core.ext_reg (fun g => ?_) (fun g => ?_) rfl ((if_neg hl).trans (hss h0)) rfl hm
    · cases g with
      | esp => exact (if_neg hl).trans (hesp h0)
      | _ => rfl
    · cases g <;> exact if_neg hl

/-- An interrupt is transparent: going into `trap` changes nothing but bytes of the stack below the interrupted
code, and if `trap` returns with the frame as it found it, the interrupted code goes on where it was, with the
registers, the stack and the level it had. -/
theorem interrupt_transparent (x : Text) (c : Processor) (ts : Tss) (s : State) (e : Event)
    (he : e.Proper s.core.cpl) (hseg : s.core.Reaches c) :
    ∃ n t, steps x c n (deliver (tvinit x) ts s e) = some t ∧ t.eip = x.addr .trap 0 ∧
      t.core.esp + BitVec.ofNat 32 (entrySize s.core) = frameEnd ts s.core ∧
      Words.Frame (Within t.core.esp (entrySize s.core)) s.core.mem t.core.mem ∧
      ∀ u, Returns t u → (∀ y, Within (t.core.esp + 8#32) 76 y → u.core.mem y = t.core.mem y) →
        ∃ m, steps x c m u =
          some ⟨{ s.core with mem := u.core.mem }, (e.actual (tvinit x) s.core.cpl).resumesAt s.eip⟩ := by
  obtain ⟨n, t, pad, oesp, hrun, ht, -⟩ := enters_trap x c ts s e he
  obtain ⟨hend, hframe⟩ := ht.span
  refine ⟨n, t, hrun, ht.eip, hend, hframe, fun u hu hkeep => ⟨8, ?_⟩⟩
  have hlen : 4 * ((interrupted s (e.actual (tvinit x) s.core.cpl) oesp).words pad (0 < s.core.cpl)).length ≤ 76 := by
    rw [words_length]
    split_ifs <;> decide
  have hf := ht.frame_holds.congr (by omega) fun y hy => hkeep y (lt_of_lt_of_le hy hlen)
  obtain ⟨r, hm, hesp, hss, hcpl, hback⟩ := trap_returns (c := c) ht hu hf rfl
  rw [hback, interrupted_resumed _ oesp hseg hcpl hm]
  · rfl
  · intro h0
    rw [hss, ht.ss h0]
  · intro h0
    have hsize : entrySize s.core = 76 := if_neg (by omega)
    have hstart : frameEnd ts s.core = s.core.esp := if_neg (by omega)
    rw [hsize, hstart] at hend
    rw [hesp, ← hend]
    simp only [BitVec.add_assoc, BitVec.reduceAdd]

lemma userProgram_reaches : userProgram.core.Reaches simpleProcessor := by
  intro g
  cases g <;> decide

theorem interrupt_transparent_timer : ∃ n t,
    steps linked simpleProcessor n (deliver (tvinit linked) simpleTss userProgram (.irq 32)) = some t ∧
    t.eip = linked.addr .trap 0 ∧
    t.core.esp + BitVec.ofNat 32 (entrySize userProgram.core) = frameEnd simpleTss userProgram.core ∧
    Words.Frame (Within t.core.esp (entrySize userProgram.core)) userProgram.core.mem t.core.mem ∧
    ∀ u, Returns t u → (∀ y, Within (t.core.esp + 8#32) 76 y → u.core.mem y = t.core.mem y) →
      ∃ m, steps linked simpleProcessor m u = some ⟨{ userProgram.core with mem := u.core.mem },
        (Event.actual (tvinit linked) userProgram.core.cpl (.irq 32)).resumesAt userProgram.eip⟩ :=
  interrupt_transparent linked simpleProcessor simpleTss userProgram (.irq 32) (by decide) userProgram_reaches

end Os132.Trap

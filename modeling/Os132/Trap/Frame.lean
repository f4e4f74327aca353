import Os132.Trap.Machine

/-!
# Trap frames

Straight-line code is run in one go (`steps_block`). What a sequence of pushes leaves is tracked by
`Pushed`: the words above the stack pointer, how far it went down, and that nothing else in memory
changed. The way into `trap` pushes exactly a `struct trapframe`, the way out takes one off.
-/

namespace Os132.Trap

open Words

variable {x : Text} {c : Processor} {s t u : State} {r r' : Core} {l : Label} {k n m : ℕ}

/-! ### Runs of straight-line code -/

lemma steps_add : steps x c (n + m) s = (steps x c n s).bind (steps x c m) := by
  induction n generalizing s with
  | zero => simp [steps]
  | succ n ih =>
    rw [Nat.add_right_comm, steps, steps]
    cases h : step x c s with
    | none => simp
    | some u => simp [ih]

lemma steps_trans (h : steps x c n s = some t) (h' : steps x c m t = some u) :
    steps x c (n + m) s = some u := by
  rw [steps_add, h]
  exact h'

lemma step_at {i : Instr} (hi : (asm l)[k]? = some i) :
    steps x c 1 ⟨r, x.addr l k⟩ = some (exec x c i (x.addr l (k + 1)) r) := by
  simp [steps, step, x.fetch_addr l k i hi]

/-- Whether an instruction goes on to the next one. -/
def Instr.straight : Instr → Bool
  | .jmp _ | .call _ | .ret | .iret => false
  | _ => true

lemma exec_straight {i : Instr} {next : Word} (hi : i.straight = true) :
    exec x c i next r = ⟨effect c r i, next⟩ := by
  cases i with
  | jmp l => exact absurd hi Bool.false_ne_true
  | call l => exact absurd hi Bool.false_ne_true
  | ret => exact absurd hi Bool.false_ne_true
  | iret => exact absurd hi Bool.false_ne_true
  | _ => rfl

/-- What straight-line code does, the instruction pointer aside. -/
def block (c : Processor) (is : List Instr) (r : Core) : Core := is.foldl (effect c) r

lemma steps_block (is : List Instr) (hs : is.all Instr.straight = true)
    (hi : ∀ j, j < is.length → (asm l)[k + j]? = is[j]?) :
    steps x c is.length ⟨r, x.addr l k⟩ = some ⟨block c is r, x.addr l (k + is.length)⟩ := by
  induction is generalizing r k with
  | nil => rfl
  | cons i is ih =>
    rw [List.all_cons, Bool.and_eq_true] at hs
    have h0 : (asm l)[k]? = some i := by simpa using hi 0 (by simp)
    have h1 := step_at (x := x) (c := c) (r := r) h0
    rw [exec_straight hs.1] at h1
    have h2 := ih (r := effect c r i) (k := k + 1) hs.2 fun j hj => by
      have := hi (j + 1) (by simpa using hj)
      rwa [List.getElem?_cons_succ, ← Nat.add_assoc, Nat.add_right_comm] at this
    have h := steps_trans h1 h2
    rw [List.length_cons, Nat.add_comm is.length 1, ← Nat.add_assoc]
    exact h

/-! ### Pushes -/

/-- Since memory `m`, exactly the words `ws` were pushed from `b` down. -/
structure Pushed (m : ByteMem) (b : Word) (ws : List Word) (r : Core) : Prop where
  holds : Holds r.mem r.esp ws
  esp : r.esp + BitVec.ofNat 32 (4 * ws.length) = b
  frame : Words.Frame (Within r.esp (4 * ws.length)) m r.mem

section
variable {m₀ : ByteMem} {b v : Word} {ws : List Word}

lemma pushed_nil : Pushed r.mem r.esp [] r :=
  ⟨trivial, by simp, Frame.refl⟩

lemma Pushed.of_eq (h : Pushed m₀ b ws r) (hm : r'.mem = r.mem) (he : r'.esp = r.esp) :
    Pushed m₀ b ws r' := by
  obtain ⟨h1, h2, h3⟩ := h
  exact ⟨by rwa [hm, he], by rwa [he], by rwa [hm, he]⟩

lemma Pushed.push (h : Pushed m₀ b ws r) (hn : ws.length < 100) : Pushed m₀ b (v :: ws) (r.push v) := by
  refine ⟨h.holds.push (by omega), ?_, ?_⟩
  · rw [← h.esp]
    simp only [Core.push, List.length_cons]
    apply BitVec.eq_of_toNat_eq
    simp only [BitVec.toNat_add, BitVec.toNat_sub, BitVec.toNat_ofNat]
    omega
  · have htail : ∀ y, Within r.esp (4 * ws.length) y → Within (r.push v).esp (4 * (v :: ws).length) y := by
      intro y hy
      simp only [Core.push, List.length_cons, Nat.mul_add]
      refine within_tail (by omega) ?_
      rwa [BitVec.sub_add_cancel]
    refine (h.frame.mono htail).trans (store_frame.mono fun y hy => ?_)
    exact within_head (by simp only [List.length_cons]; omega) hy

lemma Pushed.pushSel {g : BitVec 16} (h : Pushed m₀ b ws r) (hn : ws.length < 100) :
    ∃ p : BitVec 16, Pushed m₀ b ((p ++ g) :: ws) (r.pushSel g) :=
  ⟨_, h.push hn⟩

end

/-! ### The frame -/

/-- The fields of a `struct trapframe`, the padding aside. -/
structure Trapframe where
  edi : Word
  esi : Word
  ebp : Word
  oesp : Word
  ebx : Word
  edx : Word
  ecx : Word
  eax : Word
  gs : BitVec 16
  fs : BitVec 16
  es : BitVec 16
  ds : BitVec 16
  trapno : Word
  err : Word
  eip : Word
  cs : BitVec 16
  eflags : Word
  esp : Word
  ss : BitVec 16

namespace Trapframe

/-- The part that the processor writes; the last two words only when the level changes. -/
def hardware (f : Trapframe) (pad : ℕ → BitVec 16) (outer : Bool) : List Word :=
  [f.eip, pad 5 ++ f.cs, f.eflags] ++ if outer then [f.esp, pad 6 ++ f.ss] else []

/-- The frame in memory; a selector shares its word with a padding field. -/
def words (f : Trapframe) (pad : ℕ → BitVec 16) (outer : Bool) : List Word :=
  [f.edi, f.esi, f.ebp, f.oesp, f.ebx, f.edx, f.ecx, f.eax,
    pad 1 ++ f.gs, pad 2 ++ f.fs, pad 3 ++ f.es, pad 4 ++ f.ds, f.trapno, f.err] ++ f.hardware pad outer

lemma hardware_length {f : Trapframe} {pad : ℕ → BitVec 16} {outer : Bool} :
    (f.hardware pad outer).length = if outer then 5 else 3 := by
  cases outer <;> rfl

end Trapframe

/-- The frame that an event makes of the interrupted state. -/
def interrupted (s : State) (e : Event) (oesp : Word) : Trapframe where
  edi := s.core.edi
  esi := s.core.esi
  ebp := s.core.ebp
  oesp := oesp
  ebx := s.core.ebx
  edx := s.core.edx
  ecx := s.core.ecx
  eax := s.core.eax
  gs := s.core.gs
  fs := s.core.fs
  es := s.core.es
  ds := s.core.ds
  trapno := BitVec.ofNat 32 e.number
  err := e.code.getD 0#32
  eip := e.resumesAt s.eip
  cs := s.core.cs
  eflags := s.core.eflags
  esp := s.core.esp
  ss := s.core.ss

/-! ### Into `trap` -/

lemma tvinit_dpl (i : Fin 256) : (tvinit x i).dpl.toNat = if i = T_SYSCALL then 3 else 0 := by
  unfold tvinit
  by_cases h : i = T_SYSCALL
  · subst h
    rw [Function.update_self, if_pos rfl]
    rfl
  · rw [Function.update_of_ne h, if_neg h]
    rfl

lemma SETGATE_off {istrap : Bool} {sel : BitVec 16} {off : Word} {d : ℕ} :
    (SETGATE istrap sel off d).off = off := by
  have h : off.setWidth 16 = off.extractLsb' 0 16 := by simp [BitVec.setWidth_eq_extractLsb']
  simp only [Gatedesc.off, SETGATE, h]
  rw [BitVec.extractLsb'_append_extractLsb'_eq_extractLsb' (by rfl)]
  exact BitVec.extractLsb'_eq_self

lemma tvinit_off (i : Fin 256) : (tvinit x i).off = x.addr (.vector i) 0 := by
  unfold tvinit
  by_cases h : i = T_SYSCALL
  · subst h
    rw [Function.update_self, SETGATE_off]
  · rw [Function.update_of_ne h, SETGATE_off]

lemma tvinit_cs (i : Fin 256) : (tvinit x i).cs = selector SEG_KCODE 0 := by
  unfold tvinit
  by_cases h : i = T_SYSCALL
  · subst h
    rw [Function.update_self]
    rfl
  · rw [Function.update_of_ne h]
    rfl

lemma pushesError_of_le (i : Fin 256) (h : 32 ≤ i.val) : pushesError i = false := by
  simp only [pushesError, Bool.or_eq_false_iff, Bool.and_eq_false_iff, beq_eq_false_iff_ne, decide_eq_false_iff_not]
  omega

lemma mem_faultsWithCode (i : Fin 256) : i.val ∈ Event.faultsWithCode ↔ pushesError i = true := by
  simp only [Event.faultsWithCode, pushesError, List.mem_cons, List.not_mem_nil, or_false, Bool.or_eq_true,
    Bool.and_eq_true, beq_iff_eq, decide_eq_true_eq]
  omega

/-- The gates make the processor push a code exactly where the entry point does not. -/
lemma code_isSome {e : Event} {cpl : ℕ} (he : e.Proper cpl) :
    ((e.actual (tvinit x) cpl).code).isSome = pushesError (e.actual (tvinit x) cpl).number := by
  cases e with
  | irq i =>
    have hi := pushesError_of_le i he
    simp [Event.actual, Event.code, Event.number, hi]
  | exception i err =>
    have hmem := mem_faultsWithCode i
    cases h : pushesError i <;> simp [Event.actual, Event.code, Event.number, hmem, h]
  | int i next =>
    have hc : cpl = 3 := he
    subst hc
    simp only [Event.actual, Event.denied, tvinit_dpl]
    by_cases h : i = T_SYSCALL
    · subst h
      rfl
    · simp only [if_neg h]
      rfl

/-- Where the frame of an event ends: on the task state's stack from user mode. -/
def frameEnd (ts : Tss) (r : Core) : Word := if 0 < r.cpl then ts.esp0 else r.esp

lemma Pushed.onKernel (ts : Tss) : ∃ p : BitVec 16,
    Pushed r.mem (frameEnd ts r) (if 0 < r.cpl then [r.esp, p ++ r.ss] else []) (r.onKernel ts) := by
  unfold frameEnd Core.onKernel
  split_ifs with h
  · have h0 : Pushed r.mem ts.esp0 [] { r with esp := ts.esp0, ss := ts.ss0 } :=
      pushed_nil (r := { r with esp := ts.esp0, ss := ts.ss0 })
    obtain ⟨p, h1⟩ := h0.pushSel (g := r.ss) (by simp)
    exact ⟨p, h1.push (by simp)⟩
  · exact ⟨0, pushed_nil⟩

lemma onKernel_keeps (ts : Tss) : (r.onKernel ts).eflags = r.eflags ∧ (r.onKernel ts).cs = r.cs := by
  unfold Core.onKernel
  split_ifs <;> exact ⟨rfl, rfl⟩

/-- The registers that no gate and no entry point touches. -/
structure Same (r r' : Core) : Prop where
  general : r'.eax = r.eax ∧ r'.ecx = r.ecx ∧ r'.edx = r.edx ∧ r'.ebx = r.ebx ∧
    r'.ebp = r.ebp ∧ r'.esi = r.esi ∧ r'.edi = r.edi
  segments : r'.ds = r.ds ∧ r'.es = r.es ∧ r'.fs = r.fs ∧ r'.gs = r.gs
  ss : r.cpl = 0 → r'.ss = r.ss

lemma Same.refl : Same r r := ⟨⟨rfl, rfl, rfl, rfl, rfl, rfl, rfl⟩, ⟨rfl, rfl, rfl, rfl⟩, fun _ => rfl⟩

lemma Same.onKernel {ts : Tss} : Same r (r.onKernel ts) := by
  unfold Core.onKernel
  split_ifs with hl
  · exact ⟨⟨rfl, rfl, rfl, rfl, rfl, rfl, rfl⟩, ⟨rfl, rfl, rfl, rfl⟩, fun h0 => absurd h0 (by omega)⟩
  · exact Same.refl

lemma Same.push {v : Word} (h : Same r r') : Same r (r'.push v) := ⟨h.general, h.segments, h.ss⟩

/-- The words that the processor pushes for an event, a code among them or not. -/
lemma pushes_words (ts : Tss) (eip : Word) (err : Option Word) {f : Trapframe} (heip : f.eip = eip)
    (hcs : f.cs = r.cs) (hfl : f.eflags = r.eflags) (hesp : f.esp = r.esp) (hss : f.ss = r.ss) :
    ∃ pad, Pushed r.mem (frameEnd ts r) (err.toList ++ f.hardware pad (0 < r.cpl)) (r.pushes ts eip err) ∧
      Same r (r.pushes ts eip err) := by
  obtain ⟨p6, h0⟩ := Pushed.onKernel (r := r) ts
  obtain ⟨hfl', hcs'⟩ := onKernel_keeps (r := r) ts
  have hlen : (if 0 < r.cpl then [r.esp, p6 ++ r.ss] else []).length ≤ 2 := by
    split_ifs <;> simp
  have h1 := h0.push (v := (r.onKernel ts).eflags) (by omega)
  obtain ⟨p5, h2⟩ := h1.pushSel (g := (r.onKernel ts).cs) (by simp only [List.length_cons]; omega)
  have h3 := h2.push (v := eip) (by simp only [List.length_cons]; omega)
  have hsame : Same r (((r.onKernel ts).push (r.onKernel ts).eflags).pushSel (r.onKernel ts).cs |>.push eip) :=
    ((Same.onKernel.push).push).push
  refine ⟨fun i => if i = 5 then p5 else p6, ?_⟩
  have hwords : f.hardware (fun i => if i = 5 then p5 else p6) (0 < r.cpl) =
      eip :: (p5 ++ (r.onKernel ts).cs) :: (r.onKernel ts).eflags :: if 0 < r.cpl then [r.esp, p6 ++ r.ss] else [] := by
    simp [Trapframe.hardware, heip, hcs, hfl, hesp, hss, hfl', hcs']
  rw [hwords]
  rw [hcs', hfl'] at h3 hsame ⊢
  unfold Core.pushes
  cases err with
  | none => exact ⟨h3, hsame⟩
  | some v => exact ⟨h3.push (by simp only [List.length_cons]; omega), hsame.push⟩

/-- An entry point puts the number of the vector and a code on the stack, its own where the
processor has pushed none. -/
lemma vector_runs {m₀ : ByteMem} {b : Word} {ws : List Word} {i : Fin 256} {err : Option Word}
    (herr : err.isSome = pushesError i) (h : Pushed m₀ b (err.toList ++ ws) r) (hn : ws.length < 90) :
    ∃ n r', steps x c n ⟨r, x.addr (.vector i) 0⟩ = some ⟨r', x.addr .alltraps 0⟩ ∧
      Pushed m₀ b (BitVec.ofNat 32 i :: err.getD 0#32 :: ws) r' ∧ Same r r' ∧ r'.cs = r.cs := by
  cases err with
  | none =>
    have hi : asm (.vector i) = [.pushImm 0#32, .pushImm (BitVec.ofNat 32 i), .jmp .alltraps] := by
      simp only [asm, vectorCode, ← herr]
      rfl
    have h1 : steps x c 2 ⟨r, x.addr (.vector i) 0⟩ = _ :=
      steps_block [.pushImm 0#32, .pushImm (BitVec.ofNat 32 i)] rfl fun j hj => by
        rw [hi]
        match j, hj with
        | 0, _ => rfl
        | 1, _ => rfl
    have h2 := step_at (x := x) (c := c) (r := (r.push 0#32).push (BitVec.ofNat 32 i)) (l := .vector i) (k := 2)
      (i := .jmp .alltraps) (by rw [hi]; rfl)
    exact ⟨_, _, steps_trans h1 h2, (h.push (by simpa using hn.trans (by decide))).push (by simp; omega), Same.refl.push.push, rfl⟩
  | some v =>
    have hi : asm (.vector i) = [.pushImm (BitVec.ofNat 32 i), .jmp .alltraps] := by
      simp only [asm, vectorCode, ← herr]
      rfl
    have h1 := step_at (x := x) (c := c) (r := r) (l := .vector i) (k := 0)
      (i := .pushImm (BitVec.ofNat 32 i)) (by rw [hi]; rfl)
    have h2 := step_at (x := x) (c := c) (r := r.push (BitVec.ofNat 32 i)) (l := .vector i) (k := 1)
      (i := .jmp .alltraps) (by rw [hi]; rfl)
    exact ⟨_, _, steps_trans h1 h2, h.push (by simp; omega), Same.refl.push, rfl⟩

/-- The kernel's selectors are loaded. -/
structure InKernel (r : Core) : Prop where
  cs : r.cs = selector SEG_KCODE 0
  ds : r.ds = selector SEG_KDATA 0
  es : r.es = selector SEG_KDATA 0
  fs : r.fs = selector SEG_KCPU 0
  gs : r.gs = selector SEG_KCPU 0

lemma InKernel.push {v : Word} (h : InKernel r) : InKernel (r.push v) := ⟨h.cs, h.ds, h.es, h.fs, h.gs⟩

lemma low_sel (p v : BitVec 16) : (show Word from p ++ v).setWidth 16 = v :=
  BitVec.setWidth_append_eq_right

lemma kernelSegments_eq : ∃ r₁ : Core, block c kernelSegments r = r₁.push r₁.esp ∧ r₁.mem = r.mem ∧ r₁.esp = r.esp ∧
    r₁.ss = r.ss ∧ (r.cs = selector SEG_KCODE 0 → InKernel (r₁.push r₁.esp)) := by
  exact ⟨block c (kernelSegments.take 6) r, rfl, rfl, rfl, rfl, fun hcs =>
    ⟨hcs, low_sel _ _, low_sel _ _, low_sel _ _, low_sel _ _⟩⟩

/-- `alltraps` saves the registers above the numbers and calls `trap` with the address of the frame. -/
lemma alltraps_runs {m₀ : ByteMem} {b : Word} {ws : List Word} (h : Pushed m₀ b ws r) (hn : ws.length < 80)
    (hcs : r.cs = selector SEG_KCODE 0) :
    ∃ (r' : Core) (pad : ℕ → BitVec 16) (oesp : Word),
      steps x c 13 ⟨r, x.addr .alltraps 0⟩ = some ⟨r', x.addr .trap 0⟩ ∧
      Pushed m₀ b (x.addr .alltraps 13 :: (r'.esp + 8#32) ::
        [r.edi, r.esi, r.ebp, oesp, r.ebx, r.edx, r.ecx, r.eax,
          pad 1 ++ r.gs, pad 2 ++ r.fs, pad 3 ++ r.es, pad 4 ++ r.ds] ++ ws) r' ∧ InKernel r' ∧ r'.ss = r.ss := by
  have hblock : steps x c 12 ⟨r, x.addr .alltraps 0⟩ =
      some ⟨block c (savesAll ++ kernelSegments) r, x.addr .alltraps 12⟩ :=
    steps_block (savesAll ++ kernelSegments) rfl fun j hj => by
      rw [Nat.zero_add, asm, alltrapsCode, beforeTrapret, List.append_assoc (savesAll ++ kernelSegments)]
      exact List.getElem?_append_left hj
  obtain ⟨p4, h4⟩ := h.pushSel (g := r.ds) (by omega)
  obtain ⟨p3, h3⟩ := h4.pushSel (g := r.es) (by simp only [List.length_cons]; omega)
  obtain ⟨p2, h2⟩ := h3.pushSel (g := r.fs) (by simp only [List.length_cons]; omega)
  obtain ⟨p1, h1⟩ := h2.pushSel (g := r.gs) (by simp only [List.length_cons]; omega)
  set r₁ := (((r.pushSel r.ds).pushSel r.es).pushSel r.fs).pushSel r.gs with hr₁
  have hregs := ((((((((h1.push (v := r.eax) (by simp only [List.length_cons]; omega)).push (v := r.ecx)
    (by simp only [List.length_cons]; omega)).push (v := r.edx) (by simp only [List.length_cons]; omega)).push (v := r.ebx)
    (by simp only [List.length_cons]; omega)).push (v := r₁.esp) (by simp only [List.length_cons]; omega)).push (v := r.ebp)
    (by simp only [List.length_cons]; omega)).push (v := r.esi) (by simp only [List.length_cons]; omega)).push (v := r.edi)
    (by simp only [List.length_cons]; omega))
  obtain ⟨r₂, hr₂, hm, he, hss, hk⟩ := kernelSegments_eq (c := c) (r := r₁.pushal)
  have hfr := (((hregs.of_eq hm he).push (v := r₂.esp) (by simp only [List.length_cons]; omega)).push
    (v := x.addr .alltraps 13) (by simp only [List.length_cons]; omega))
  have hall : block c (savesAll ++ kernelSegments) r = r₂.push r₂.esp := by
    rw [block, List.foldl_append]
    exact hr₂
  have hcall := step_at (x := x) (c := c) (r := r₂.push r₂.esp) (l := .alltraps) (k := 12) (i := .call .trap) rfl
  rw [hall] at hblock
  refine ⟨(r₂.push r₂.esp).push (x.addr .alltraps 13),
    fun i => if i = 1 then p1 else if i = 2 then p2 else if i = 3 then p3 else p4, r₁.esp,
    steps_trans hblock hcall, ?_, ?_, ?_⟩
  · have hesp : ((r₂.push r₂.esp).push (x.addr .alltraps 13)).esp + 8#32 = r₂.esp := by
      simp only [Core.push]
      apply BitVec.eq_of_toNat_eq
      simp only [BitVec.toNat_add, BitVec.toNat_sub, BitVec.toNat_ofNat]
      omega
    rw [hesp]
    simpa using hfr
  · have hcs₁ : r₁.pushal.cs = selector SEG_KCODE 0 := by
      rw [hr₁]
      simpa using hcs
    exact (hk hcs₁).push
  · rw [Core.push_ss, Core.push_ss, hss, hr₁]
    simp only [Core.pushal_ss, Core.pushSel_ss]

end Os132.Trap

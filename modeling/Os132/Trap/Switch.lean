import Os132.Lib.Run
import Os132.Trap.Round

/-!
# Context switches

`swtch` saves the registers that a C function must keep on the stack of the thread that calls it,
leaves the address of what it saved in the thread's slot (`proc->context` or `cpu->scheduler`) and
takes up what the other thread saved. Threads have stacks of their own, and none writes to the
stack of another or to the slots. So however often the processor is handed around in between, the
call of `swtch` returns to its caller as any call does.
-/

namespace Os132.Trap

open Words

variable {x : Text} {c : Processor} {r r' : Core} {old new ret : Word}

/-- A `struct context`: what `swtch` saves, with the address to which it returns. -/
structure Context where
  edi : Word
  esi : Word
  ebx : Word
  ebp : Word
  eip : Word
  deriving DecidableEq

def Context.words (k : Context) : List Word := [k.edi, k.esi, k.ebx, k.ebp, k.eip]

lemma Context.words_length {k : Context} : k.words.length = 5 := rfl

/-- The context that a call of `swtch` from `r` saves. -/
def Core.context (r : Core) : Context := ⟨r.edi, r.esi, r.ebx, r.ebp, r.top⟩

/-- After the arguments are fetched and the registers saved. -/
def saved (r : Core) : Core :=
  (((((r.setReg (load r.mem (r.esp + 4#32)) .eax).setReg (load r.mem (r.esp + 8#32)) .edx).push r.ebp).push r.ebx).push
    r.esi).push r.edi

/-- After the switch to the other stack. -/
def switched (r : Core) : Core :=
  ({ saved r with mem := store (saved r).mem (load r.mem (r.esp + 4#32)) (r.esp - 16#32) }).setReg
    (load r.mem (r.esp + 8#32)) .esp

lemma sub_four (a : Word) : a - 4#32 - 4#32 - 4#32 - 4#32 = a - 16#32 := by
  simp only [BitVec.sub_eq_add_neg, BitVec.add_assoc]
  exact congrArg (a + ·) (by decide)

lemma saved_esp : (saved r).esp = r.esp - 16#32 := by
  simp only [saved, Core.esp_push, Core.esp_setReg, reduceCtorEq, if_false, sub_four]

lemma saved_words {ws : List Word} (h : Holds r.mem r.esp (ret :: ws)) (hn : ws.length < 10) :
    Holds (saved r).mem (r.esp - 16#32) (r.context.words ++ ws) := by
  have hret : r.top = ret := h.head
  have h0 : Holds ((r.setReg (load r.mem (r.esp + 4#32)) .eax).setReg (load r.mem (r.esp + 8#32)) .edx).mem
      ((r.setReg (load r.mem (r.esp + 4#32)) .eax).setReg (load r.mem (r.esp + 8#32)) .edx).esp (ret :: ws) := h
  have h1 := (((h0.push (v := r.ebp) (by simp only [List.length_cons]; omega)).push (v := r.ebx) (by simp only [List.length_cons]; omega)).push
    (v := r.esi) (by simp only [List.length_cons]; omega)).push (v := r.edi) (by simp only [List.length_cons]; omega)
  rw [← saved_esp, Context.words, Core.context, hret]
  exact h1

lemma saved_frame : Words.Frame (Within (r.esp - 16#32) 16) r.mem (saved r).mem := by
  have h0 : Pushed r.mem r.esp [] ((r.setReg (load r.mem (r.esp + 4#32)) .eax).setReg (load r.mem (r.esp + 8#32)) .edx) :=
    pushed_nil (r := (r.setReg (load r.mem (r.esp + 4#32)) .eax).setReg (load r.mem (r.esp + 8#32)) .edx)
  have h1 := (((h0.push (v := r.ebp) (by decide)).push (v := r.ebx) (by simp)).push (v := r.esi) (by simp)).push
    (v := r.edi) (by simp)
  have h2 := h1.frame
  rw [show (((((r.setReg (load r.mem (r.esp + 4#32)) .eax).setReg (load r.mem (r.esp + 8#32)) .edx).push r.ebp).push
    r.ebx).push r.esi).push r.edi = saved r from rfl, saved_esp] at h2
  exact h2

lemma block_swtch : block c (swtchCode.take 12) r = ((((switched r).pop .edi).pop .esi).pop .ebx).pop .ebp := by
  have h : block c (swtchCode.take 8) r = switched r := by
    have h1 : block c (swtchCode.take 6) r = saved r := rfl
    have h2 : block c (swtchCode.take 8) r =
        effect c (effect c (block c (swtchCode.take 6) r) (.movlTo .eax)) (.movl .edx .esp) := rfl
    have heax : (saved r).reg .eax = load r.mem (r.esp + 4#32) := by simp [saved]
    have hedx : (saved r).reg .edx = load r.mem (r.esp + 8#32) := by simp [saved]
    rw [h2, h1, switched, ← heax, ← hedx, ← saved_esp]
    rfl
  have h3 : block c (swtchCode.take 12) r =
      ((((block c (swtchCode.take 8) r).pop .edi).pop .esi).pop .ebx).pop .ebp := rfl
  rw [h3, h]

/-- One run of `swtch`, whatever it takes up. -/
lemma swtch_steps : ∃ t, steps x c 13 ⟨r, x.addr .swtch 0⟩ = some t ∧
    t.core.mem = store (saved r).mem (load r.mem (r.esp + 4#32)) (r.esp - 16#32) ∧
    t = ⟨(((((switched r).pop .edi).pop .esi).pop .ebx).pop .ebp).drop,
      (((((switched r).pop .edi).pop .esi).pop .ebx).pop .ebp).top⟩ := by
  have hblock : steps x c 12 ⟨r, x.addr .swtch 0⟩ = some ⟨block c (swtchCode.take 12) r, x.addr .swtch 12⟩ :=
    steps_block (swtchCode.take 12) rfl fun j hj => by
      rw [Nat.zero_add]
      exact (List.getElem?_take_of_lt hj).symm
  have hret := step_at (x := x) (c := c) (r := block c (swtchCode.take 12) r) (l := .swtch) (k := 12) (i := .ret) rfl
  have hrun := steps_trans hblock hret
  rw [block_swtch] at hrun
  refine ⟨_, hrun, ?_, rfl⟩
  simp [exec, Core.pop, switched]

/-- Two stretches of memory have no byte in common. -/
def Apart (a : Word) (n : ℕ) (b : Word) (m : ℕ) : Prop := ∀ y, Within a n y → ¬ Within b m y

lemma swtch_frame {m : ByteMem} (hm : m = store (saved r).mem old (r.esp - 16#32)) :
    Words.Frame (fun y => Within (r.esp - 16#32) 16 y ∨ Within old 4 y) r.mem m := by
  rw [hm]
  exact (saved_frame.mono fun _ => Or.inl).trans (store_frame.mono fun _ => Or.inr)

lemma swtch_saves {m : ByteMem} {rest : List Word} (hm : m = store (saved r).mem old (r.esp - 16#32))
    (h : Holds r.mem r.esp (ret :: rest)) (hrest : rest.length < 10) (hsp : Apart (r.esp - 16#32) 20 old 4) :
    Holds m (r.esp - 16#32) r.context.words ∧ load m old = r.esp - 16#32 := by
  rw [hm]
  have hw := saved_words h hrest
  rw [holds_append] at hw
  refine ⟨hw.1.frame store_frame (by rw [Context.words_length]; decide) fun y hy => hsp y hy, load_store_same⟩

/-- A call `swtch(old, new)` saves its own context, leaves its address in `*old`, and takes up the context at
`new`: its registers, its stack and its return address. -/
theorem swtch_runs {k : Context} {rest : List Word} (h : Holds r.mem r.esp (ret :: old :: new :: rest))
    (hk : Holds r.mem new k.words) (hsave : Apart new 20 (r.esp - 16#32) 16) (hold : Apart new 20 old 4) :
    ∃ t, steps x c 13 ⟨r, x.addr .swtch 0⟩ = some t ∧ t.eip = k.eip ∧ t.core.esp = new + 20#32 ∧
      t.core.edi = k.edi ∧ t.core.esi = k.esi ∧ t.core.ebx = k.ebx ∧ t.core.ebp = k.ebp ∧
      t.core.mem = store (saved r).mem old (r.esp - 16#32) := by
  have harg : load r.mem (r.esp + 4#32) = old := h.tail.head
  have hnew : load r.mem (r.esp + 8#32) = new := by
    have h2 := h.tail.tail.head
    rwa [BitVec.add_assoc, show (4#32 + 4#32 : Word) = 8#32 from rfl] at h2
  obtain ⟨t, hrun, hmem, ht⟩ := swtch_steps (x := x) (c := c) (r := r)
  rw [harg] at hmem
  have hm : (switched r).mem = t.core.mem := by
    rw [ht]
    simp [Core.pop]
  have hesp : (switched r).esp = new := by
    rw [switched, hnew]
    rfl
  have hctx : Holds (switched r).mem (switched r).esp k.words := by
    rw [hm, hesp]
    refine hk.frame (swtch_frame hmem) (by rw [Context.words_length]; decide) fun y hy => ?_
    rintro (hy' | hy')
    · exact hsave y hy hy'
    · exact hold y hy hy'
  obtain ⟨e1, h1⟩ := pop_words (g := .edi) (by decide) hctx
  obtain ⟨e2, h2⟩ := pop_words (g := .esi) (by decide) h1
  obtain ⟨e3, h3⟩ := pop_words (g := .ebx) (by decide) h2
  obtain ⟨e4, h4⟩ := pop_words (g := .ebp) (by decide) h3
  rw [e1, e2, e3, e4] at ht
  refine ⟨t, hrun, ?_, ?_, ?_, ?_, ?_, ?_, hmem⟩
  · rw [ht]
    exact h4.head
  · rw [ht, ← hesp]
    simp only [Core.esp_drop, Core.esp_setReg, reduceCtorEq, if_false, BitVec.add_assoc, BitVec.reduceAdd]
  · change t.core.reg .edi = k.edi
    rw [ht]
    simp
  · change t.core.reg .esi = k.esi
    rw [ht]
    simp
  · change t.core.reg .ebx = k.ebx
    rw [ht]
    simp
  · change t.core.reg .ebp = k.ebp
    rw [ht]
    simp

/-! ### Threads -/

variable {T : Type} {n : ℕ}

/-- Each thread has a stack and a slot for the address of its context, all apart from each other. -/
structure Stacks (T : Type) where
  slot : T → Word
  stack : T → Word → Prop
  stacks_apart : ∀ t u, t ≠ u → ∀ y, stack t y → ¬ stack u y
  slots_apart : ∀ t u, t ≠ u → Apart (slot t) 4 (slot u) 4
  slot_outside : ∀ t u y, Within (slot t) 4 y → ¬ stack u y

/-- The processor and the thread that it runs. -/
structure System (T : Type) where
  current : T
  cpu : State

inductive Turn (T : Type) where
  /-- The running thread goes on to a state. -/
  | run (s : State)
  /-- The running thread calls `swtch` for another. -/
  | switch (u : T)

/-- A thread may write everywhere but to the stacks and slots of the others. -/
def Stacks.Minds (K : Stacks T) (t : T) (m m' : ByteMem) : Prop :=
  ∀ u, u ≠ t → ∀ y, K.stack u y ∨ Within (K.slot u) 4 y → m' y = m y

/-- `swtch(&slot, other)` is called: its arguments and 16 free bytes lie on the caller's stack. -/
structure Stacks.Calls (K : Stacks T) (t u : T) (r : Core) : Prop where
  args : Holds r.mem r.esp [r.top, K.slot t, load r.mem (K.slot u)]
  room : ∀ y, Within (r.esp - 16#32) 28 y → K.stack t y

open Classical in
noncomputable def System.step (x : Text) (c : Processor) (K : Stacks T) : Turn T → System T → Option (System T)
  | .run s', s => if K.Minds s.current s.cpu.core.mem s'.core.mem then some ⟨s.current, s'⟩ else none
  | .switch u, s =>
    if u ≠ s.current ∧ s.cpu.eip = x.addr .swtch 0 ∧ K.Calls s.current u s.cpu.core then
      (steps x c 13 s.cpu).map fun t => ⟨u, t⟩
    else none

variable {K : Stacks T} {s s' : System T} {t u v : T}

lemma switch_step (h : System.step x c K (.switch v) s = some s') :
    v ≠ s.current ∧ s.cpu = ⟨s.cpu.core, x.addr .swtch 0⟩ ∧ K.Calls s.current v s.cpu.core ∧
      s'.current = v ∧ steps x c 13 ⟨s.cpu.core, x.addr .swtch 0⟩ = some s'.cpu := by
  simp only [System.step] at h
  split_ifs at h with hc
  obtain ⟨hv, heip, hcall⟩ := hc
  have hs : s.cpu = ⟨s.cpu.core, x.addr .swtch 0⟩ := by rw [← heip]
  obtain ⟨t, ht, hs'⟩ := Option.map_eq_some_iff.1 h
  subst hs'
  exact ⟨hv, hs, hcall, rfl, hs ▸ ht⟩

lemma switch_taken {q : State} (hu : u ≠ t) (heip : s.cpu.eip = x.addr .swtch 0) (ht : s.current = t)
    (hcall : K.Calls t u s.cpu.core) (hrun : steps x c 13 s.cpu = some q) :
    System.step x c K (.switch u) s = some ⟨u, q⟩ := by
  subst ht
  simp only [System.step]
  rw [if_pos ⟨hu, heip, hcall⟩, hrun]
  rfl

lemma switch_mem {r : Core} {q : State} (hcall : K.Calls t v r) (hrun : steps x c 13 ⟨r, x.addr .swtch 0⟩ = some q) :
    q.core.mem = store (saved r).mem (K.slot t) (r.esp - 16#32) := by
  obtain ⟨q', hq', hmem, -⟩ := swtch_steps (x := x) (c := c) (r := r)
  have harg : load r.mem (r.esp + 4#32) = K.slot t := hcall.args.tail.head
  rw [hrun] at hq'
  obtain rfl := Option.some.inj hq'
  rwa [harg] at hmem

/-- No step of another thread touches the stack or the slot of a thread. -/
lemma step_minds {e : Turn T} (h : System.step x c K e s = some s') : K.Minds s.current s.cpu.core.mem s'.cpu.core.mem := by
  cases e with
  | run q =>
    simp only [System.step] at h
    split_ifs at h with hc
    obtain rfl := Option.some.inj h
    exact hc
  | switch v =>
    obtain ⟨-, -, hcall, -, hrun⟩ := switch_step h
    intro u hu y hy
    refine swtch_frame (switch_mem hcall hrun) y ?_
    rintro (hs | hs)
    · have hst := hcall.room y (lt_of_lt_of_le hs (by decide))
      rcases hy with hy | hy
      · exact K.stacks_apart _ _ hu y hy hst
      · exact K.slot_outside _ _ y hy hst
    · rcases hy with hy | hy
      · exact K.slot_outside _ _ y hs hy
      · exact K.slots_apart _ _ hu y hy hs

lemma step_current {e : Turn T} (h : System.step x c K e s = some s') (hne : s'.current ≠ s.current) :
    e = .switch s'.current := by
  cases e with
  | run q =>
    simp only [System.step] at h
    split_ifs at h
    obtain rfl := Option.some.inj h
    exact absurd rfl hne
  | switch v => rw [(switch_step h).2.2.2.1]

/-- In every run, when the processor comes back to a thread that gave it up by calling `swtch`, that call returns
as any call of C does: to the address after it, with the registers that a callee must keep, and with the stack as
it was but for the bytes below the stack pointer. -/
theorem swtch_returns (x : Text) (c : Processor) (K : Stacks T)
    (r : Lts.Run (fun _ => True) (System.step x c K) n) {a b : ℕ} (hab : a < b) (hb : b ≤ n)
    {v : T} (hlabel : r.label a = .switch v) (hout : ∀ k, a < k → k < b → (r.state k).current ≠ (r.state a).current)
    (hin : (r.state b).current = (r.state a).current) :
    (r.state b).cpu.eip = (r.state a).cpu.core.top ∧
      (r.state b).cpu.core.esp = (r.state a).cpu.core.esp + 4#32 ∧
      (r.state b).cpu.core.context = { (r.state a).cpu.core.context with eip := (r.state b).cpu.core.top } ∧
      ∀ y, K.stack (r.state a).current y → ¬ Within ((r.state a).cpu.core.esp - 16#32) 16 y →
        (r.state b).cpu.core.mem y = (r.state a).cpu.core.mem y := by
  have hstep := r.steps a (by omega)
  rw [hlabel] at hstep
  obtain ⟨hv, -, hcall, hcur, hrun⟩ := switch_step hstep
  set t := (r.state a).current with ht
  set q := (r.state a).cpu.core with hq
  have hb1 : a + 1 < b := by
    rcases Nat.lt_or_ge (a + 1) b with h | h
    · exact h
    · have : b = a + 1 := by omega
      rw [this, hcur] at hin
      exact absurd hin hv
  -- the call saves the context of the thread on its own stack
  have hmem := switch_mem hcall hrun
  have hsp : Apart (q.esp - 16#32) 20 (K.slot t) 4 := fun y hy hy' =>
    K.slot_outside _ _ y hy' (hcall.room y (lt_of_lt_of_le hy (by decide)))
  obtain ⟨hctx, hslot⟩ := swtch_saves hmem hcall.args (by simp) hsp
  -- no other thread touches it until the thread runs again
  have hkeep := r.preserved (P := fun _ s => ∀ y, K.stack t y ∨ Within (K.slot t) 4 y →
    s.cpu.core.mem y = (r.state (a + 1)).cpu.core.mem y) (a := a + 1) (b := b - 1) (by omega) (fun _ _ => rfl)
    fun k hk hkb ih hs y hy => by
      rw [step_minds hs t (hout k (by omega) (by omega)).symm y hy]
      exact ih y hy
  have hlast := hkeep (b - 1) (by omega) le_rfl
  have hstepb := r.steps (b - 1) (by omega)
  rw [show b - 1 + 1 = b by omega] at hstepb
  have hminds := step_minds hstepb
  have hne := hout (b - 1) (by omega) (by omega)
  have hlabelb := step_current hstepb (by rw [hin]; exact hne.symm)
  rw [hlabelb, hin] at hstepb
  obtain ⟨-, -, hcallb, -, hrunb⟩ := switch_step hstepb
  set p := (r.state (b - 1)).cpu.core with hp
  have hload : load p.mem (K.slot t) = q.esp - 16#32 := by
    rw [load_congr fun y hy => hlast y (Or.inr hy)]
    exact hslot
  have hctxb : Holds p.mem (q.esp - 16#32) q.context.words := by
    refine hctx.congr (by rw [Context.words_length]; decide) fun y hy => hlast y (Or.inl (hcall.room y ?_))
    exact lt_of_lt_of_le hy (by rw [Context.words_length]; decide)
  have hargs := hcallb.args
  rw [hload] at hargs
  have hstack : ∀ y, Within (q.esp - 16#32) 20 y → K.stack t y := fun y hy =>
    hcall.room y (lt_of_lt_of_le hy (by decide))
  obtain ⟨z, hz, heip, hesp, hedi, hesi, hebx, hebp, -⟩ := swtch_runs (x := x) (c := c) hargs hctxb
    (fun y hy hy' => K.stacks_apart _ _ hne.symm y (hstack y hy) (hcallb.room y (lt_of_lt_of_le hy' (by decide))))
    (fun y hy hy' => K.slot_outside _ _ y hy' (hstack y hy))
  rw [hrunb] at hz
  obtain rfl := Option.some.inj hz
  refine ⟨heip, ?_, ?_, fun y hy hlow => ?_⟩
  · rw [hesp]
    apply BitVec.eq_of_toNat_eq
    simp only [BitVec.toNat_add, BitVec.toNat_sub, BitVec.toNat_ofNat]
    omega
  · simp only [Core.context, hedi, hesi, hebx, hebp]
  · rw [hminds t hne.symm y (Or.inl hy), hlast y (Or.inl hy)]
    refine swtch_frame hmem y ?_
    rintro (h | h)
    · exact hlow h
    · exact K.slot_outside _ _ y h hy

/-! Two threads with a page of stack each. -/

def twoSlot (t : Bool) : Word := if t then 0x100#32 else 0x104#32

def twoStack (t : Bool) : Word → Prop := Within (if t then 0x10000#32 else 0x20000#32) 4096

lemma twoStack_apart (t u : Bool) (h : t ≠ u) (y : Word) (hy : twoStack t y) : ¬ twoStack u y := by
  intro hy'
  have := y.isLt
  cases t <;> cases u <;> first
    | exact h rfl
    | simp only [twoStack, Within, Bool.false_eq_true, if_true, if_false, BitVec.toNat_sub, BitVec.toNat_ofNat] at hy hy'
      omega

lemma twoSlot_apart (t u : Bool) (h : t ≠ u) : Apart (twoSlot t) 4 (twoSlot u) 4 := by
  intro y hy hy'
  have := y.isLt
  cases t <;> cases u <;> first
    | exact h rfl
    | simp only [twoSlot, Within, Bool.false_eq_true, if_true, if_false, BitVec.toNat_sub, BitVec.toNat_ofNat] at hy hy'
      omega

lemma twoSlot_outside (t u : Bool) (y : Word) (hy : Within (twoSlot t) 4 y) : ¬ twoStack u y := by
  intro hy'
  have := y.isLt
  cases t <;> cases u <;>
    simp only [twoSlot, twoStack, Within, Bool.false_eq_true, if_true, if_false, BitVec.toNat_sub, BitVec.toNat_ofNat] at hy hy' <;>
    omega

def twoStacks : Stacks Bool := ⟨twoSlot, twoStack, twoStack_apart, twoSlot_apart, twoSlot_outside⟩

/-- The first thread is about to call `swtch`; the second will call it as soon as it runs. -/
def handover : Core where
  eax := 0
  ecx := 0
  edx := 0
  ebx := 1
  esp := 0x20800#32
  ebp := 2
  esi := 3
  edi := 4
  cs := selector SEG_KCODE 0
  ds := selector SEG_KDATA 0
  es := selector SEG_KDATA 0
  fs := selector SEG_KCPU 0
  gs := selector SEG_KCPU 0
  ss := selector SEG_KDATA 0
  eflags := 0
  mem := fill (fill (fill (fun _ => 0) 0x100#32 [0x10800#32]) 0x20800#32 [0x1234#32, 0x104#32, 0x10800#32])
    0x10800#32 [0, 0, 0, 0, linked.addr .swtch 0, 0x5678#32, 0x100#32, 0x207F0#32]

/-- Where the second thread is after the first switch. -/
def afterSwitch (r : Core) : State := (steps linked simpleProcessor 13 ⟨r, linked.addr .swtch 0⟩).getD ⟨r, 0⟩

def bothSwitch (k : ℕ) : System Bool :=
  match k with
  | 0 => ⟨false, ⟨handover, linked.addr .swtch 0⟩⟩
  | 1 => ⟨true, afterSwitch handover⟩
  | _ => ⟨false, afterSwitch (afterSwitch handover).core⟩

lemma handover_calls : twoStacks.Calls false true handover ∧ twoStacks.Calls true false (afterSwitch handover).core := by
  refine ⟨⟨by decide +kernel, fun y hy => ?_⟩, ⟨by decide +kernel, fun y hy => ?_⟩⟩
  · have h : handover.esp - 16#32 = 0x207F0#32 := by decide
    rw [h] at hy
    simp only [Within, twoStacks, twoStack, Bool.false_eq_true, if_false, BitVec.toNat_sub, BitVec.toNat_ofNat] at hy ⊢
    have := y.isLt
    omega
  · have h : (afterSwitch handover).core.esp - 16#32 = 0x10804#32 := by decide +kernel
    rw [h] at hy
    simp only [Within, twoStacks, twoStack, if_true, BitVec.toNat_sub, BitVec.toNat_ofNat] at hy ⊢
    have := y.isLt
    omega

/-- Two switches, to the second thread and back. -/
noncomputable def thereAndBack :
    Lts.Run (fun _ => True) (System.step linked simpleProcessor twoStacks) 2 where
  state := bothSwitch
  label k := .switch (k = 0)
  starts := trivial
  steps k hk := by
    have hsome : ∀ r : Core, steps linked simpleProcessor 13 ⟨r, linked.addr .swtch 0⟩ = some (afterSwitch r) := by
      intro r
      obtain ⟨t, ht, -⟩ := swtch_steps (x := linked) (c := simpleProcessor) (r := r)
      rw [afterSwitch, ht]
      rfl
    have heip : (afterSwitch handover).eip = linked.addr .swtch 0 := by decide +kernel
    match k, hk with
    | 0, _ => exact switch_taken (t := false) (by decide) rfl rfl handover_calls.1 (hsome _)
    | 1, _ =>
      have h : afterSwitch handover = ⟨(afterSwitch handover).core, linked.addr .swtch 0⟩ := by rw [← heip]
      have hrun : steps linked simpleProcessor 13 (afterSwitch handover) = some (afterSwitch (afterSwitch handover).core) := by
        rw [h]
        exact hsome _
      exact switch_taken (t := true) (s := ⟨true, afterSwitch handover⟩) (by decide) heip rfl handover_calls.2 hrun

theorem swtch_returns_handover :
    (thereAndBack.state 2).cpu.eip = (thereAndBack.state 0).cpu.core.top ∧
      (thereAndBack.state 2).cpu.core.esp = (thereAndBack.state 0).cpu.core.esp + 4#32 ∧
      (thereAndBack.state 2).cpu.core.context =
        { (thereAndBack.state 0).cpu.core.context with eip := (thereAndBack.state 2).cpu.core.top } ∧
      ∀ y, twoStacks.stack (thereAndBack.state 0).current y →
        ¬ Within ((thereAndBack.state 0).cpu.core.esp - 16#32) 16 y →
        (thereAndBack.state 2).cpu.core.mem y = (thereAndBack.state 0).cpu.core.mem y :=
  swtch_returns linked simpleProcessor twoStacks thereAndBack (a := 0) (b := 2) (v := true) (by decide) le_rfl rfl
    (fun k h0 h2 => by
      obtain rfl : k = 1 := by omega
      exact Bool.noConfusion) rfl

end Os132.Trap

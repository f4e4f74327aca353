import Os132.Trap.Switch

/-!
# The first time a process runs

`allocproc` writes on the new kernel stack what `swtch` expects of a thread that gave up the
processor: a context that returns to `forkret`, above it the address of `trapret`, above that room
for a trap frame. `fork` copies the parent's frame into that room with 0 in `%eax`, `userinit`
writes one by hand. The first switch to the process ends in user mode with what the frame says.
-/

namespace Os132.Trap

open Words

variable {x : Text} {c : Processor} {m m' : ByteMem} {r : Core} {kstack a : Word}

def KSTACKSIZE : ℕ := 4096

/-- The sizes of the two structures on the new stack. -/
def sizeTrapframe : Word := 76#32
def sizeContext : Word := 20#32

def memset (m : ByteMem) (dst : Word) (v : BitVec 8) (n : ℕ) : ByteMem := fun y => if Within dst n y then v else m y

def memmove (m : ByteMem) (dst src : Word) (n : ℕ) : ByteMem := fun y => if Within dst n y then m (src + (y - dst)) else m y

/-- The pointers that `allocproc` leaves in the process. -/
structure NewStack where
  tf : Word
  context : Word
  mem : ByteMem

/-- The part of `allocproc` after the kernel stack has been allocated. -/
def allocprocStack (x : Text) (kstack : Word) (m : ByteMem) : NewStack :=
  let sp := kstack + BitVec.ofNat 32 KSTACKSIZE
  let tf := sp - sizeTrapframe
  let sp := tf - 4#32
  let m := store m sp (x.addr .trapret 0)
  let context := sp - sizeContext
  let m := memset m context 0 20
  ⟨tf, context, store m (context + 16#32) (x.addr .forkret 0)⟩

/-- `*np->tf = *proc->tf; np->tf->eax = 0` -/
def forkTf (m : ByteMem) (tf parent : Word) : ByteMem :=
  store (memmove m tf parent 76) (tf + 28#32) 0#32

/-- A 16-bit field. -/
def storeSel (m : ByteMem) (a : Word) (v : BitVec 16) : ByteMem := store m a ((load m a).extractLsb' 16 16 ++ v)

/-- The frame that `userinit` makes. -/
def userinitTf (m : ByteMem) (tf : Word) : ByteMem :=
  let m := memset m tf 0 76
  let m := storeSel m (tf + 60#32) (selector SEG_UCODE DPL_USER)
  let m := storeSel m (tf + 44#32) (selector SEG_UDATA DPL_USER)
  let m := storeSel m (tf + 40#32) ((load m (tf + 44#32)).setWidth 16)
  let m := storeSel m (tf + 72#32) ((load m (tf + 44#32)).setWidth 16)
  let m := store m (tf + 64#32) FL_IF
  let m := store m (tf + 68#32) 4096#32
  store m (tf + 56#32) 0#32

/-- The state in which the first process enters initcode.S. -/
def userinitFrame : Trapframe where
  edi := 0
  esi := 0
  ebp := 0
  oesp := 0
  ebx := 0
  edx := 0
  ecx := 0
  eax := 0
  gs := 0
  fs := 0
  es := selector SEG_UDATA DPL_USER
  ds := selector SEG_UDATA DPL_USER
  trapno := 0
  err := 0
  eip := 0
  cs := selector SEG_UCODE DPL_USER
  eflags := FL_IF
  esp := 4096#32
  ss := selector SEG_UDATA DPL_USER

/-- The privilege levels that `seginit` writes into the descriptors. -/
def seginit (seg : ℕ) : ℕ := if seg = SEG_UCODE ∨ seg = SEG_UDATA then DPL_USER else 0

/-- The registers with which initcode.S starts. -/
def initcode (m : ByteMem) : Core where
  eax := 0
  ecx := 0
  edx := 0
  ebx := 0
  esp := 4096#32
  ebp := 0
  esi := 0
  edi := 0
  cs := selector SEG_UCODE DPL_USER
  ds := selector SEG_UDATA DPL_USER
  es := selector SEG_UDATA DPL_USER
  fs := 0
  gs := 0
  ss := selector SEG_UDATA DPL_USER
  eflags := FL_IF
  mem := m

/-! ### What is written -/

lemma memset_frame {v : BitVec 8} {n : ℕ} : Words.Frame (Within a n) m (memset m a v n) := by
  intro y hy
  exact if_neg hy

lemma memset_holds {n k : ℕ} (hk : 4 * k ≤ n) (hn : n ≤ 2 ^ 32) : Holds (memset m a 0 n) a (List.replicate k 0#32) := by
  have hz : Holds (fun _ => 0) a (List.replicate k 0#32) := by
    have hall : ∀ b, Holds (fun _ => 0) b (List.replicate k 0#32) := by
      induction k with
      | zero => exact fun _ => trivial
      | succ k ih => exact fun b => ⟨by simp [load], ih (by omega) _⟩
    exact hall a
  refine hz.congr (by rw [List.length_replicate]; omega) fun y hy => if_pos ?_
  rw [List.length_replicate] at hy
  exact lt_of_lt_of_le hy hk

lemma memmove_holds {ws : List Word} {src : Word} {n : ℕ} (hn : 4 * ws.length ≤ n) (hn' : n ≤ 2 ^ 32) (h : Holds m src ws) :
    Holds (memmove m a src n) a ws := by
  refine h.copy (by omega) fun k hk => ?_
  have hoff := offset_toNat (a := a) (k := k) (by omega)
  have hin : Within a n (a + BitVec.ofNat 32 k) := by
    rw [Within, hoff]
    omega
  have hk' : a + BitVec.ofNat 32 k - a = BitVec.ofNat 32 k := by
    apply BitVec.eq_of_toNat_eq
    rw [hoff, BitVec.toNat_ofNat, Nat.mod_eq_of_lt (by omega)]
  rw [memmove, if_pos hin, hk']

/-- What lies on a new stack from the context up to the frame. -/
def newWords (x : Text) : List Word := [0#32, 0#32, 0#32, 0#32, x.addr .forkret 0, x.addr .trapret 0]

lemma newWords_length {f : Trapframe} {pad : ℕ → BitVec 16} : (newWords x ++ f.words pad true).length = 25 := rfl

lemma allocproc_tf (x : Text) (kstack : Word) (m : ByteMem) : (allocprocStack x kstack m).tf = (allocprocStack x kstack m).context + 24#32 := by
  simp only [allocprocStack, sizeContext, BitVec.sub_eq_add_neg, BitVec.add_assoc]
  exact congrArg (kstack + ·) (by decide)

lemma allocproc_words (x : Text) (kstack : Word) (m : ByteMem) : Holds (allocprocStack x kstack m).mem (allocprocStack x kstack m).context (newWords x) ∧
    Words.Frame (Within (allocprocStack x kstack m).context 24) m (allocprocStack x kstack m).mem := by
  set ctx := (allocprocStack x kstack m).context with hctx
  have hsp : kstack + BitVec.ofNat 32 KSTACKSIZE - sizeTrapframe - 4#32 = ctx + 20#32 := by
    rw [hctx]
    simp only [allocprocStack, sizeContext]
    exact (BitVec.sub_add_cancel _ _).symm
  have hmem : (allocprocStack x kstack m).mem =
      store (memset (store m (ctx + 20#32) (x.addr .trapret 0)) ctx 0 20) (ctx + 16#32) (x.addr .forkret 0) := by
    rw [← hsp]
    rfl
  rw [hmem]
  have hzero := memset_holds (m := store m (ctx + 20#32) (x.addr .trapret 0)) (a := ctx) (n := 20) (k := 5) (by decide) (by decide)
  have hctxw := hzero.set (v := x.addr .forkret 0) (i := 4) (by decide) (by decide)
  have htrap : load (store (memset (store m (ctx + 20#32) (x.addr .trapret 0)) ctx 0 20) (ctx + 16#32) (x.addr .forkret 0))
      (ctx + 20#32) = x.addr .trapret 0 := by
    rw [store_frame.load, memset_frame.load, load_store_same]
    · intro y hy hlow
      simp only [Within, BitVec.toNat_sub, BitVec.toNat_add, BitVec.toNat_ofNat] at hy hlow
      have := ctx.isLt
      have := y.isLt
      omega
    · intro y hy hlow
      simp only [Within, BitVec.toNat_sub, BitVec.toNat_add, BitVec.toNat_ofNat] at hy hlow
      have := ctx.isLt
      have := y.isLt
      omega
  refine ⟨?_, ?_⟩
  · have hsplit : newWords x = (List.replicate 5 0#32).set 4 (x.addr .forkret 0) ++ [x.addr .trapret 0] := rfl
    rw [hsplit, holds_append]
    exact ⟨hctxw, htrap, trivial⟩
  · refine ((store_frame.mono fun y hy => ?_).trans (memset_frame.mono fun y hy => ?_)).trans (store_frame.mono fun y hy => ?_)
    · simp only [Within, BitVec.toNat_sub, BitVec.toNat_add, BitVec.toNat_ofNat] at hy ⊢
      have := ctx.isLt
      have := y.isLt
      omega
    · exact lt_of_lt_of_le hy (by decide)
    · simp only [Within, BitVec.toNat_sub, BitVec.toNat_add, BitVec.toNat_ofNat] at hy ⊢
      have := ctx.isLt
      have := y.isLt
      omega

/-! ### The first switch -/

/-- The first switch to a process goes to `forkret` and from there to what the frame says. -/
theorem newborn_runs {f : Trapframe} {pad : ℕ → BitVec 16} {ret old new : Word} (h : Holds r.mem r.esp [ret, old, new])
    (hnew : Holds r.mem new (newWords x ++ f.words pad true)) (hsave : Apart new 100 (r.esp - 16#32) 16)
    (hold : Apart new 100 old 4) (hcpl : r.cpl = 0) (hl : 0 < level f.cs) :
    ∃ t, steps x c 13 ⟨r, x.addr .swtch 0⟩ = some t ∧ t.eip = x.addr .forkret 0 ∧
      ∀ u, Returns t u → (∀ y, Within (new + 24#32) 76 y → u.core.mem y = t.core.mem y) →
        u.core.cpl = 0 ∧ steps x c 7 u = some ⟨f.resumed c u.core, f.eip⟩ := by
  have hk : Holds r.mem new (Context.words ⟨0, 0, 0, 0, x.addr .forkret 0⟩) := by
    have h5 : newWords x ++ f.words pad true =
        Context.words ⟨0, 0, 0, 0, x.addr .forkret 0⟩ ++ (x.addr .trapret 0 :: f.words pad true) := rfl
    rw [h5, holds_append] at hnew
    exact hnew.1
  obtain ⟨t, hrun, heip, hesp, -, -, -, -, hmem⟩ := swtch_runs (x := x) (c := c) h hk
    (fun y hy => hsave y (lt_of_lt_of_le hy (by decide))) (fun y hy => hold y (lt_of_lt_of_le hy (by decide)))
  refine ⟨t, hrun, heip, fun u hu hkeep => ?_⟩
  -- the switch itself leaves the new stack
  have hall : Holds t.core.mem new (newWords x ++ f.words pad true) := by
    refine hnew.frame (swtch_frame hmem) (by rw [newWords_length]; decide) fun y hy => ?_
    have hy100 : Within new 100 y := lt_of_lt_of_le hy (by rw [newWords_length])
    rintro (hy' | hy')
    · exact hsave y hy100 hy'
    · exact hold y hy100 hy'
  have hcs : t.core.cs = r.cs := by
    obtain ⟨t', ht', -, hform⟩ := swtch_steps (x := x) (c := c) (r := r)
    rw [hrun] at ht'
    obtain rfl := Option.some.inj ht'
    rw [hform]
    simp [Core.pop, switched, saved]
  rw [holds_append] at hall
  have htrap : t.core.top = x.addr .trapret 0 := by
    rw [Core.top, hesp]
    exact Holds.get (i := 5) hall.1 rfl
  have hue : u = ⟨u.core, x.addr .trapret 0⟩ := by
    have h1 : u.eip = x.addr .trapret 0 := hu.eip.trans htrap
    rw [← h1]
  have huesp : u.core.esp = new + 24#32 := by
    rw [hu.esp, hesp]
    simp only [BitVec.add_assoc, BitVec.reduceAdd]
  have hucpl : u.core.cpl = 0 := by
    rw [Core.cpl, hu.cs, hcs]
    exact hcpl
  have hf : Holds u.core.mem u.core.esp (f.words pad (u.core.cpl < level f.cs)) := by
    rw [huesp, hucpl, decide_eq_true hl]
    refine hall.2.congr (by rw [words_length]; decide) fun y hy => hkeep y ?_
    exact lt_of_lt_of_le hy (by rw [words_length]; decide)
  refine ⟨hucpl, ?_⟩
  rw [hue]
  exact trapret_resumes hf

/-! ### The two frames -/

lemma memmove_frame {src : Word} {n : ℕ} : Words.Frame (Within a n) m (memmove m a src n) := by
  intro y hy
  exact if_neg hy

lemma forkTf_frame {parent : Word} : Words.Frame (Within a 76) m (forkTf m a parent) := by
  refine memmove_frame.trans (store_frame.mono fun y hy => ?_)
  simp only [Within, BitVec.toNat_sub, BitVec.toNat_add, BitVec.toNat_ofNat] at hy ⊢
  have := a.isLt
  have := y.isLt
  omega

lemma field_frame {v : Word} {i : ℕ} (hi : i < 19) : Words.Frame (Within a 76) m (store m (a + BitVec.ofNat 32 (4 * i)) v) := by
  refine store_frame.mono fun y hy => ?_
  simp only [Within, BitVec.toNat_sub, BitVec.toNat_add, BitVec.toNat_ofNat] at hy ⊢
  have := a.isLt
  have := y.isLt
  omega

lemma Holds.storeSel {ws : List Word} {w : Word} {v : BitVec 16} {i : ℕ} (hn : 4 * ws.length ≤ 2 ^ 32)
    (h : Words.Holds m a ws) (hi : ws[i]? = some w) :
    Words.Holds (storeSel m (a + BitVec.ofNat 32 (4 * i)) v) a (ws.set i (w.extractLsb' 16 16 ++ v)) := by
  rw [Os132.Trap.storeSel, h.get hi]
  exact h.set hn (List.getElem?_eq_some_iff.1 hi).1

/-- The words of the frame that `userinit` makes. -/
lemma userinit_words : Words.Holds (userinitTf m a) a (userinitFrame.words (fun _ => 0) true) ∧
    Words.Frame (Within a 76) m (userinitTf m a) := by
  have h0 := memset_holds (m := m) (a := a) (n := 76) (k := 19) (by decide) (by decide)
  have h1 := Holds.storeSel (v := selector SEG_UCODE DPL_USER) (i := 15) (by simp) h0 rfl
  have h2 := Holds.storeSel (v := selector SEG_UDATA DPL_USER) (i := 11) (by simp) h1 rfl
  -- `es` and `ss` are copies of `ds`
  have hds := (congrArg (BitVec.setWidth 16) (h2.get (i := 11) rfl)).trans (low_sel _ _)
  have h3 := Holds.storeSel (v := selector SEG_UDATA DPL_USER) (i := 10) (by simp) h2 rfl
  have hds' := (congrArg (BitVec.setWidth 16) (h3.get (i := 11) rfl)).trans (low_sel _ _)
  have h4 := Holds.storeSel (v := selector SEG_UDATA DPL_USER) (i := 18) (by simp) h3 rfl
  have h5 := h4.set (v := FL_IF) (i := 16) (by simp) (by simp)
  have h6 := h5.set (v := 4096#32) (i := 17) (by simp) (by simp)
  have h7 := h6.set (v := 0#32) (i := 14) (by simp) (by simp)
  have hmem : userinitTf m a = store (store (store (storeSel (storeSel (storeSel (storeSel (memset m a 0 76)
      (a + BitVec.ofNat 32 (4 * 15)) (selector SEG_UCODE DPL_USER)) (a + BitVec.ofNat 32 (4 * 11)) (selector SEG_UDATA DPL_USER))
      (a + BitVec.ofNat 32 (4 * 10)) (selector SEG_UDATA DPL_USER)) (a + BitVec.ofNat 32 (4 * 18)) (selector SEG_UDATA DPL_USER))
      (a + BitVec.ofNat 32 (4 * 16)) FL_IF) (a + BitVec.ofNat 32 (4 * 17)) 4096#32) (a + BitVec.ofNat 32 (4 * 14)) 0#32 := by
    simp only [userinitTf]
    rw [show (44#32 : Word) = BitVec.ofNat 32 (4 * 11) from rfl, show (60#32 : Word) = BitVec.ofNat 32 (4 * 15) from rfl,
      show (40#32 : Word) = BitVec.ofNat 32 (4 * 10) from rfl, hds, hds']
  rw [hmem]
  refine ⟨h7, ?_⟩
  have hm0 : Words.Frame (Within a 76) m (memset m a 0 76) := memset_frame
  exact ((((((hm0.trans (field_frame (i := 15) (by decide))).trans (field_frame (i := 11) (by decide))).trans
    (field_frame (i := 10) (by decide))).trans (field_frame (i := 18) (by decide))).trans
    (field_frame (i := 16) (by decide))).trans (field_frame (i := 17) (by decide))).trans (field_frame (i := 14) (by decide))

lemma context_apart_tf {y : Word} (h : Within a 24 y) : ¬ Within (a + 24#32) 76 y := by
  intro hy
  simp only [Within, BitVec.toNat_sub, BitVec.toNat_add, BitVec.toNat_ofNat] at h hy
  have := a.isLt
  have := y.isLt
  omega

/-- `fork`: the parent's frame, with 0 in `%eax`, under the context of the child. -/
lemma fork_words (x : Text) (kstack : Word) {f : Trapframe} {pad : ℕ → BitVec 16} {parent : Word} (hf : Holds m parent (f.words pad true))
    (hapart : Apart parent 76 (allocprocStack x kstack m).context 24) :
    Holds (forkTf (allocprocStack x kstack m).mem (allocprocStack x kstack m).tf parent) (allocprocStack x kstack m).context
      (newWords x ++ { f with eax := 0#32 }.words pad true) := by
  obtain ⟨hnew, hframe⟩ := allocproc_words x kstack m
  have htf := allocproc_tf x kstack m
  set np := allocprocStack x kstack m with hnp
  have hparent : Holds np.mem parent (f.words pad true) := by
    refine hf.frame hframe (by rw [words_length]; decide) fun y hy => hapart y ?_
    exact lt_of_lt_of_le hy (by rw [words_length]; decide)
  have hcopy := memmove_holds (a := np.tf) (n := 76) (by rw [words_length]; decide) (by decide) hparent
  have hset := hcopy.set (v := 0#32) (i := 7) (by rw [words_length]; decide) (by rw [words_length]; decide)
  have hwords : (f.words pad true).set 7 0#32 = { f with eax := 0#32 }.words pad true := rfl
  rw [hwords] at hset
  rw [holds_append]
  refine ⟨?_, ?_⟩
  · have h24 : 4 * (newWords x).length = 24 := rfl
    refine hnew.frame forkTf_frame (by rw [h24]; decide) fun y hy => ?_
    rw [htf]
    exact context_apart_tf (h24 ▸ hy)
  · rw [show np.context + BitVec.ofNat 32 (4 * (newWords x).length) = np.tf from htf.symm]
    exact hset

/-- `fork` returns twice. The parent's `int` has its frame in the kernel; once `allocproc` and `fork` have written the
child's stack, the first switch to the child ends in user mode just after that `int`, with every register of the
parent but 0 in `%eax`. -/
theorem fork_child_returns (x : Text) (c : Processor) (s : State) (m : ByteMem) (parent kstack next oesp : Word)
    (pad : ℕ → BitVec 16) (hs : s.core.cpl = 3) (hseg : s.core.Reaches c)
    (hf : Holds m parent ((interrupted s (.int T_SYSCALL next) oesp).words pad true))
    (hapart : Apart parent 76 (allocprocStack x kstack m).context 24) :
    ∀ (r : Core) (ret old : Word), Holds r.mem r.esp [ret, old, (allocprocStack x kstack m).context] → r.cpl = 0 →
      (∀ y, Within (allocprocStack x kstack m).context 100 y →
        r.mem y = forkTf (allocprocStack x kstack m).mem (allocprocStack x kstack m).tf parent y) →
      Apart (allocprocStack x kstack m).context 100 (r.esp - 16#32) 16 →
      Apart (allocprocStack x kstack m).context 100 old 4 →
      ∃ t, steps x c 13 ⟨r, x.addr .swtch 0⟩ = some t ∧ t.eip = x.addr .forkret 0 ∧
        ∀ u, Returns t u →
          (∀ y, Within ((allocprocStack x kstack m).context + 24#32) 76 y → u.core.mem y = t.core.mem y) →
          steps x c 7 u = some ⟨{ s.core with eax := 0#32, mem := u.core.mem }, next⟩ := by
  intro r ret old hargs hcpl hmem hsave hold
  have hnew : Words.Holds r.mem _ _ := (fork_words x kstack hf hapart).congr (by rw [newWords_length]; decide) fun y hy =>
    hmem y (lt_of_lt_of_le hy (by rw [newWords_length]))
  have hl : level s.core.cs = 3 := hs
  obtain ⟨t, hrun, heip, hret⟩ := newborn_runs (c := c) hargs hnew hsave hold hcpl (by
    change 0 < level s.core.cs
    omega)
  refine ⟨t, hrun, heip, fun u hu hkeep => ?_⟩
  obtain ⟨hucpl, hsteps⟩ := hret u hu hkeep
  have hres := interrupted_resumed (.int T_SYSCALL next) oesp hseg hucpl rfl
    (fun h0 => absurd h0 (by omega)) (fun h0 => absurd h0 (by omega))
  have heax : ({ interrupted s (.int T_SYSCALL next) oesp with eax := 0#32 } : Trapframe).resumed c u.core =
      { (interrupted s (.int T_SYSCALL next) oesp).resumed c u.core with eax := 0#32 } := rfl
  rw [hsteps, heax, hres]
  rfl

/-- A scheduler about to switch to the process whose stack is written in `m`. -/
def dispatcher (m : ByteMem) (context : Word) : Core :=
  { handover with esp := 0x20000#32, mem := fill m 0x20000#32 [0x1234#32, 0x104#32, context] }

lemma dispatcher_ready (m : ByteMem) (context : Word) (hctx : context = 0x10F9C#32) :
    Words.Holds (dispatcher m context).mem (dispatcher m context).esp [0x1234#32, 0x104#32, context] ∧
      (∀ y, Within context 100 y → (dispatcher m context).mem y = m y) ∧
      Apart context 100 ((dispatcher m context).esp - 16#32) 16 ∧ Apart context 100 0x104#32 4 := by
  have hesp : (dispatcher m context).esp = 0x20000#32 := rfl
  subst hctx
  rw [hesp]
  refine ⟨fill_holds (by decide), fun y hy => fill_frame (by decide) y fun hy' => ?_, fun y hy hy' => ?_, fun y hy hy' => ?_⟩
  all_goals
    simp only [Within, List.length_cons, List.length_nil, BitVec.toNat_sub, BitVec.toNat_ofNat] at hy hy'
    have := y.isLt
    omega

/-- Where the parent's frame lies, and what else there is in memory. -/
def forking : ByteMem :=
  fill (fun _ => 0) 0x3000#32 ((interrupted userProgram (.int T_SYSCALL 18#32) 0#32).words (fun _ => 0) true)

def forked : NewStack := allocprocStack linked 0x10000#32 forking

theorem fork_child_returns_first :
    ∃ t, steps linked simpleProcessor 13
        ⟨dispatcher (forkTf forked.mem forked.tf 0x3000#32) forked.context, linked.addr .swtch 0⟩ = some t ∧
      t.eip = linked.addr .forkret 0 ∧
      ∀ u, Returns t u → (∀ y, Within (forked.context + 24#32) 76 y → u.core.mem y = t.core.mem y) →
        steps linked simpleProcessor 7 u = some ⟨{ userProgram.core with eax := 0#32, mem := u.core.mem }, 18#32⟩ :=
  have hctx : forked.context = 0x10F9C#32 := by decide
  have hready := dispatcher_ready (forkTf forked.mem forked.tf 0x3000#32) forked.context hctx
  fork_child_returns linked simpleProcessor userProgram forking 0x3000#32 0x10000#32 18#32 0#32 (fun _ => 0) (by decide)
    userProgram_reaches (fill_holds (by decide)) (by
      intro y hy hy'
      rw [show (allocprocStack linked 0x10000#32 forking).context = 0x10F9C#32 from hctx] at hy'
      simp only [Within, BitVec.toNat_sub, BitVec.toNat_ofNat] at hy hy'
      have := y.isLt
      omega) _ 0x1234#32 0x104#32 hready.1 (by decide) hready.2.1 hready.2.2.1 hready.2.2.2

/-- The data selector of the frame stays loaded, as its descriptor is a user segment. -/
lemma userinitFrame_resumed (hgdt : c.dpl (selector SEG_UDATA DPL_USER) = seginit SEG_UDATA) (hcpl : r.cpl = 0) :
    userinitFrame.resumed c r = initcode r.mem := by
  have hlevel : level userinitFrame.cs = 3 := rfl
  have hdpl : c.dpl (selector SEG_UDATA DPL_USER) = 3 := hgdt
  have hdata : Core.lower c userinitFrame.cs (selector SEG_UDATA DPL_USER) = selector SEG_UDATA DPL_USER :=
    if_neg (by omega)
  have hnull : Core.lower c userinitFrame.cs 0 = 0 := ite_self _
  have hlt : r.cpl < level userinitFrame.cs := by omega
  simp only [Trapframe.resumed, if_pos hlt]
  simp only [userinitFrame] at hdata hnull ⊢
  rw [hdata, hnull]
  rfl

/-- The first process enters initcode.S in user mode at address 0, with interrupts on, its stack at the end of
its only page and the user's selectors loaded. -/
theorem initcode_starts (x : Text) (c : Processor) (m : ByteMem) (kstack : Word)
    (hgdt : c.dpl (selector SEG_UDATA DPL_USER) = seginit SEG_UDATA) :
    ∀ (r : Core) (ret old : Word), Holds r.mem r.esp [ret, old, (allocprocStack x kstack m).context] → r.cpl = 0 →
      (∀ y, Within (allocprocStack x kstack m).context 100 y →
        r.mem y = userinitTf (allocprocStack x kstack m).mem (allocprocStack x kstack m).tf y) →
      Apart (allocprocStack x kstack m).context 100 (r.esp - 16#32) 16 →
      Apart (allocprocStack x kstack m).context 100 old 4 →
      ∃ t, steps x c 13 ⟨r, x.addr .swtch 0⟩ = some t ∧ t.eip = x.addr .forkret 0 ∧
        ∀ u, Returns t u →
          (∀ y, Within ((allocprocStack x kstack m).context + 24#32) 76 y → u.core.mem y = t.core.mem y) →
          steps x c 7 u = some ⟨initcode u.core.mem, 0#32⟩ := by
  intro r ret old hargs hcpl hmem hsave hold
  obtain ⟨hnew, -⟩ := allocproc_words x kstack m
  have htf := allocproc_tf x kstack m
  set np := allocprocStack x kstack m with hnp
  obtain ⟨hwords, hframe⟩ := userinit_words (m := np.mem) (a := np.tf)
  have h24 : 4 * (newWords x).length = 24 := rfl
  have hall : Words.Holds (userinitTf np.mem np.tf) np.context (newWords x ++ userinitFrame.words (fun _ => 0) true) := by
    rw [holds_append]
    refine ⟨hnew.frame hframe (by rw [h24]; decide) fun y hy => ?_, ?_⟩
    · rw [htf]
      exact context_apart_tf (h24 ▸ hy)
    · rw [show np.context + BitVec.ofNat 32 (4 * (newWords x).length) = np.tf from htf.symm]
      exact hwords
  have hr : Words.Holds r.mem _ _ := hall.congr (by rw [newWords_length]; decide) fun y hy =>
    hmem y (lt_of_lt_of_le hy (by rw [newWords_length]))
  obtain ⟨t, hrun, heip, hret⟩ := newborn_runs (c := c) hargs hr hsave hold hcpl (by decide)
  refine ⟨t, hrun, heip, fun u hu hkeep => ?_⟩
  obtain ⟨hucpl, hsteps⟩ := hret u hu hkeep
  rw [hsteps, userinitFrame_resumed hgdt hucpl]
  rfl

/-- The descriptors of `seginit`. -/
def gdtProcessor : Processor := ⟨fun a b => a + b, fun sel => seginit (sel.toNat / 8)⟩

theorem initcode_starts_first :
    ∃ t, steps linked gdtProcessor 13
        ⟨dispatcher (userinitTf forked.mem forked.tf) forked.context, linked.addr .swtch 0⟩ = some t ∧
      t.eip = linked.addr .forkret 0 ∧
      ∀ u, Returns t u → (∀ y, Within (forked.context + 24#32) 76 y → u.core.mem y = t.core.mem y) →
        steps linked gdtProcessor 7 u = some ⟨initcode u.core.mem, 0#32⟩ :=
  have hready := dispatcher_ready (userinitTf forked.mem forked.tf) forked.context (by decide)
  initcode_starts linked gdtProcessor forking 0x10000#32 (by decide) _ 0x1234#32 0x104#32 hready.1 (by decide) hready.2.1 hready.2.2.1
    hready.2.2.2

end Os132.Trap

import Os132.Kernel.Machine

/-!
# A discipline for kernel threads

A signature records the locks a thread holds, the interrupt flag it has outside its critical
sections and the table slot it is filling in `fork`, with the number of fields it has filled.
Every operation demands a signature and leaves one; a thread is typed when its operations
chain. The steps an operation puts in front of the thread are typed again, so a typed thread
stays typed whatever it executes.
-/

namespace Os132

open Op

/-- The point of a thread in the discipline; `sch` marks the thread of a scheduler. -/
structure Sig where
  held : List Lock
  ie : Bool
  emb : Option (Slot × Nat)
  sch : Bool

/-- The locks under which a lock may be taken. -/
def Lock.allowed (held : List Lock) : Lock → Prop
  | .ptable => Lock.ptable ∉ held
  | .tickslock => held = [] ∨ held = [.ptable]
  | .other _ => held = []

def lockOf (h : Option Nat) : List Lock := (h.map Lock.other).toList

/-- What a store demands. -/
def Store.pre (g : Sig) : Store → Prop
  | .rtimeIncr | .quantaDecr => g.held = [.tickslock] ∧ g.ie = false
  | .chan _ => g.held = [.ptable]
  | .killed | .eax _ | .priorityDecr => g.held = []
  | .qvalueTicks => g.held = [.tickslock]
  | .priority _ => g.held = [.ptable]
  | .etime => g.held = [.tickslock, .ptable]

/-- What an operation of a routine demands; `spin` and `sched` occur only at the front of a
thread. -/
def Op.pre : Op → Sig → Prop
  | acquire lk, g => lk.allowed g.held
  | release lk, g => lk ∈ g.held
  | iret, g => g.held = []
  | user, g => g.held = [] ∧ g.ie = true ∧ g.emb = none ∧ g.sch = false
  | spin _, _ | Op.sched, _ => False
  | schedAs st, g => g.held = [.ptable] ∧ st ∈ [ProcState.runnable, .sleeping, .zombie] ∧ (st = .zombie → g.emb = none)
  | Op.panic _, _ => True
  | .syscall _, g => g.held = [] ∧ g.emb = none ∧ g.sch = false
  | ifKilledExit u, g => g.held = [] ∧ (u = true → g.emb = none)
  | timerIrq, g | ifYield, g => g.held = [] ∧ g.ie = false
  | tick, g => g.held = [.tickslock] ∧ g.ie = false
  | store f, g => f.pre g
  | allocproc, g => g.held = [.ptable] ∧ g.emb = none ∧ g.sch = false
  | allocKstack i, g => g.held = [] ∧ g.emb = some (i, 1)
  | allocContext i, g => g.held = [] ∧ g.emb = some (i, 2)
  | copyuvm i, g | freeKstack i, g => g.held = [] ∧ g.emb = some (i, 3)
  | forkUnused i, g => g.held = [] ∧ g.emb = some (i, 1)
  | np i _, g => g.held = [] ∧ ∃ k, 4 ≤ k ∧ g.emb = some (i, k)
  | forkParent i, g => g.held = [] ∧ g.emb = some (i, 4)
  | forkPid i, g | forkRunnable i, g => g.held = [] ∧ g.emb = some (i, 5)
  | late _ _, g => g.emb = none
  | forkretFirst, g => g.held = []
  | exit, g => g.held = [] ∧ g.emb = none
  | wakeupParent, g | reparent, g => g.held = [.ptable] ∧ g.emb = none
  | wakeup1 _, g => .ptable ∈ g.held
  | .wait _, g | .kill _, g => g.held = [.ptable] ∧ g.emb = none
  | .nice, g => g.held = [] ∧ g.emb = none
  | yieldMedium, g => g.held = []
  | sleepTicks0 _, g | sleepTest _ _, g | sleepKilled _ _, g => g.held = [.tickslock] ∧ g.emb = none
  | kcode h, g | kcodeNosleep h, g => g.held = lockOf h
  | schedTop, g => g.held = [] ∧ g.sch = true
  | schedTicks, g => g.held = [.tickslock] ∧ g.sch = true
  | scan _, g | choose, g => g.held = [.ptable] ∧ g.sch = true

/-- What an operation leaves, with all the steps it puts in front of the thread. -/
def Op.post : Op → Sig → Sig
  | acquire lk, g => { g with held := lk :: g.held }
  | release lk, g => { g with held := g.held.erase lk }
  | iret, g | schedTop, g => { g with ie := true }
  | allocproc, g | .wait _, g | .kill _, g | kcode _, g | kcodeNosleep _, g => { g with held := [] }
  | sleepTicks0 _, g | sleepTest _ _, g | sleepKilled _ _, g => { g with held := [] }
  | freeKstack i, g => { g with emb := some (i, 1) }
  | allocContext i, g => { g with emb := some (i, 3) }
  | forkParent i, g => { g with emb := some (i, 5) }
  | allocKstack _, g | copyuvm _, g | forkUnused _, g | forkPid _, g | forkRunnable _, g => { g with emb := none }
  | _, g => g

/-- The operations from which the scheduler switches to a process; the process comes back with
its own interrupt flag. -/
def Op.switches : Op → Bool
  | scan _ | choose => true
  | _ => false

/-- The operations of a thread chain from the signature. Nothing runs after a panic. -/
def Typed : Sig → List Op → Prop
  | _, [] => True
  | g, op :: r => op.pre g ∧ ((∃ msg, op = panic msg) ∨
      if op.switches then ∀ b, Typed { op.post g with ie := b } r else Typed (op.post g) r)

lemma typed_cons {g : Sig} {op : Op} {r : List Op} (h : Typed g (op :: r))
    (hp : ∀ msg, op ≠ panic msg) : op.pre g ∧ Typed (op.post g) r := by
  obtain ⟨h1, ⟨msg, h2⟩ | h2⟩ := h
  · exact absurd h2 (hp msg)
  · split_ifs at h2
    · exact ⟨h1, h2 _⟩
    · exact ⟨h1, h2⟩

/-- The thread is in the loop of `acquire`. -/
def spinning : List Op → Bool
  | spin _ :: _ => true
  | _ => false

/-- The thread has left the state `RUNNING` and is about to switch to the scheduler. -/
def atSched : List Op → Bool
  | Op.sched :: _ => true
  | _ => false

/-- A thread in the middle of a run: it may be spinning, or be at its call of `sched`. -/
def ThreadOk (g : Sig) : List Op → Prop
  | spin lk :: r => Typed g (acquire lk :: r)
  | Op.sched :: r => g.held = [.ptable] ∧ Typed g r
  | l => Typed g l

lemma Typed.not_spinning {g : Sig} {l : List Op} (h : Typed g l) : spinning l = false := by
  unfold spinning
  split
  · exact absurd h.1 id
  · rfl

lemma Typed.not_atSched {g : Sig} {l : List Op} (h : Typed g l) : atSched l = false := by
  unfold atSched
  split
  · exact absurd h.1 id
  · rfl

lemma Typed.threadOk {g : Sig} {l : List Op} (h : Typed g l) : ThreadOk g l := by
  unfold ThreadOk
  split
  · exact absurd h.1 id
  · exact absurd h.1 id
  · exact h

lemma ThreadOk.typed {g : Sig} {l : List Op} (h : ThreadOk g l) (h1 : spinning l = false)
    (h2 : atSched l = false) : Typed g l := by
  unfold ThreadOk at h
  split at h
  · simp [spinning] at h1
  · simp [atSched] at h2
  · exact h

/-- The slot a thread is filling after an operation. -/
def Op.embAfter (m : Mem) (ch : Choice) (emb : Option (Slot × Nat)) : Op → Option (Slot × Nat)
  | allocproc => (m.proc.find Proc.isUnused).map fun i => (i, 1)
  | freeKstack i => some (i, 1)
  | allocKstack i => match ch with
    | .page _ => some (i, 2)
    | _ => some (i, 1)
  | copyuvm i => match ch with
    | .page _ => some (i, 4)
    | _ => some (i, 3)
  | forkUnused _ | forkRunnable _ => none
  | allocContext i => some (i, 3)
  | forkParent i => some (i, 5)
  | _ => emb

section

attribute [local simp] Typed Op.pre Op.post Op.switches Store.pre Lock.allowed lockOf

lemma typed_exitOps {g : Sig} (r : List Op) (hh : g.held = []) (he : g.emb = none) :
    Typed g (exitOps ++ r) := by
  obtain ⟨held, ie, emb, sch⟩ := g
  subst hh he
  simp [exitOps]

lemma typed_stampQvalue {g : Sig} {r : List Op} (hh : g.held = []) (hr : Typed g r) :
    Typed g (stampQvalue ++ r) := by
  obtain ⟨held, ie, emb, sch⟩ := g
  subst hh
  simpa [stampQvalue] using hr

lemma typed_yield {g : Sig} {r : List Op} (flag : SchedFlag) (hh : g.held = []) (hr : Typed g r) :
    Typed g (yield flag ++ r) := by
  obtain ⟨held, ie, emb, sch⟩ := g
  subst hh
  cases flag <;> simpa [yield, stampQvalue] using hr

lemma typed_wakeup {g : Sig} {r : List Op} (c : Chan) (hp : .ptable ∉ g.held) (hr : Typed g r) :
    Typed g (wakeup c ++ r) := by
  obtain ⟨held, ie, emb, sch⟩ := g
  simpa [wakeup, hp] using hr

lemma typed_sleep {g : Sig} {r : List Op} (c : Chan) {lk : Lock} (hh : g.held = [lk]) (hr : Typed g r) :
    Typed g (sleep c lk ++ r) := by
  obtain ⟨held, ie, emb, sch⟩ := g
  subst hh
  cases lk <;> simpa [sleep] using hr

lemma typed_forkPublish {g : Sig} {r : List Op} (flag : SchedFlag) (i : Slot) (pid : Int)
    (hh : g.held = []) (he : g.emb = some (i, 5)) (hr : Typed { g with emb := none } r) :
    Typed g (forkPublish flag i pid ++ r) := by
  obtain ⟨held, ie, emb, sch⟩ := g
  subst hh he
  cases flag <;> simpa [forkPublish] using hr

lemma typed_syscall {g : Sig} {r : List Op} (sc : Syscall) (hh : g.held = []) (he : g.emb = none)
    (hs : g.sch = false) (hr : Typed g r) : Typed g (sc.ops ++ r) := by
  obtain ⟨held, ie, emb, sch⟩ := g
  subst hh he hs
  cases sc with
  | exit => exact typed_exitOps r rfl rfl
  | fork | wait | wait2 | kill | nice | sleep | other =>
    simpa [Syscall.ops, forkOps, sysSleep] using hr

lemma typed_kcode {g : Sig} {r e : List Op} {mk : Option Nat → Op} {b : Bool} {h : Option Nat}
    {ch : Choice} (hpre : ∀ h g, (mk h).pre g ↔ g.held = lockOf h)
    (hpost : ∀ h g, (mk h).post g = { g with held := [] }) (hsw : ∀ h, (mk h).switches = false)
    (hh : g.held = lockOf h) (hr : Typed { g with held := [] } r)
    (he : kcodeOps mk b h ch = some e) : Typed g (e ++ r) := by
  obtain ⟨held, ie, emb, sch⟩ := g
  subst hh
  have again (h' : Option Nat) : Typed ⟨lockOf h', ie, emb, sch⟩ (mk h' :: r) := by
    refine ⟨(hpre h' _).mpr rfl, Or.inr ?_⟩
    rw [hpost, hsw]
    exact hr
  have hp : .ptable ∉ lockOf h := by cases h <;> simp
  cases h with
  | none =>
    cases ch <;> simp only [kcodeOps, Option.some.injEq, reduceCtorEq] at he <;> subst he
    case go => exact hr
    case lock n => simpa using again (some n)
    case wake n => simpa using typed_wakeup (.other n) hp (again none)
  | some n =>
    cases ch <;> simp only [kcodeOps, Option.some.injEq, reduceCtorEq] at he
    case unlock => subst he; simpa using again none
    case wake n' => subst he; simpa using typed_wakeup (.other n') hp (again (some n))
    case sleepOn n' =>
      split_ifs at he
      simp only [Option.some.injEq] at he
      subst he
      simpa using typed_sleep (.other n') (by rfl) (again (some n))

end

/-- A typed thread is typed after a step that acts on memory. -/
theorem act_typed {flag : SchedFlag} {c : CpuId} {self : Option Slot} {ch : Choice} {m m' : Mem}
    {op : Op} {r e : List Op} {g : Sig} (ht : Typed g (op :: r))
    (h : act flag c self ch m op = some (m', e)) (hop : ∀ st, op ≠ schedAs st) :
    Typed { g with emb := op.embAfter m ch g.emb } (e ++ r) := by
  obtain ⟨held, ie, emb, sch⟩ := g
  cases op <;> try (simp [act] at h; done)
  all_goals
    have hc := typed_cons ht (by simp)
    simp only [Op.pre, Op.post] at hc
    obtain ⟨hpre, hr⟩ := hc
    simp only [act, Option.some.injEq, Prod.mk.injEq, Option.map_eq_some_iff] at h
  -- operations that put nothing in front of the thread
  case tick | freeKstack | forkUnused | forkRunnable | wakeup1 =>
    obtain ⟨-, rfl⟩ := h
    simpa only [Op.embAfter, List.nil_append] using hr
  case np | forkParent | late | wakeupParent | reparent =>
    obtain ⟨j, -, -, rfl⟩ := h
    simpa only [Op.embAfter, List.nil_append] using hr
  case store f =>
    cases self <;> obtain ⟨-, rfl⟩ := Prod.mk.inj (Option.some.inj h) <;>
      simpa only [Op.embAfter, List.nil_append] using hr
  case syscall sc =>
    obtain ⟨-, rfl⟩ := h
    exact typed_syscall sc hpre.1 hpre.2.1 hpre.2.2 hr
  case ifKilledExit u =>
    cases self with
    | none => obtain ⟨-, rfl⟩ := Prod.mk.inj (Option.some.inj h); exact hr
    | some i =>
      obtain ⟨-, rfl⟩ := Prod.mk.inj (Option.some.inj h)
      split_ifs with hk
      · exact typed_exitOps r hpre.1 (hpre.2 (by simp_all))
      · exact hr
  case timerIrq =>
    obtain ⟨-, rfl⟩ := h
    obtain ⟨rfl, rfl⟩ := hpre
    split_ifs
    · simpa [Op.embAfter, timerOps, wakeup, Typed, Op.pre, Op.post, Op.switches, Store.pre, Lock.allowed] using hr
    · exact hr
  case ifYield =>
    cases self with
    | none => obtain ⟨-, rfl⟩ := Prod.mk.inj (Option.some.inj h); exact hr
    | some i =>
      obtain ⟨-, rfl⟩ := Prod.mk.inj (Option.some.inj h)
      split_ifs
      · exact typed_yield flag hpre.1 hr
      · exact hr
  case schedAs st => exact absurd rfl (hop st)
  case allocproc =>
    obtain ⟨rfl, rfl, rfl⟩ := hpre
    cases hf : m.proc.find Proc.isUnused with
    | none =>
      rw [hf] at h
      obtain ⟨-, rfl⟩ := Prod.mk.inj (Option.some.inj h)
      simpa [Op.embAfter, hf, Typed, Op.pre, Op.post, Op.switches, Store.pre] using hr
    | some i =>
      rw [hf] at h
      obtain ⟨-, rfl⟩ := Prod.mk.inj (Option.some.inj h)
      simpa [Op.embAfter, hf, Typed, Op.pre, Op.post, Op.switches] using hr
  case allocKstack i | copyuvm i =>
    obtain ⟨rfl, rfl⟩ := hpre
    cases ch <;> simp only [reduceCtorEq] at h
    case page n =>
      split_ifs at h
      obtain ⟨-, rfl⟩ := Prod.mk.inj (Option.some.inj h)
      simpa [Op.embAfter, forkBody, lockOf, Typed, Op.pre, Op.post, Op.switches] using hr
    case noPage =>
      obtain ⟨-, rfl⟩ := Prod.mk.inj (Option.some.inj h)
      simpa [Op.embAfter, Typed, Op.pre, Op.post, Op.switches, Store.pre] using hr
  case forkPid i =>
    obtain ⟨-, rfl⟩ := h
    exact typed_forkPublish flag i _ hpre.1 hpre.2 hr
  case forkretFirst =>
    obtain ⟨-, rfl⟩ := h
    subst hpre
    split_ifs
    · simpa [Op.embAfter, Typed, Op.pre, Op.post, Op.switches, lockOf] using hr
    · exact hr
  case exit =>
    obtain ⟨j, -, -, rfl⟩ := h
    split_ifs
    · simp [Typed, Op.pre, Op.switches]
    · exact hr
  case wait two =>
    obtain ⟨j, -, h⟩ := h
    obtain ⟨rfl, rfl⟩ := hpre
    split at h
    · obtain ⟨-, rfl⟩ := Prod.mk.inj h
      simpa [Op.embAfter, Typed, Op.pre, Op.post, Op.switches, Store.pre] using hr
    · split_ifs at h
      · obtain ⟨-, rfl⟩ := Prod.mk.inj h
        simpa [Op.embAfter, Typed, Op.pre, Op.post, Op.switches, Store.pre] using hr
      · obtain ⟨-, rfl⟩ := Prod.mk.inj h
        simpa [Op.embAfter, sleep, Typed, Op.pre, Op.post, Op.switches, Store.pre] using hr
  case kill pid =>
    obtain ⟨rfl, rfl⟩ := hpre
    split at h <;> obtain ⟨-, rfl⟩ := Prod.mk.inj (Option.some.inj h) <;>
      simpa [Op.embAfter, Typed, Op.pre, Op.post, Op.switches, Store.pre] using hr
  case nice =>
    obtain ⟨j, -, -, rfl⟩ := h
    obtain ⟨rfl, rfl⟩ := hpre
    split_ifs <;>
      simpa [Op.embAfter, stampQvalue, Typed, Op.pre, Op.post, Op.switches, Store.pre, Lock.allowed] using hr
  case yieldMedium =>
    obtain ⟨j, -, -, rfl⟩ := h
    split_ifs
    · exact typed_stampQvalue hpre hr
    · exact hr
  case sleepTicks0 n =>
    obtain ⟨-, rfl⟩ := h
    exact ⟨hpre, Or.inr hr⟩
  case sleepTest n t0 =>
    obtain ⟨-, rfl⟩ := h
    obtain ⟨rfl, rfl⟩ := hpre
    split_ifs <;> simpa [Op.embAfter, Typed, Op.pre, Op.post, Op.switches, Store.pre] using hr
  case sleepKilled n t0 =>
    obtain ⟨j, -, -, rfl⟩ := h
    obtain ⟨rfl, rfl⟩ := hpre
    split_ifs
    · simpa [Op.embAfter, Typed, Op.pre, Op.post, Op.switches, Store.pre] using hr
    · simpa [Op.embAfter, sleep, Typed, Op.pre, Op.post, Op.switches, Store.pre, Lock.allowed] using hr
  case kcode hl | kcodeNosleep hl =>
    obtain ⟨e', he, -, rfl⟩ := h
    exact typed_kcode (fun _ _ => Iff.rfl) (fun _ _ => rfl) (fun _ => rfl) hpre hr he

end Os132

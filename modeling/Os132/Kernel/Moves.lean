import Os132.Kernel.Record

/-!
# The moves of a thread

`step_moves` says for a step of a CPU that runs a process what the process has left to execute
afterwards; the disciplines of single routines are checked against this list. The thread of any
other process stays as it is, except that `allocproc` builds the one of a new process.
-/

namespace Os132

open Op

variable {flag : SchedFlag} {ncpu : ℕ} {s s' : State} {c d : CpuId} {lb : Label} {a : Action}
  {emb : Slot → Option (Slot × ℕ)} {op : Op} {r : List Op} {p j : Slot}

/-- The operations that a thread leaves behind without touching kernel memory. -/
def Op.plain : Op → Bool
  | release _ | iret | allocContext _ => true
  | _ => false

/-- What process `p` has left to execute after a step of its CPU, and the memory after the step. -/
inductive Moves (flag : SchedFlag) (s : State) (c : CpuId) (p : Slot) : Action → List Op → Mem → Prop
  | timer (hie : (s.cpu c).ie = true) :
      Moves flag s c p .timer (trapTimer ((s.ops c).head? == some user) ++ s.ops c) s.mem
  | device (hie : (s.cpu c).ie = true) :
      Moves flag s c p .device (trapDevice ((s.ops c).head? == some user) ++ s.ops c) s.mem
  | acquire (lk : Lock) (r : List Op) (ch : Choice) (ho : s.ops c = acquire lk :: r) :
      Moves flag s c p (.exec ch) (spin lk :: r) s.mem
  | spin (lk : Lock) (r : List Op) (ch : Choice) (ho : s.ops c = spin lk :: r) : Moves flag s c p (.exec ch) r s.mem
  | plain (op : Op) (r : List Op) (ch : Choice) (ho : s.ops c = op :: r) (hop : op.plain = true) :
      Moves flag s c p (.exec ch) r s.mem
  | syscall (sc : Syscall) (r : List Op) (ho : s.ops c = user :: r) :
      Moves flag s c p (.exec (.syscall sc)) (trapSyscall sc ++ user :: r) s.mem
  | fault (r : List Op) (ho : s.ops c = user :: r) :
      Moves flag s c p (.exec .fault) (trapFault ++ user :: r) s.mem
  | leave (st : ProcState) (r : List Op) (ch : Choice) (ho : s.ops c = schedAs st :: r) :
      Moves flag s c p (.exec ch) (Op.sched :: r)
        { s.mem with proc := s.mem.proc.set p fun q => { q with state := st } }
  | sched (r : List Op) (ch : Choice) (ho : s.ops c = Op.sched :: r) : Moves flag s c p (.exec ch) r s.mem
  | act (op : Op) (r : List Op) (ch : Choice) (m' : Mem) (e : List Op) (ho : s.ops c = op :: r)
      (hst : ∀ st, op ≠ schedAs st) (ha : act flag c (some p) ch s.mem op = some (m', e)) :
      Moves flag s c p (.exec ch) (e ++ r) m'
  | panic (r : List Op) (ch : Choice) (msg : String) (ho : s.ops c = Op.panic msg :: r) :
      Moves flag s c p (.exec ch) (s.ops c) s.mem

lemma Inv.not_sched_op (hi : Inv s emb) (hp : (s.cpu c).proc = some p) (ho : s.ops c = op :: r)
    (hop : ∀ g : Sig, op.pre g → g.sch = true) (hs : ∀ lk, op ≠ spin lk) (hs' : op ≠ Op.sched) : False := by
  obtain ⟨g, hok, -, hsch⟩ := hi.cpu c
  have hpre := (hok.typed ho hs hs').1
  rw [hop g hpre, hp] at hsch
  simp at hsch

lemma kstk_of_setOps {l : List Op} (hp : (s.cpu c).proc = some p) : (s.setOps c l).kstk p = l := by
  rw [State.setOps_kstk, if_pos hp]

theorem execOp_moves {ch : Choice} (hi : Inv s emb) (hp : (s.cpu c).proc = some p) (ho : s.ops c = op :: r)
    (h : execOp flag c ch r s op = some s') : Moves flag s c p (.exec ch) (s'.kstk p) s'.mem := by
  obtain ⟨g, hok, hemb, -⟩ := hi.cpu c
  cases op
  case acquire lk =>
    obtain ⟨hl, -⟩ := cpuOk_acquire hok ho
    simp only [execOp, if_neg hl, Option.some.injEq] at h
    subst h
    simpa [kstk_of_setOps hp] using @Moves.acquire flag s c p lk r ch ho
  case spin lk =>
    simp only [execOp] at h
    split_ifs at h with hl
    obtain rfl := Option.some.inj h
    simpa [kstk_of_setOps hp] using @Moves.spin flag s c p lk r ch ho
  case sched =>
    simp only [execOp, Option.some.injEq] at h
    subst h
    rw [(hi.schedStep ho hp).1]
    simpa [kstk_of_setOps hp] using @Moves.sched flag s c p r ch ho
  case panic msg =>
    simp only [execOp, Option.some.injEq] at h
    subst h
    have hm := @Moves.panic flag s c p r ch msg ho
    rwa [ops_of_proc hp] at hm
  case schedTop => exact absurd (hi.not_sched_op hp ho (fun _ h => h.2) (by simp) (by simp)) id
  case schedTicks => exact absurd (hi.not_sched_op hp ho (fun _ h => h.2) (by simp) (by simp)) id
  case scan => exact absurd (hi.not_sched_op hp ho (fun _ h => h.2) (by simp) (by simp)) id
  case choose => exact absurd (hi.not_sched_op hp ho (fun _ h => h.2) (by simp) (by simp)) id
  case release lk =>
    obtain ⟨hl, heq, -⟩ := cpuOk_release hok ho
    simp only [execOp, Option.some.injEq] at h
    subst h
    rw [heq]
    simpa [State.unlock, kstk_of_setOps hp] using @Moves.plain flag s c p _ r ch ho rfl
  case iret =>
    simp only [execOp, Option.some.injEq] at h
    subst h
    simpa [kstk_of_setOps hp] using @Moves.plain flag s c p _ r ch ho rfl
  case allocContext i =>
    simp only [execOp, Option.some.injEq] at h
    subst h
    have hpi : p ≠ i := by
      rintro rfl
      have ht := hok.typed ho (by simp) (by simp)
      obtain ⟨q, -, hq⟩ := Option.bind_eq_some_iff.mp (hemb ▸ ht.1.2)
      have := hi.state_of_cur hp (by rw [ho]; rfl)
      simp [(hi.fork q p 2 hq).state] at this
    simpa [hpi, kstk_of_setOps hp] using @Moves.plain flag s c p _ r ch ho rfl
  case schedAs st =>
    simp only [execOp, Os132.act, hp, Option.map_some, Option.some.injEq] at h
    subst h
    simpa [kstk_of_setOps hp] using @Moves.leave flag s c p st r ch ho
  case user =>
    simp only [execOp] at h
    cases ch <;> simp only [Option.some.injEq, reduceCtorEq] at h <;> subst h
    case syscall sc => simpa [kstk_of_setOps hp] using @Moves.syscall flag s c p sc r ho
    case fault => simpa [kstk_of_setOps hp] using @Moves.fault flag s c p r ho
  all_goals
    simp only [execOp, Option.map_eq_some_iff] at h
    obtain ⟨⟨m', e⟩, ha, rfl⟩ := h
    rw [hp] at ha
    simpa [kstk_of_setOps hp] using Moves.act _ r ch m' e ho (by simp) ha

theorem step_moves (hi : Inv s emb) (h : step flag ncpu lb s = some s') (hp : (s.cpu lb.cpu).proc = some p) :
    Moves flag s lb.cpu p lb.action (s'.kstk p) s'.mem := by
  unfold step at h
  split_ifs at h
  cases ha : lb.action with
  | timer | device =>
    rw [ha] at h
    simp only [interrupt] at h
    split_ifs at h with hie
    obtain rfl := Option.some.inj h
    simp only [State.setCpu_kstk, kstk_of_setOps hp, State.setCpu_mem, State.setOps_mem]
    first | exact .timer hie | exact .device hie
  | exec ch =>
    rw [ha] at h
    cases ho : s.ops lb.cpu with
    | nil => simp [ho] at h
    | cons op r =>
      simp only [ho] at h
      exact execOp_moves hi hp ho h

/-- A CPU drops a lock in `release` only. -/
lemma step_release (hi : Inv s emb) (h : step flag ncpu lb s = some s') {lk : Lock} (hl : s.lock lk = some lb.cpu) :
    s'.lock lk = some lb.cpu ∨ ∃ r, s.ops lb.cpu = release lk :: r := by
  unfold step at h
  split_ifs at h
  cases ha : lb.action with
  | timer | device =>
    rw [ha] at h
    simp only [interrupt] at h
    split_ifs at h
    obtain rfl := Option.some.inj h
    exact Or.inl (by simpa using hl)
  | exec ch =>
    rw [ha] at h
    cases ho : s.ops lb.cpu with
    | nil => simp [ho] at h
    | cons op r =>
      simp only [ho] at h
      cases op
      case release lk' =>
        by_cases hlk : lk' = lk
        · exact Or.inr ⟨r, by rw [hlk]⟩
        · left
          obtain ⟨g, hok, -⟩ := hi.cpu lb.cpu
          obtain ⟨-, heq, -⟩ := cpuOk_release hok ho
          simp only [execOp, Option.some.injEq] at h
          rw [← h, heq]
          simpa [State.unlock, Ne.symm hlk] using hl
      case spin lk' =>
        left
        simp only [execOp] at h
        split_ifs at h
        obtain rfl := Option.some.inj h
        by_cases hlk : lk = lk' <;> simp [hlk, ← hl]
      all_goals
        left
        rw [← hl]
      case acquire lk' =>
        simp only [execOp] at h
        split_ifs at h <;> obtain rfl := Option.some.inj h
        · rfl
        · simp
      case user =>
        simp only [execOp] at h
        cases ch <;> simp only [Option.some.injEq, reduceCtorEq] at h <;> subst h <;> simp
      case sched =>
        cases hp : (s.cpu lb.cpu).proc with
        | none =>
          simp only [execOp, State.schedStep, hp, Option.some.injEq] at h
          rw [← h]
          rfl
        | some p =>
          simp only [execOp, (hi.schedStep ho hp).1, Option.some.injEq] at h
          rw [← h]
          simp
      case panic | iret | allocContext | schedTop | schedTicks =>
        simp only [execOp, Option.some.injEq] at h
        rw [← h]
        first | rfl | simp
      case scan i =>
        simp only [execOp] at h
        split_ifs at h <;> obtain rfl := Option.some.inj h <;> simp [State.scanned, State.dispatch]
      case choose =>
        simp only [execOp, Option.some.injEq] at h
        rw [← h]
        split <;> simp [State.scanned, State.dispatch]
      all_goals
        simp only [execOp, Option.map_eq_some_iff] at h
        obtain ⟨r, -, rfl⟩ := h
        simp

end Os132

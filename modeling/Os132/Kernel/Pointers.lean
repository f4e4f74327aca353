import Os132.Kernel.Quantum
import Os132.Kernel.Passes
import Os132.Kernel.Startup

/-!
# The process pointers of `scheduler` in every run

`past` records for each CPU what its scans have found. It decides which pointers the code after a
scan can read, whatever the other CPUs and the processes do in between.
-/

namespace Os132

open Op

variable {flag : SchedFlag} {ncpu n : ℕ} {s s' : State} {c d : CpuId} {lb : Label} {a : Action}
  {emb : Slot → Option (Slot × ℕ)} {op : Op} {r e : List Op} {l l' : SchedLocals} {tbl tbl' : Table} {j : Slot}

/-- The process pointers that CPU `c` reads through or dispatches at its next step: `t` in the scan,
the others after it. -/
def State.pointers (flag : SchedFlag) (s : State) (c : CpuId) : List (Option ℕ) :=
  match s.ops c with
  | scan i :: _ => if i < NPROC then [some (s.cpu c).loc.wrap] else []
  | choose :: _ => (s.cpu c).loc.reads flag s.proc
  | _ => []

/-- CPU `c` looks at a process that its scan assigns to a pointer. -/
def State.finds (flag : SchedFlag) (s : State) (c : CpuId) (lb : Label) : Bool :=
  decide (lb.cpu = c) && match lb.action, s.ops c with
    | .exec _, scan i :: _ => decide (i < NPROC) && s.proc.classed flag (s.cpu c).loc.slot
    | _, _ => false

/-- CPU `c` begins a pass. -/
def State.begins (s : State) (c : CpuId) (lb : Label) : Bool :=
  decide (lb.cpu = c) && match lb.action, s.ops c with
    | .exec _, schedTop :: _ => true
    | _, _ => false

def Past.next (q : Past) (flag : SchedFlag) (s : State) (c : CpuId) (lb : Label) : Past :=
  if s.begins c lb then ⟨q.ever, false, (s.cpu c).loc.top.head⟩
  else ⟨q.ever || s.finds flag c lb, q.now || s.finds flag c lb, q.start⟩

/-- The past of CPU `c` after `k` steps. -/
def past (r : StartupRun flag ncpu n) (c : CpuId) : ℕ → Past
  | 0 => ⟨false, false, none⟩
  | k + 1 => match r.label k with
    | none => past r c k
    | some lb => (past r c k).next flag (r.state k).state c lb

/-! ### The thread of a scheduler -/

/-- Nothing in front of `q` is the scheduler's own. -/
def Ahead (q l : List Op) : Prop := ∃ e, (∀ o ∈ e, o.ofScheduler = false) ∧ l = e ++ q

lemma Ahead.append {q r e : List Op} (h : Ahead q r) (he : ∀ o ∈ e, o.ofScheduler = false) : Ahead q (e ++ r) := by
  obtain ⟨f, hf, rfl⟩ := h
  refine ⟨e ++ f, fun o ho => ?_, (List.append_assoc ..).symm⟩
  rcases List.mem_append.1 ho with ho | ho
  · exact he o ho
  · exact hf o ho

/-- A step of another operation leaves the scheduler's own where they are. -/
lemma Ahead.next {q r : List Op} (h : Ahead q (op :: r)) (hop : op.ofScheduler = false)
    (hq : ∀ o ∈ q.head?, o.ofScheduler = true) :
    Ahead q r := by
  obtain ⟨f, hf, heq⟩ := h
  cases f with
  | nil =>
    rw [List.nil_append] at heq
    have := hq op (by simp [← heq])
    rw [hop] at this
    cases this
  | cons o f =>
    rw [List.cons_append] at heq
    obtain ⟨-, rfl⟩ := List.cons.inj heq
    exact ⟨f, fun o ho => hf o (by simp [ho]), rfl⟩

lemma Ahead.head {q r : List Op} (h : Ahead q (op :: r)) (hop : op.ofScheduler = true) : q = op :: r := by
  obtain ⟨f, hf, heq⟩ := h
  cases f with
  | nil => exact heq.symm
  | cons o f =>
    have := hf o (by simp)
    rw [List.cons_append] at heq
    rw [(List.cons.inj heq).1, this] at hop
    cases hop

section

variable {m m' : Mem} {ch : Choice}

lemma act_plain {self : Option Slot} (ha : act flag c self ch m op = some (m', e)) : ∀ o ∈ e, o.ofScheduler = false := by
  by_cases ht : op = timerIrq
  · subst ht
    obtain ⟨-, rfl⟩ := Prod.mk.inj (Option.some.inj ha)
    split_ifs <;> simp [timerOps, wakeup, Op.ofScheduler]
  · by_cases hst : ∃ st, op = schedAs st
    · obtain ⟨st, rfl⟩ := hst
      obtain ⟨i, -, hi⟩ := Option.map_eq_some_iff.1 ha
      obtain ⟨-, rfl⟩ := Prod.mk.inj hi
      simp [Op.ofScheduler]
    · intro o ho
      exact (act_emits ha (fun st hs => hst ⟨st, hs⟩) ht o ho).2.1

end

lemma Inv.idle_of_scheduler (hi : Inv s emb) (ho : s.ops c = op :: r) (hop : op.ofScheduler = true) :
    (s.cpu c).proc = none := by
  obtain ⟨g, hok, -, hsch⟩ := hi.cpu c
  have hpre := (hok.typed ho (by rintro lk rfl; simp [Op.ofScheduler] at hop)
    (by rintro rfl; simp [Op.ofScheduler] at hop)).1
  have hg : g.sch = true := by cases op <;> simp_all [Op.ofScheduler, Op.pre]
  rw [hg] at hsch
  exact Option.isNone_iff_eq_none.1 hsch.symm

/-- How a step of CPU `c` changes the local variables of its scheduler and what its thread has left. -/
inductive SchedMove (flag : SchedFlag) (s : State) (c : CpuId) (lb : Label) (s' : State) : Prop
  /-- A process runs, or comes back from `sched`. -/
  | away (hp : (s.cpu c).proc ≠ none) (hops : (s'.cpu c).ops = (s.cpu c).ops) (hloc : (s'.cpu c).loc = (s.cpu c).loc)
      (hb : s.begins c lb = false) (hf : s.finds flag c lb = false)
  /-- An interrupt. -/
  | irq (e : List Op) (he : ∀ o ∈ e, o.ofScheduler = false) (hie : (s.cpu c).ie = true) (hp' : (s'.cpu c).proc = none)
      (hops : (s'.cpu c).ops = e ++ (s.cpu c).ops) (hloc : (s'.cpu c).loc = (s.cpu c).loc)
      (hb : s.begins c lb = false) (hf : s.finds flag c lb = false)
  /-- An operation that is not the scheduler's own. -/
  | next (op : Op) (r e : List Op) (ho : (s.cpu c).ops = op :: r) (hop : op.ofScheduler = false)
      (he : ∀ o ∈ e, o.ofScheduler = false) (hp' : (s'.cpu c).proc = none) (hops : (s'.cpu c).ops = e ++ r)
      (hloc : (s'.cpu c).loc = (s.cpu c).loc) (hb : s.begins c lb = false) (hf : s.finds flag c lb = false)
  | halt (hcpu : s'.cpu c = s.cpu c) (hm : s'.mem = s.mem) (hb : s.begins c lb = false) (hf : s.finds flag c lb = false)
  | top (r : List Op) (ho : (s.cpu c).ops = schedTop :: r) (hp' : (s'.cpu c).proc = none)
      (hops : (s'.cpu c).ops = schedPass) (hloc : (s'.cpu c).loc = (s.cpu c).loc.top) (hb : s.begins c lb = true)
  | ticks (r : List Op) (now : ℤ) (ho : (s.cpu c).ops = schedTicks :: r) (hp' : (s'.cpu c).proc = none)
      (hops : (s'.cpu c).ops = r) (hloc : (s'.cpu c).loc = { (s.cpu c).loc with currentime := now })
      (hm : s'.mem = s.mem) (hb : s.begins c lb = false) (hf : s.finds flag c lb = false)
  | visit (i : ℕ) (r : List Op) (ho : (s.cpu c).ops = scan i :: r) (hp' : (s'.cpu c).proc = none)
      (hops : (s'.cpu c).ops = scan (i + 1) :: r) (hloc : (s'.cpu c).loc = (visit flag (s.cpu c).loc s.proc).1)
      (hm : s'.proc = (visit flag (s.cpu c).loc s.proc).2.1) (hb : s.begins c lb = false)
      (hf : s.finds flag c lb = s.proc.classed flag (s.cpu c).loc.slot)
  | stop (i : ℕ) (r : List Op) (hi : NPROC ≤ i) (ho : (s.cpu c).ops = scan i :: r) (hp' : (s'.cpu c).proc = none)
      (hops : (s'.cpu c).ops = r) (hloc : (s'.cpu c).loc = (s.cpu c).loc) (hm : s'.mem = s.mem)
      (hb : s.begins c lb = false) (hf : s.finds flag c lb = false)
  | choose (r : List Op) (ho : (s.cpu c).ops = choose :: r) (hops : (s'.cpu c).ops = r)
      (hloc : (s'.cpu c).loc = (s.cpu c).loc.pick flag s.proc) (hb : s.begins c lb = false) (hf : s.finds flag c lb = false)

lemma visit_stays (hf : flag ≠ .rr) : (visit flag l tbl).2.2 = false := by
  unfold visit
  dsimp only
  split_ifs
  · rfl
  · cases flag
    · exact absurd rfl hf
    · rfl
    · rfl
    · rfl

lemma setOps_idle {q : List Op} (hp : (s.cpu c).proc = none) : ((s.setOps c q).cpu c).ops = q := by
  rw [State.setOps_self, if_pos hp]

lemma setOps_away {q : List Op} (hp : (s.cpu c).proc ≠ none) : ((s.setOps c q).cpu c).ops = (s.cpu c).ops := by
  rw [State.setOps_self, if_neg hp]

lemma finds_of_op (flag : SchedFlag) {ch : Choice} (hl : lb.action = .exec ch) (ho : s.ops c = op :: r)
    (hop : op.ofScheduler = false) :
    s.begins c lb = false ∧ s.finds flag c lb = false := by
  unfold State.begins State.finds
  rw [hl, ho]
  cases op <;> simp_all [Op.ofScheduler]

lemma finds_of_irq (flag : SchedFlag) (s : State) (c : CpuId) (hl : ∀ ch, lb.action ≠ .exec ch) :
    s.begins c lb = false ∧ s.finds flag c lb = false := by
  unfold State.begins State.finds
  cases ha : lb.action with
  | exec ch => exact absurd ha (hl ch)
  | timer => simp
  | device => simp

/-- An interrupt, seen from the scheduler. -/
lemma interrupt_move {handler : Bool → List Op} (hh : ∀ u, ∀ o ∈ handler u, o.ofScheduler = false)
    (hl : ∀ ch, lb.action ≠ .exec ch) (h : interrupt s c handler = some s') : SchedMove flag s c lb s' := by
  obtain ⟨hb, hf⟩ := finds_of_irq flag s c hl
  unfold interrupt at h
  split_ifs at h with hie
  obtain rfl := Option.some.inj h
  by_cases hp : (s.cpu c).proc = none
  · refine .irq (handler ((s.ops c).head? == some user)) (hh _) hie ?_ ?_ ?_ hb hf
    · simp [State.setOps_self, hp]
    · simp [State.setOps_self, hp, ops_of_none hp]
    · simp [State.setOps_self]
  · refine .away hp ?_ ?_ hb hf
    · simp [State.setOps_self, hp]
    · simp [State.setOps_self]

section

variable {ch : Choice}

lemma plain_move (hl : lb.action = .exec ch) (ho : s.ops c = op :: r) (hop : op.ofScheduler = false)
    (he : ∀ o ∈ e, o.ofScheduler = false) (hloc : (s'.cpu c).loc = (s.cpu c).loc)
    (hidle : (s.cpu c).proc = none → (s'.cpu c).proc = none ∧ (s'.cpu c).ops = e ++ r)
    (haway : (s.cpu c).proc ≠ none → (s'.cpu c).ops = (s.cpu c).ops) : SchedMove flag s c lb s' := by
  obtain ⟨hb, hf⟩ := finds_of_op flag hl ho hop
  by_cases hp : (s.cpu c).proc = none
  · obtain ⟨hp', hops⟩ := hidle hp
    exact .next op r e (ops_of_none hp ▸ ho) hop he hp' hops hloc hb hf
  · exact .away hp (haway hp) hloc hb hf

lemma halt_move (hl : lb.action = .exec ch) (ho : s.ops c = op :: r) (hop : op.ofScheduler = false) :
    SchedMove flag s c lb s.panic := by
  obtain ⟨hb, hf⟩ := finds_of_op flag hl ho hop
  exact .halt rfl rfl hb hf

lemma exec_move (hi : Inv s emb) (hf : flag ≠ .rr) (hc : lb.cpu = c) (hl : lb.action = .exec ch) (ho : s.ops c = op :: r)
    (h : execOp flag c ch r s op = some s') : SchedMove flag s c lb s' := by
  by_cases hop : op.ofScheduler = true
  · have hp := hi.idle_of_scheduler ho hop
    have hops : (s.cpu c).ops = op :: r := ops_of_none hp ▸ ho
    cases op <;> simp only [Op.ofScheduler, Bool.false_eq_true] at hop
    case schedTop =>
      obtain rfl := Option.some.inj h
      refine .top r hops ?_ ?_ ?_ ?_
      · simp [State.setOps_self, hp]
      · simp [State.setOps_self, hp]
      · simp [State.setOps_self]
      · simp [State.begins, hc, hl, ho]
    case schedTicks =>
      obtain rfl := Option.some.inj h
      refine .ticks r (int32 s.mem.ticks) hops ?_ ?_ ?_ ?_ ?_ ?_
      · simp [State.setOps_self, hp]
      · simp [State.setOps_self, hp]
      · simp [State.setOps_self]
      · simp
      · unfold State.begins
        rw [hl, ho]
        simp
      · unfold State.finds
        rw [hl, ho]
        simp
    case scan i =>
      have hb : s.begins c lb = false := by
        unfold State.begins
        rw [hl, ho]
        simp
      simp only [execOp] at h
      by_cases hlt : i < NPROC
      · simp only [if_pos hlt, visit_stays hf, Bool.false_eq_true, if_false, Option.some.injEq] at h
        subst h
        refine .visit i r hops ?_ ?_ ?_ rfl hb ?_
        · simp [State.scanned, State.setOps_self, hp]
        · simp [State.scanned, State.setOps_self, hp]
        · simp [State.scanned]
        · simp [State.finds, hc, hl, ho, hlt]
      · rw [if_neg hlt] at h
        obtain rfl := Option.some.inj h
        refine .stop i r (Nat.le_of_not_lt hlt) hops ?_ ?_ ?_ ?_ hb ?_
        · simp [State.setOps_self, hp]
        · simp [State.setOps_self, hp]
        · simp [State.setOps_self]
        · simp
        · unfold State.finds
          rw [hl, ho]
          simp [hlt]
    case choose =>
      have hb : s.begins c lb = false := by
        unfold State.begins
        rw [hl, ho]
        simp
      have hfd : s.finds flag c lb = false := by
        unfold State.finds
        rw [hl, ho]
        simp
      simp only [execOp] at h
      obtain rfl := Option.some.inj h
      cases hch : (s.cpu c).loc.chosen flag s.proc with
      | none =>
        refine .choose r hops ?_ ?_ hb hfd
        · simp [State.scanned, State.setOps_self, hp]
        · simp [State.scanned]
      | some i =>
        refine .choose r hops ?_ ?_ hb hfd
        · simp [State.scanned, State.dispatch, State.setOps_self, hp]
        · simp [State.scanned, State.dispatch]
  · rw [Bool.not_eq_true] at hop
    -- the thread loses `op` and gets `e` in its place, the scheduler's variables stay
    have hmove (t : State) (f : Cpu → Cpu) (g : List Op) (hg : ∀ o ∈ g, o.ofScheduler = false)
        (hfl : ∀ k, (f k).loc = k.loc ∧ (f k).proc = k.proc ∧ (f k).ops = k.ops)
        (ht : t.cpu c = f ((s.setOps c (g ++ r)).cpu c)) : SchedMove flag s c lb t := by
      refine plain_move hl ho hop hg ?_ (fun hp => ⟨?_, ?_⟩) fun hp => ?_
      · rw [ht, (hfl _).1, State.setOps_self]
      · rw [ht, (hfl _).2.1, State.setOps_self]
        exact hp
      · rw [ht, (hfl _).2.2, setOps_idle hp]
      · rw [ht, (hfl _).2.2, setOps_away hp]
    have hid (t : State) (g : List Op) (hg : ∀ o ∈ g, o.ofScheduler = false)
        (ht : t.cpu c = (s.setOps c (g ++ r)).cpu c) :
        SchedMove flag s c lb t := hmove t id g hg (fun k => ⟨rfl, rfl, rfl⟩) ht
    cases op
    case acquire lk =>
      simp only [execOp] at h
      split_ifs at h
      · obtain rfl := Option.some.inj h
        exact halt_move hl ho hop
      · obtain rfl := Option.some.inj h
        exact hmove _ Cpu.pushcli [spin lk] (by simp [Op.ofScheduler]) (fun k => ⟨rfl, rfl, rfl⟩) (by simp)
    case spin lk =>
      simp only [execOp] at h
      split_ifs at h
      obtain rfl := Option.some.inj h
      exact hid _ [] (by simp) rfl
    case release lk =>
      obtain rfl := Option.some.inj h
      unfold State.releaseStep
      split_ifs
      · cases (s.cpu c).popcli with
        | none => exact halt_move hl ho hop
        | some k =>
          exact hmove _ (fun d => { d with ncli := k.ncli, ie := k.ie }) [] (by simp) (fun _ => ⟨rfl, rfl, rfl⟩)
            (by simp [State.unlock])
      · exact halt_move hl ho hop
    case iret =>
      obtain rfl := Option.some.inj h
      exact hmove _ (fun k => { k with ie := true }) [] (by simp) (fun _ => ⟨rfl, rfl, rfl⟩) (by simp)
    case user =>
      cases ch <;> simp only [execOp, reduceCtorEq] at h
      case syscall sc =>
        obtain rfl := Option.some.inj h
        exact hid _ (trapSyscall sc ++ [user]) (by simp [trapSyscall, Op.ofScheduler]) (by simp)
      case fault =>
        obtain rfl := Option.some.inj h
        exact hmove _ (fun k => { k with ie := false }) (trapFault ++ [user]) (by simp [trapFault, Op.ofScheduler])
          (fun _ => ⟨rfl, rfl, rfl⟩) (by simp)
    case sched =>
      obtain rfl := Option.some.inj h
      unfold State.schedStep
      cases hp : (s.cpu c).proc with
      | none => exact halt_move hl ho hop
      | some p =>
        dsimp only
        split_ifs
        · exact halt_move hl ho hop
        · obtain ⟨hb, hfd⟩ := finds_of_op flag hl ho hop
          refine .away (by simp [hp]) ?_ ?_ hb hfd
          · simp [State.setOps_self, hp]
          · simp [State.setOps_self]
    case panic msg =>
      obtain rfl := Option.some.inj h
      exact halt_move hl ho hop
    case allocContext i =>
      obtain rfl := Option.some.inj h
      exact hid _ [] (by simp) rfl
    case schedTop | schedTicks | scan | choose => simp [Op.ofScheduler] at hop
    all_goals
      simp only [execOp, Option.map_eq_some_iff] at h
      obtain ⟨q, ha, rfl⟩ := h
      exact hid _ q.2 (act_plain ha) rfl

end

lemma step_move (hi : Inv s emb) (hf : flag ≠ .rr) (h : step flag ncpu lb s = some s') :
    SchedMove flag s lb.cpu lb s' := by
  unfold step at h
  split_ifs at h
  cases ha : lb.action with
  | timer =>
    rw [ha] at h
    exact interrupt_move (by simp [trapTimer, Op.ofScheduler]) (by simp [ha]) h
  | device =>
    rw [ha] at h
    exact interrupt_move (by simp [trapDevice, Op.ofScheduler]) (by simp [ha]) h
  | exec ch =>
    rw [ha] at h
    cases ho : s.ops lb.cpu with
    | nil => simp [ho] at h
    | cons op r =>
      simp only [ho] at h
      exact exec_move hi hf rfl ha ho h

/-! ### The pass of a CPU -/

/-- Where the thread of a scheduler is in a pass: before it reads `ticks`, before the scan, in the scan
or after it. -/
inductive Position (q : Past) : List Op → Prop
  | early (l : List Op) (h : Ahead (schedPass.drop 1) l) (hn : q.now = false) : Position q l
  | locking (l : List Op) (h : Ahead (schedPass.drop 4) l) (hn : q.now = false) : Position q l
  | scan (i : ℕ) : Position q (scan i :: schedPass.drop 5)
  | choose : Position q (schedPass.drop 5)

inductive Stage (flag : SchedFlag) (s : State) (c : CpuId) (q : Past) : Prop
  | between (h : Ahead [schedTop] (s.cpu c).ops) (hl : q.ever = true → ((s.cpu c).loc.lead flag).isSome)
  | pass (hp : (s.cpu c).proc = none) (h : InPass flag s.proc (s.cpu c).loc q) (hat : Position q (s.cpu c).ops)

/-- What the local variables of the scheduler of CPU `c` owe to its past. -/
structure Tracks (flag : SchedFlag) (s : State) (c : CpuId) (q : Past) : Prop where
  ranged : Ranged (s.cpu c).loc
  fresh : q.ever = false → Unassigned (s.cpu c).loc
  stage : Stage flag s c q

variable {q : Past}

lemma InPass.of_states (h : InPass flag tbl l q)
    (hs : l.lowflag = true → ∀ i : Slot, (tbl i).state = .runnable → (tbl' i).state = .runnable) :
    InPass flag tbl' l q := by
  refine ⟨h.frr, h.grt, h.high, h.medium, fun hl => ?_, h.ever, h.now, h.idle⟩
  obtain ⟨i, hi, hr⟩ := h.low hl
  exact ⟨i, hi, hs hl i hr⟩

lemma InPass.not_low (h : InPass flag tbl l q) (hn : q.now = false) : l.lowflag ≠ true := by
  obtain ⟨-, -, hl, -⟩ := h.idle hn
  simp [hl]

/-- Where a scheduler is that executes one of its own operations. -/
lemma Stage.own (h : Stage flag s c q) (ho : (s.cpu c).ops = op :: r) (hop : op.ofScheduler = true) :
    op = schedTop ∧ (q.ever = true → ((s.cpu c).loc.lead flag).isSome) ∨
    InPass flag s.proc (s.cpu c).loc q ∧ (op = schedTicks ∧ r = schedPass.drop 2 ∧ q.now = false ∨
      (∃ i, op = scan i) ∧ r = schedPass.drop 5 ∨ op = Op.choose ∧ r = schedPass.drop 6) := by
  cases h with
  | between ha hl =>
    rw [ho] at ha
    exact Or.inl ⟨(List.cons.inj (ha.head hop)).1.symm, hl⟩
  | pass hp hin hat =>
    refine Or.inr ⟨hin, ?_⟩
    generalize (s.cpu c).ops = l at ho hat
    cases hat with
    | early _ ha hn =>
      rw [ho] at ha
      obtain ⟨h1, h2⟩ := List.cons.inj (ha.head hop)
      exact Or.inl ⟨h1.symm, h2.symm, hn⟩
    | locking _ ha hn =>
      rw [ho] at ha
      obtain ⟨h1, h2⟩ := List.cons.inj (ha.head hop)
      exact Or.inr (Or.inl ⟨⟨0, h1.symm⟩, h2.symm⟩)
    | scan i =>
      obtain ⟨h1, h2⟩ := List.cons.inj ho
      exact Or.inr (Or.inl ⟨⟨i, h1.symm⟩, h2.symm⟩)
    | choose =>
      obtain ⟨h1, h2⟩ := List.cons.inj ho
      exact Or.inr (Or.inr ⟨h1.symm, h2.symm⟩)

/-- A scan that has found something holds `ptable.lock`. -/
lemma Stage.locked (hi : Inv s emb) (hp : (s.cpu c).proc = none) (hat : Position q (s.cpu c).ops) (hn : q.now = true) :
    s.lock .ptable = some c := by
  have hops : s.ops c = (s.cpu c).ops := ops_of_none hp
  generalize (s.cpu c).ops = l at hat hops
  cases hat with
  | early _ _ h | locking _ _ h =>
    rw [hn] at h
    cases h
  | scan i => exact (hi.scanning hops rfl).1
  | choose =>
    have hops : s.ops c = Op.choose :: schedPass.drop 6 := hops
    exact (hi.scanning hops rfl).1

/-- While a CPU holds `ptable.lock` no other one takes a process out of `RUNNABLE`. -/
lemma runnable_locked (hi : Inv s emb) (h : StepKind flag s c a s') (hl : s.lock .ptable = some d) (hd : d ≠ c)
    (hr : (s.proc j).state = .runnable) : (s'.proc j).state = .runnable := by
  by_cases hj : (s.cpu c).proc = some j
  · rcases h.state_self hi hj with heq | ⟨st, r, ho, -⟩
    · exact heq.trans hr
    · exact absurd (not_guarded hi hl hd ho) (by simp [guarded])
  · rcases h.state_other hi hj with hsh | ⟨-, -, hcur⟩
    · rw [hr] at hsh
      generalize (s'.proc j).state = x at hsh
      cases hsh
      rfl
    · have hat : atSched (s.ops c) = false := by
        by_contra hat
        exact hd (Option.some.inj (hl.symm.trans (hi.atSched_lock (by simpa using hat))))
      have hop : ∀ op r, s.ops c = op :: r → op.switches = false := by
        intro op r ho
        by_contra hsw
        exact hd (Option.some.inj (hl.symm.trans (hi.scanning ho (by simpa using hsw)).1))
      exact absurd ((h.proc_self hat hop).symm.trans hcur) hj

lemma Past.next_same (hb : s.begins c lb = false) (hf : s.finds flag c lb = false) : q.next flag s c lb = q := by
  simp [Past.next, hb, hf]

/-- The steps of other CPUs. -/
lemma Tracks.other (hi : Inv s emb) (ht : Tracks flag s c q) (h : StepKind flag s d a s') (hd : c ≠ d) :
    Tracks flag s' c q := by
  have hcpu := h.cpu_ne hd
  refine ⟨by rw [hcpu]; exact ht.ranged, by rw [hcpu]; exact ht.fresh, ?_⟩
  cases ht.stage with
  | between ha hl => exact .between (by rw [hcpu]; exact ha) (by rw [hcpu]; exact hl)
  | pass hp hin hat =>
    refine .pass (by rw [hcpu]; exact hp) ?_ (by rw [hcpu]; exact hat)
    rw [hcpu]
    apply hin.of_states
    intro hl i hr
    have hn : q.now = true := by
      by_contra hn
      exact hin.not_low (by simpa using hn) hl
    exact runnable_locked hi h (Stage.locked hi hp hat hn) hd hr

/-- A step in which nothing of the scheduler's own happens. -/
lemma Stage.plain (hi : Inv s emb) (hs : Stage flag s c q) (hloc : (s'.cpu c).loc = (s.cpu c).loc)
    (hp : (s.cpu c).proc = none → (s'.cpu c).proc = none)
    (hold : ∀ l, (∀ o ∈ l.head?, o.ofScheduler = true) → Ahead l (s.cpu c).ops → Ahead l (s'.cpu c).ops)
    (hat : (∃ i, (s.cpu c).ops = scan i :: schedPass.drop 5) ∨ (s.cpu c).ops = schedPass.drop 5 →
      (s.cpu c).proc = none → s.lock .ptable = some c → False) : Stage flag s' c q := by
  cases hs with
  | between ha hl => exact .between (hold _ (by simp [Op.ofScheduler]) ha) (by rw [hloc]; exact hl)
  | pass hpn hin hpos =>
    have hlow : q.now = false → InPass flag s'.proc (s'.cpu c).loc q := by
      intro hn
      rw [hloc]
      exact hin.of_states fun hl => absurd hl (hin.not_low hn)
    have hops : s.ops c = (s.cpu c).ops := ops_of_none hpn
    generalize hl : (s.cpu c).ops = l at hpos hold hat hops
    cases hpos with
    | early _ ha hn => exact .pass (hp hpn) (hlow hn) (.early _ (hold _ (by simp [schedPass, Op.ofScheduler]) ha) hn)
    | locking _ ha hn => exact .pass (hp hpn) (hlow hn) (.locking _ (hold _ (by simp [schedPass, Op.ofScheduler]) ha) hn)
    | scan i => exact absurd (hi.scanning hops rfl).1 fun hlk => hat (Or.inl ⟨i, rfl⟩) hpn hlk
    | choose =>
      have hops : s.ops c = Op.choose :: schedPass.drop 6 := hops
      exact absurd (hi.scanning hops rfl).1 fun hlk => hat (Or.inr rfl) hpn hlk

theorem Tracks.own (hi : Inv s emb) (hf : flag ≠ .rr) (ht : Tracks flag s c q) (h : SchedMove flag s c lb s') :
    Tracks flag s' c (q.next flag s c lb) := by
  cases h with
  | away hp hops hloc hb hfd =>
    rw [Past.next_same hb hfd]
    refine ⟨by rw [hloc]; exact ht.ranged, by rw [hloc]; exact ht.fresh, ?_⟩
    exact ht.stage.plain hi hloc (fun h => absurd h hp) (fun l _ ha => hops ▸ ha) fun _ h => absurd h hp
  | irq e he hie hp' hops hloc hb hfd =>
    rw [Past.next_same hb hfd]
    refine ⟨by rw [hloc]; exact ht.ranged, by rw [hloc]; exact ht.fresh, ?_⟩
    refine ht.stage.plain hi hloc (fun _ => hp') (fun l _ ha => hops ▸ ha.append he) fun _ _ hlk => ?_
    rw [hi.ie_of_lock hlk] at hie
    cases hie
  | next op r e ho hop he hp' hops hloc hb hfd =>
    rw [Past.next_same hb hfd]
    refine ⟨by rw [hloc]; exact ht.ranged, by rw [hloc]; exact ht.fresh, ?_⟩
    have hold : ∀ l, (∀ o ∈ l.head?, o.ofScheduler = true) → Ahead l (s.cpu c).ops → Ahead l (s'.cpu c).ops := by
      intro l hl ha
      rw [ho] at ha
      exact hops ▸ (ha.next hop hl).append he
    refine ht.stage.plain hi hloc (fun _ => hp') hold fun hat _ _ => ?_
    rcases hat with ⟨i, hat⟩ | hat
    · rw [← (List.cons.inj (hat.symm.trans ho)).1] at hop
      cases hop
    · rw [← (List.cons.inj (hat.symm.trans ho)).1] at hop
      cases hop
  | halt hcpu hm hb hfd =>
    rw [Past.next_same hb hfd]
    refine ⟨by rw [hcpu]; exact ht.ranged, by rw [hcpu]; exact ht.fresh, ?_⟩
    cases ht.stage with
    | between ha hl => exact .between (by rw [hcpu]; exact ha) (by rw [hcpu]; exact hl)
    | pass hp hin hat =>
      exact .pass (by rw [hcpu]; exact hp) (by rw [hcpu, State.proc, hm]; exact hin) (by rw [hcpu]; exact hat)
  | top r ho hp' hops hloc hb =>
    have hq : q.next flag s c lb = ⟨q.ever, false, (s.cpu c).loc.top.head⟩ := by simp [Past.next, hb]
    rw [hq]
    refine ⟨by rw [hloc]; exact ht.ranged.top, fun hn => by rw [hloc]; exact (ht.fresh hn).top, ?_⟩
    rcases ht.stage.own ho rfl with ⟨-, hl⟩ | ⟨-, ⟨h1, -⟩ | ⟨⟨i, h1⟩, -⟩ | ⟨h1, -⟩⟩
    · refine .pass hp' (by rw [hloc]; exact InPass.top hl) (.early _ ?_ rfl)
      rw [hops]
      exact ⟨[acquire .tickslock], by simp [Op.ofScheduler], rfl⟩
    all_goals cases h1
  | ticks r now ho hp' hops hloc hm hb hfd =>
    rw [Past.next_same hb hfd]
    refine ⟨?_, fun hn => ?_, ?_⟩
    · rw [hloc]
      exact ⟨ht.ranged.p, ht.ranged.high, ht.ranged.medium, ht.ranged.head⟩
    · rw [hloc]
      exact ⟨(ht.fresh hn).p, (ht.fresh hn).high, (ht.fresh hn).medium, (ht.fresh hn).head⟩
    · rcases ht.stage.own ho rfl with ⟨h1, -⟩ | ⟨hin, ⟨-, hr, hn⟩ | ⟨⟨i, h1⟩, -⟩ | ⟨h1, -⟩⟩
      · cases h1
      · refine .pass hp' ?_ (.locking _ ?_ hn)
        · rw [hloc, State.proc, hm]
          exact ⟨hin.frr, hin.grt, hin.high, hin.medium, hin.low, hin.ever, hin.now, hin.idle⟩
        · rw [hops, hr]
          exact ⟨[release .tickslock, acquire .ptable], by simp [Op.ofScheduler], rfl⟩
      all_goals cases h1
  | visit i r ho hp' hops hloc hm hb hfd =>
    have hq : q.next flag s c lb = ⟨q.ever || s.proc.classed flag (s.cpu c).loc.slot,
        q.now || s.proc.classed flag (s.cpu c).loc.slot, q.start⟩ := by
      simp [Past.next, hb, hfd]
    have ha := @visit_assigns flag (s.cpu c).loc s.proc hf
    rw [hq]
    refine ⟨by rw [hloc]; exact ht.ranged.visit ha, fun hn => ?_, ?_⟩
    · simp only [Bool.or_eq_false_iff] at hn
      rw [hn.2] at ha
      rw [hloc]
      exact (ht.fresh hn.1).visit ha
    · rcases ht.stage.own ho rfl with ⟨h1, -⟩ | ⟨hin, ⟨h1, -⟩ | ⟨-, hr⟩ | ⟨h1, -⟩⟩
      · cases h1
      · cases h1
      · refine .pass hp' ?_ (by rw [hops, hr]; exact .scan (i + 1))
        rw [hloc, hm]
        exact hin.visit ha (fun j => visit_field flag _ _ j Proc.state fun _ _ _ => rfl) fun hc => classed_runnable hc
      · cases h1
  | stop i r _ ho hp' hops hloc hm hb hfd =>
    rw [Past.next_same hb hfd]
    refine ⟨by rw [hloc]; exact ht.ranged, by rw [hloc]; exact ht.fresh, ?_⟩
    rcases ht.stage.own ho rfl with ⟨h1, -⟩ | ⟨hin, ⟨h1, -⟩ | ⟨-, hr⟩ | ⟨h1, -⟩⟩
    · cases h1
    · cases h1
    · exact .pass hp' (by rw [hloc, State.proc, hm]; exact hin) (by rw [hops, hr]; exact .choose)
    · cases h1
  | choose r ho hops hloc hb hfd =>
    rw [Past.next_same hb hfd]
    refine ⟨by rw [hloc]; exact ht.ranged.pick, fun hn => by rw [hloc]; exact (ht.fresh hn).pick, ?_⟩
    rcases ht.stage.own ho rfl with ⟨h1, -⟩ | ⟨hin, ⟨h1, -⟩ | ⟨⟨i, h1⟩, -⟩ | ⟨-, hr⟩⟩
    · cases h1
    · cases h1
    · cases h1
    · refine .between ?_ fun he => by rw [hloc]; exact (hin.pick hf he).1
      rw [hops, hr]
      exact ⟨[release .ptable], by simp [Op.ofScheduler], rfl⟩

/-! ### Runs -/

lemma begins_other (flag : SchedFlag) (s : State) (hd : lb.cpu ≠ c) :
    s.begins c lb = false ∧ s.finds flag c lb = false := by
  simp [State.begins, State.finds, hd]

lemma Tracks.step (hi : Inv s emb) (hf : flag ≠ .rr) (ht : Tracks flag s c q) (h : step flag ncpu lb s = some s') :
    Tracks flag s' c (q.next flag s c lb) := by
  by_cases hc : lb.cpu = c
  · have hmove := step_move hi hf h
    rw [hc] at hmove
    exact ht.own hi hf hmove
  · obtain ⟨hb, hfd⟩ := begins_other flag s hc
    rw [Past.next_same hb hfd]
    exact ht.other hi (step_kind hi h).1 fun h => hc h.symm

/-- `userinit` finds no process that a scan has looked at. -/
lemma Tracks.userinit (he : Empty s) (ht : Tracks flag s c q) (hc : c ≠ 0) : Tracks flag s.userinit c q := by
  have hcpu := userinit_cpu_ne (s := s) hc
  refine ⟨by rw [hcpu]; exact ht.ranged, by rw [hcpu]; exact ht.fresh, ?_⟩
  cases ht.stage with
  | between ha hl => exact .between (by rw [hcpu]; exact ha) (by rw [hcpu]; exact hl)
  | pass hp hin hat =>
    refine .pass (by rw [hcpu]; exact hp) ?_ (by rw [hcpu]; exact hat)
    rw [hcpu]
    apply hin.of_states
    intro _ i hr
    rw [he.unused i] at hr
    cases hr

/-- Until `userinit` the boot processor has no past. -/
lemma tracks_run (r : StartupRun flag ncpu n) (hf : flag ≠ .rr) (c : CpuId) : ∀ k, k ≤ n →
    (c = 0 ∧ (r.state k).up = false ∧ past r c k = ⟨false, false, none⟩ ∧ Unassigned ((r.state k).state.cpu c).loc) ∨
    (c ≠ 0 ∨ (r.state k).up = true) ∧ Tracks flag (r.state k).state c (past r c k) := by
  intro k hk
  induction k with
  | zero =>
    have h0 := r.starts
    obtain ⟨hp, hhigh, hmed⟩ := h0.unassigned c
    have hu : Unassigned ((r.state 0).state.cpu c).loc := ⟨hp, hhigh, hmed, h0.head c⟩
    by_cases hc : c = 0
    · exact Or.inl ⟨hc, h0.up, rfl, hu⟩
    · have hops := h0.ops c
      rw [if_neg hc] at hops
      refine Or.inr ⟨Or.inl hc, hu.ranged, fun _ => hu, .between ⟨[], by simp, hops⟩ fun h => ?_⟩
      cases h
  | succ k ih =>
    obtain ⟨⟨emb, hi⟩, hempty⟩ := startup_inv r k (by omega)
    have hstep := r.steps k (by omega)
    rw [past]
    cases hlb : r.label k with
    | none =>
      rw [hlb] at hstep
      simp only [Startup.step] at hstep
      split_ifs at hstep with hup
      have he := hempty (by simpa using hup)
      rw [← Option.some.inj hstep]
      rcases ih (by omega) with ⟨hc, -, hq, hu⟩ | ⟨hc, ht⟩
      · subst hc
        have hcpu : (r.state k).state.userinit.cpu 0 = { (r.state k).state.cpu 0 with ops := [schedTop] } := by
          simp [State.userinit]
        refine Or.inr ⟨Or.inr rfl, ?_⟩
        rw [hq]
        refine ⟨by rw [hcpu]; exact hu.ranged, fun _ => by rw [hcpu]; exact hu, .between ?_ fun h => by cases h⟩
        rw [hcpu]
        exact ⟨[], by simp, rfl⟩
      · exact Or.inr ⟨Or.inr rfl, ht.userinit he (hc.resolve_right hup)⟩
    | some lb =>
      rw [hlb] at hstep
      obtain ⟨s', hs', hs⟩ := Option.map_eq_some_iff.1 hstep
      rw [← hs]
      rcases ih (by omega) with ⟨hc, hup, hq, hu⟩ | ⟨hc, ht⟩
      · subst hc
        have hne := (hempty hup).cpu_ne hi hs'
        obtain ⟨hb, hfd⟩ := begins_other flag (r.state k).state hne
        refine Or.inl ⟨rfl, hup, ?_, ?_⟩
        · exact (Past.next_same hb hfd).trans hq
        · change Unassigned (s'.cpu 0).loc
          rw [(step_kind hi hs').1.cpu_ne hne.symm]
          exact hu
      · exact Or.inr ⟨hc, ht.step hi hf hs'⟩

/-- What the pointers owe to the past: a CPU that is about to choose reads through assigned pointers into the table
exactly when its scans have found a process and, under `_3Q`, its latest scan has if it began at the end of the table. A
CPU that scans always does, and under `_RR` nothing else is read. -/
lemma pointers_iff_past (r : StartupRun flag ncpu n) (c : CpuId) : ∀ k, k ≤ n →
    ((∀ x ∈ (r.state k).state.pointers flag c, ∃ i < NPROC, x = some i) ↔
      (flag ≠ .rr → ∀ rest, (r.state k).state.ops c = choose :: rest → (past r c k).ever = true ∧
        (flag = .q3 → (past r c k).start = some NPROC → (past r c k).now = true))) := by
  intro k hk
  by_cases hchoose : ∃ rest, (r.state k).state.ops c = Op.choose :: rest
  · obtain ⟨rest, ho⟩ := hchoose
    have hptr : (r.state k).state.pointers flag c = ((r.state k).state.cpu c).loc.reads flag (r.state k).state.proc := by
      simp [State.pointers, ho]
    rw [hptr]
    by_cases hf : flag = .rr
    · subst hf
      simp [SchedLocals.reads]
    · obtain ⟨⟨emb, hi⟩, hempty⟩ := startup_inv r k hk
      have hops : ((r.state k).state.cpu c).ops = Op.choose :: rest := ops_of_none (hi.idle_of_scheduler ho rfl) ▸ ho
      rcases tracks_run r hf c k hk with ⟨hc, hup, -⟩ | ⟨-, ht⟩
      · subst hc
        rw [(hempty hup).ops] at hops
        cases hops
      · rcases ht.stage.own hops rfl with ⟨h1, -⟩ | ⟨hin, -⟩
        · cases h1
        · rw [hin.reads_iff hf ht.ranged ht.fresh]
          exact ⟨fun h _ _ _ => h, fun h => h hf rest ho⟩
  · refine iff_of_true ?_ fun _ rest ho => absurd ⟨rest, ho⟩ hchoose
    intro x hx
    unfold State.pointers at hx
    split at hx
    · split_ifs at hx
      · rw [List.mem_singleton.1 hx]
        exact ⟨_, SchedLocals.wrap_lt _, rfl⟩
      · cases hx
    · exact absurd ⟨_, ‹_›⟩ hchoose
    · cases hx

end Os132

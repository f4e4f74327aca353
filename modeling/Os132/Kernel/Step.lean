import Os132.Kernel.Switch

/-!
# The kinds of steps

`step_kind` splits the steps of the machine into the few kinds that the later invariants have
to distinguish; the frame facts about other CPUs and other threads follow from it.
-/

namespace Os132

open Op

variable {flag : SchedFlag} {ncpu : Nat} {s s' : State} {c : CpuId} {lb : Label}
  {emb : Slot → Option (Slot × Nat)} {op : Op} {r : List Op}

/-- The kinds of steps of CPU `c`. -/
inductive StepKind (flag : SchedFlag) (s : State) (c : CpuId) : Action → State → Prop
  /-- An operation on kernel memory. -/
  | act (op : Op) (r : List Op) (ch : Choice) (m' : Mem) (e : List Op) (ho : s.ops c = op :: r)
      (hst : ∀ st, op ≠ schedAs st) (ha : act flag c (s.cpu c).proc ch s.mem op = some (m', e)) :
      StepKind flag s c (.exec ch) { s.setOps c (e ++ r) with mem := m' }
  /-- A process leaves `RUNNING`. -/
  | leave (st : ProcState) (r : List Op) (p : Slot) (ch : Choice) (ho : s.ops c = schedAs st :: r)
      (hp : (s.cpu c).proc = some p) : StepKind flag s c (.exec ch) { s.setOps c (Op.sched :: r) with
        mem := { s.mem with proc := s.mem.proc.set p fun q => { q with state := st } } }
  /-- A step of the lock, interrupt and scheduler code that leaves kernel memory in place. -/
  | thread (a : Action) (l : List Op) (s' : State) (hts : ThreadStep s s' c l) (hm : s'.mem = s.mem)
      (hp : s'.panicked = s.panicked) (h0 : atSched (s.ops c) = false)
      (hl : spinning l = false ∨ ∃ lk r, s.ops c = acquire lk :: r ∧ l = spin lk :: r ∧ s'.lock = s.lock) :
      StepKind flag s c a s'
  /-- `allocproc` builds a context. -/
  | context (i : Slot) (r : List Op) (ch : Choice) (ho : s.ops c = allocContext i :: r) :
      StepKind flag s c (.exec ch) { s.setOps c r with
        kstk := fun j => if j = i then forkret else (s.setOps c r).kstk j
        intena := fun j => if j = i then none else s.intena j }
  /-- `sched` switches to the scheduler. -/
  | sched (p : Slot) (r : List Op) (ch : Choice) (ho : s.ops c = Op.sched :: r) (hp : (s.cpu c).proc = some p) :
      StepKind flag s c (.exec ch) { (s.setOps c r).setCpu c fun k => { k with proc := none } with
        intena := fun j => if j = p then some (s.cpu c).intena else s.intena j }
  /-- The scan visits a slot. -/
  | visit (i : Nat) (r : List Op) (ch : Choice) (ho : s.ops c = scan i :: r) (hp : (s.cpu c).proc = none)
      (hi : i < NPROC) (hv : (visit flag (s.cpu c).loc s.proc).2.2 = false) :
      StepKind flag s c (.exec ch) (s.scanned c (scan (i + 1) :: r) (visit flag (s.cpu c).loc s.proc).1
        (visit flag (s.cpu c).loc s.proc).2.1)
  /-- The scan visits a slot and switches to its process. -/
  | visitRun (i : Nat) (r : List Op) (ch : Choice) (ho : s.ops c = scan i :: r) (hp : (s.cpu c).proc = none)
      (hi : i < NPROC) (hv : (visit flag (s.cpu c).loc s.proc).2.2 = true) :
      StepKind flag s c (.exec ch) ((s.scanned c (scan (i + 1) :: r) (visit flag (s.cpu c).loc s.proc).1
        (visit flag (s.cpu c).loc s.proc).2.1).dispatch c (s.cpu c).loc.slot)
  /-- The scheduler has found nothing to switch to. -/
  | chooseNone (r : List Op) (ch : Choice) (ho : s.ops c = choose :: r) (hp : (s.cpu c).proc = none)
      (hc : (s.cpu c).loc.chosen flag s.proc = none) :
      StepKind flag s c (.exec ch) (s.scanned c r ((s.cpu c).loc.pick flag s.proc) s.proc)
  /-- The scheduler switches to its choice. -/
  | choose (i : Slot) (r : List Op) (ch : Choice) (ho : s.ops c = choose :: r) (hp : (s.cpu c).proc = none)
      (hc : (s.cpu c).loc.chosen flag s.proc = some i) :
      StepKind flag s c (.exec ch) ((s.scanned c r ((s.cpu c).loc.pick flag s.proc) s.proc).dispatch c i)
  | panic (r : List Op) (ch : Choice) (ho : s.ops c = Op.sched :: r ∨ ∃ msg, s.ops c = Op.panic msg :: r) :
      StepKind flag s c (.exec ch) s.panic

lemma Inv.sched_none (hi : Inv s emb) (ho : s.ops c = op :: r) (hop : op.switches = true) :
    (s.cpu c).proc = none := by
  obtain ⟨g, hok, -, hsch⟩ := hi.cpu c
  have ht := hok.typed ho (by rintro lk rfl; simp [Op.switches] at hop) (by rintro rfl; simp [Op.switches] at hop)
  have hpre := ht.1
  have : g.sch = true := by cases op <;> simp_all [Op.switches, Op.pre]
  rw [this] at hsch
  exact Option.isNone_iff_eq_none.mp hsch.symm

lemma Inv.scanning (hi : Inv s emb) (ho : s.ops c = op :: r) (hop : op.switches = true) :
    s.lock .ptable = some c ∧ atSched (s.ops c) = false ∧ ∃ g, Typed g r := by
  obtain ⟨g, hok, -, -⟩ := hi.cpu c
  have ht := hok.typed ho (by rintro lk rfl; simp [Op.switches] at hop) (by rintro rfl; simp [Op.switches] at hop)
  have hr := typed_cons ht (by rintro msg rfl; simp [Op.switches] at hop)
  refine ⟨(hok.held _).mp ?_, by rw [ho]; exact ht.not_atSched, _, hr.2⟩
  have hpre := hr.1
  cases op <;> simp_all [Op.switches, Op.pre]

lemma Inv.next_typed (hi : Inv s emb) (ho : s.ops c = op :: r) (hop : op.switches = true) {p : Slot}
    (hp : (s.proc p).state = .runnable) :
    (∀ d, (s.cpu d).proc ≠ some p) ∧ ∃ g, Typed g (s.kstk p) := by
  obtain ⟨hl, h0, -⟩ := hi.scanning ho hop
  have hcur := hi.not_cur (p := p) hl h0 (by simp [hp])
  refine ⟨hcur, _, hi.parked p hcur (by simp [hp]) ((s.intena p).getD true) ?_⟩
  cases s.intena p <;> simp

theorem execOp_kind {ch : Choice} (hi : Inv s emb) (ho : s.ops c = op :: r)
    (h : execOp flag c ch r s op = some s') : StepKind flag s c (.exec ch) s' := by
  obtain ⟨g, hok, -, -⟩ := hi.cpu c
  cases op
  case acquire lk =>
    obtain ⟨hl, -⟩ := cpuOk_acquire hok ho
    simp only [execOp, if_neg hl, Option.some.injEq] at h
    subst h
    exact .thread _ _ _ (threadStep_setCpu s c _ _ (fun _ => rfl) (fun _ => rfl)) (by simp)
      (by unfold State.setOps; split <;> rfl) (by rw [ho]; rfl) (Or.inr ⟨lk, r, ho, rfl, by simp⟩)
  case spin lk =>
    simp only [execOp] at h
    split_ifs at h with hl
    obtain rfl := Option.some.inj h
    have hts := threadStep_setOps s c r s.mem
    have ht : Typed g (acquire lk :: r) := by simpa [ho, ThreadOk] using hok.thread
    refine .thread _ r _ ⟨hts.others, hts.proc, hts.kstk, hts.cops, hts.intena, fun m d hd => ?_⟩ (by simp)
      (by unfold State.setOps; split <;> rfl) (by rw [ho]; rfl) (Or.inl (typed_cons ht (by simp)).2.not_spinning)
    by_cases hm : m = lk
    · simp [hm, hl, Ne.symm hd]
    · simp [hm]
  case sched =>
    simp only [execOp, Option.some.injEq] at h
    subst h
    cases hp : (s.cpu c).proc with
    | none =>
      rw [State.schedStep, hp]
      exact .panic r ch (Or.inl ho)
    | some p =>
      rw [(hi.schedStep ho hp).1]
      exact .sched p r ch ho hp
  case panic msg =>
    simp only [execOp, Option.some.injEq] at h
    exact h ▸ .panic r ch (Or.inr ⟨msg, ho⟩)
  all_goals
    have hr := typed_cons (hok.typed ho (by simp) (by simp)) (by simp)
  case release lk =>
    obtain ⟨hl, heq, -⟩ := cpuOk_release hok ho
    simp only [execOp, Option.some.injEq] at h
    subst h
    rw [heq]
    exact .thread _ _ _ (threadStep_unlock s c lk r _ hl) (by simp [State.unlock])
      (by unfold State.unlock State.setOps; split <;> rfl) (by rw [ho]; rfl) (Or.inl hr.2.not_spinning)
  case schedAs st =>
    simp only [execOp, Os132.act, Option.map_map, Option.map_eq_some_iff] at h
    obtain ⟨p, hp, rfl⟩ := h
    exact .leave st r p ch ho hp
  case allocContext i =>
    simp only [execOp, Option.some.injEq] at h
    exact h ▸ .context i r ch ho
  case iret | schedTicks =>
    simp only [execOp, Option.some.injEq] at h
    subst h
    exact .thread _ _ _ (threadStep_setCpu s c _ _ (fun _ => rfl) (fun _ => rfl)) (by simp)
      (by unfold State.setOps; split <;> rfl) (by rw [ho]; rfl) (Or.inl hr.2.not_spinning)
  case schedTop =>
    simp only [execOp, Option.some.injEq] at h
    subst h
    exact .thread _ _ _ (threadStep_setCpu s c _ _ (fun _ => rfl) (fun _ => rfl)) (by simp)
      (by unfold State.setOps; split <;> rfl) (by rw [ho]; rfl) (Or.inl rfl)
  case user =>
    simp only [execOp] at h
    cases ch <;> simp only [Option.some.injEq, reduceCtorEq] at h <;> subst h
    case syscall sc =>
      exact .thread _ _ _ (threadStep_ops s c _) (by simp) (by unfold State.setOps; split <;> rfl)
        (by rw [ho]; rfl) (Or.inl rfl)
    case fault =>
      exact .thread _ _ _ (threadStep_setCpu s c _ _ (fun _ => rfl) (fun _ => rfl)) (by simp)
        (by unfold State.setOps; split <;> rfl) (by rw [ho]; rfl) (Or.inl rfl)
  case scan i =>
    have hp := hi.sched_none ho rfl
    simp only [execOp] at h
    split_ifs at h with hlt hv <;> obtain rfl := Option.some.inj h
    · exact .visitRun i r ch ho hp hlt hv
    · exact .visit i r ch ho hp hlt (by simpa using hv)
    · exact .thread _ _ _ (threadStep_ops s c _) (by simp) (by unfold State.setOps; split <;> rfl)
        (by rw [ho]; rfl) (Or.inl hr.2.not_spinning)
  case choose =>
    have hp := hi.sched_none ho rfl
    simp only [execOp, Option.some.injEq] at h
    subst h
    split
    · rename_i i hc
      exact .choose i r ch ho hp hc
    · rename_i hc
      exact .chooseNone r ch ho hp hc
  all_goals
    simp only [execOp, Option.map_eq_some_iff] at h
    obtain ⟨⟨m', e⟩, ha, rfl⟩ := h
    exact .act _ r ch m' e ho (by simp) ha

theorem step_kind (hi : Inv s emb) (h : step flag ncpu lb s = some s') :
    StepKind flag s lb.cpu lb.action s' ∧ s.panicked = false ∧ lb.cpu < ncpu := by
  unfold step at h
  split_ifs at h with h1
  obtain ⟨hpan, hcpu⟩ := not_or.mp h1
  refine ⟨?_, by simpa using hpan, Nat.lt_of_not_le hcpu⟩
  obtain ⟨g, hok, -, -⟩ := hi.cpu lb.cpu
  split at h
  case h_1 hact =>
    obtain ⟨l, hts, hm, hp, h0, -, hsp, -⟩ := cpuOk_interrupt hok (fun _ _ u _ => typed_trapTimer u) h
    exact .thread _ l _ hts hm hp h0 (Or.inl hsp)
  case h_2 hact =>
    obtain ⟨l, hts, hm, hp, h0, -, hsp, -⟩ := cpuOk_interrupt hok (fun _ _ u _ => typed_trapDevice u) h
    exact .thread _ l _ hts hm hp h0 (Or.inl hsp)
  case h_3 ch hact =>
    rw [hact]
    split at h
    · simp at h
    · rename_i ho
      exact execOp_kind hi ho h

namespace StepKind

variable {a : Action} {d : CpuId}

lemma cpu_ne (h : StepKind flag s c a s') (hd : d ≠ c) : s'.cpu d = s.cpu d := by
  cases h with
  | thread _ l _ hts => exact hts.others d hd
  | panic => rfl
  | act | leave | context | sched | visit | visitRun | chooseNone | choose =>
    simp [State.scanned, State.dispatch, State.setCpu_ne _ _ _ hd, State.setOps_ne _ _ _ hd]

lemma lock_ne (h : StepKind flag s c a s') (hd : d ≠ c) (lk : Lock) :
    s'.lock lk = some d ↔ s.lock lk = some d := by
  cases h with
  | thread _ l _ hts => exact hts.lock lk d hd
  | panic => exact Iff.rfl
  | act | leave | context | sched | visit | visitRun | chooseNone | choose =>
    simp [State.scanned, State.dispatch]

/-- A step rewrites the thread that its CPU runs, and no other process has. -/
lemma kstk_ne (hi : Inv s emb) (h : StepKind flag s c a s') {p : Slot} (hp : (s.cpu c).proc ≠ some p)
    (he : (s.proc p).state ≠ .embryo) : s'.kstk p = s.kstk p ∧ s'.intena p = s.intena p := by
  cases h with
  | thread _ l _ hts => exact ⟨by rw [hts.kstk, if_neg hp], by rw [hts.intena]⟩
  | panic => exact ⟨rfl, rfl⟩
  | act | leave => exact ⟨by simp [State.setOps_kstk, hp], by simp⟩
  | visit i r ch ho hpn | visitRun i r ch ho hpn | chooseNone r ch ho hpn | choose i r ch ho hpn =>
    exact ⟨by simp [State.scanned, State.dispatch, State.setOps_kstk, hpn],
      by simp [State.scanned, State.dispatch]⟩
  | sched q r ch ho hq =>
    have hqp : p ≠ q := fun h => hp (h ▸ hq)
    exact ⟨by simp [State.setOps_kstk, hp], by simp [hqp]⟩
  | context i r ch ho =>
    have hpi : p ≠ i := by
      rintro rfl
      obtain ⟨g, hok, hemb, -⟩ := hi.cpu c
      have ht := hok.typed ho (by simp) (by simp)
      obtain ⟨q, -, hq⟩ := Option.bind_eq_some_iff.mp (hemb ▸ ht.1.2)
      exact he (hi.fork q p 2 hq).state
    exact ⟨by simp [hpi, State.setOps_kstk, hp], by simp [hpi]⟩

lemma ops_ne (hi : Inv s emb) (h : StepKind flag s c a s') (hd : d ≠ c) : s'.ops d = s.ops d := by
  unfold State.ops
  rw [h.cpu_ne hd]
  cases hp : (s.cpu d).proc with
  | none => rfl
  | some p =>
    refine (h.kstk_ne hi (fun hc => hd (hi.inj d c p hp hc)) ?_).1
    intro he
    have := hi.cur d p hp
    rw [he] at this
    split_ifs at this
    simp at this

/-- A thread comes into the loop of `acquire` from the call of `acquire` only. -/
lemma spin_origin (hi : Inv s emb) (h : StepKind flag s c a s') {lk : Lock} (ho' : s'.ops c = spin lk :: r) :
    s.ops c = acquire lk :: r ∧ s'.lock = s.lock := by
  cases h with
  | thread _ l _ hts hm hp h0 hl =>
    rw [hts.ops] at ho'
    rcases hl with hl | ⟨lk', r', ho, rfl, hlock⟩
    · simp [ho', spinning] at hl
    · simp only [List.cons.injEq, Op.spin.injEq] at ho'
      obtain ⟨rfl, rfl⟩ := ho'
      exact ⟨ho, hlock⟩
  | act op r0 ch m' e ho hst ha =>
    obtain ⟨g, hok, -, -⟩ := hi.cpu c
    have ht := hok.typed ho (by rintro _ rfl; simp [Os132.act] at ha) (by rintro rfl; simp [Os132.act] at ha)
    have hsp := (act_typed ht ha hst).not_spinning
    rw [(threadStep_setOps s c (e ++ r0) m').ops] at ho'
    simp [ho', spinning] at hsp
  | leave st r0 p ch ho hp =>
    rw [(threadStep_setOps s c (Op.sched :: r0) _).ops] at ho'
    simp at ho'
  | context i r0 ch ho =>
    obtain ⟨g, hok, hemb, -⟩ := hi.cpu c
    have ht := hok.typed ho (by simp) (by simp)
    obtain ⟨p, hp, hpe⟩ := Option.bind_eq_some_iff.mp (hemb ▸ ht.1.2)
    have hpi : p ≠ i := by
      rintro rfl
      have := hi.state_of_cur hp (by rw [ho]; rfl)
      simp [(hi.fork p p 2 hpe).state] at this
    have hsp := (typed_cons ht (by simp)).2.not_spinning
    rw [ops_of_proc (p := p) (by simp [State.setOps_self, hp])] at ho'
    simp only [if_neg hpi, State.setOps_kstk, hp, if_true] at ho'
    simp [ho', spinning] at hsp
  | sched p r0 ch ho hp =>
    have hsp := (hi.sched c p hp true).not_spinning
    rw [ops_of_none (by simp)] at ho'
    simp [State.setOps_self, hp] at ho'
    simp [ho', spinning] at hsp
  | visit i r0 ch ho hp =>
    rw [ops_of_none (by simp [State.scanned, State.setOps_self, hp])] at ho'
    simp [State.scanned, State.setOps_self, hp] at ho'
  | chooseNone r0 ch ho hp =>
    obtain ⟨-, -, g, ht⟩ := hi.scanning ho rfl
    have hsp := ht.not_spinning
    rw [ops_of_none (by simp [State.scanned, State.setOps_self, hp])] at ho'
    simp [State.scanned, State.setOps_self, hp] at ho'
    simp [ho', spinning] at hsp
  | visitRun i r0 ch ho hp hlt hv =>
    obtain ⟨-, g, ht⟩ := hi.next_typed ho rfl (visit_switch hv).2
    have hsp := ht.not_spinning
    rw [ops_of_proc (p := (s.cpu c).loc.slot) (by simp [State.dispatch])] at ho'
    simp [State.dispatch, State.scanned, State.setOps_kstk, hp] at ho'
    simp [ho', spinning] at hsp
  | choose i r0 ch ho hp hc =>
    obtain ⟨-, g, ht⟩ := hi.next_typed ho rfl (SchedLocals.chosen_runnable hc)
    have hsp := ht.not_spinning
    rw [ops_of_proc (p := i) (by simp [State.dispatch])] at ho'
    simp [State.dispatch, State.scanned, State.setOps_kstk, hp] at ho'
    simp [ho', spinning] at hsp
  | panic r0 ch ho =>
    rw [show s.panic.ops c = s.ops c from rfl] at ho'
    rcases ho with ho | ⟨msg, ho⟩ <;> simp [ho] at ho'

end StepKind

end Os132

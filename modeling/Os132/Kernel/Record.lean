import Os132.Kernel.Step

/-!
# The changes of a record in a step

`step_rec` says for every step of the machine and every slot what the step does to the record of
the slot. The invariants about single fields are read off it.
-/

namespace Os132

open Op

variable {flag : SchedFlag} {ncpu : Nat} {s s' : State} {c d : CpuId} {lb : Label} {a : Action}
  {emb : Slot → Option (Slot × Nat)} {op : Op} {r : List Op} {j : Slot}

/-- The record of slot `j` after a step of CPU `c`. -/
inductive RecStep (flag : SchedFlag) (s : State) (c : CpuId) (a : Action) (j : Slot) : Proc → Prop
  | same : RecStep flag s c a j (s.proc j)
  | act (op : Op) (r : List Op) (ch : Choice) (p' : Proc) (ho : s.ops c = op :: r) (ha : a = .exec ch)
      (hst : ∀ st, op ≠ schedAs st) (h : ProcChange s.mem (s.cpu c).proc ch op j (s.proc j) p') :
      RecStep flag s c a j p'
  | leave (st : ProcState) (r : List Op) (ho : s.ops c = schedAs st :: r) (hj : (s.cpu c).proc = some j) :
      RecStep flag s c a j { s.proc j with state := st }
  | visit (i : Nat) (r : List Op) (q v : Int) (ho : s.ops c = scan i :: r) (hj : j = (s.cpu c).loc.slot)
      (hr : (s.proc j).state = .runnable)
      (hv : (visit flag (s.cpu c).loc s.proc).2.1 j = { s.proc j with quanta := q, qvalue := v }) :
      RecStep flag s c a j { s.proc j with quanta := q, qvalue := v }
  | visitRun (i : Nat) (r : List Op) (q v : Int) (ho : s.ops c = scan i :: r) (hj : j = (s.cpu c).loc.slot)
      (hr : (s.proc j).state = .runnable) (hf : flag = .rr)
      (hv : (visit flag (s.cpu c).loc s.proc).2.1 j = { s.proc j with quanta := q, qvalue := v }) :
      RecStep flag s c a j { s.proc j with quanta := q, qvalue := v, state := .running }
  | choose (r : List Op) (ho : s.ops c = choose :: r) (hr : (s.proc j).state = .runnable)
      (hc : (s.cpu c).loc.chosen flag s.proc = some j) : RecStep flag s c a j { s.proc j with state := .running }

theorem step_rec (h : StepKind flag s c a s') (j : Slot) : RecStep flag s c a j (s'.proc j) := by
  cases h with
  | act op r ch m' e ho hst ha => exact .act op r ch _ ho rfl hst (act_proc ha j)
  | leave st r p ch ho hp =>
    by_cases hj : j = p
    · subst hj
      simpa [State.proc] using @RecStep.leave flag s c (.exec ch) _ st r ho hp
    · simpa [State.proc, Table.set_of_ne _ _ hj] using RecStep.same
  | thread _ l _ hts hm =>
    rw [State.proc, hm]
    exact .same
  | context | sched =>
    simpa [State.proc] using RecStep.same
  | chooseNone | panic => exact .same
  | visit i r ch ho hp hlt hv =>
    change RecStep flag s c (.exec ch) j ((Os132.visit flag (s.cpu c).loc s.proc).2.1 j)
    rcases visit_proc flag (s.cpu c).loc s.proc j with h | ⟨hj, hr, q, v, h⟩
    · exact h ▸ .same
    · exact h ▸ .visit i r q v ho hj hr h
  | visitRun i r ch ho hp hlt hv =>
    obtain ⟨hf, hrun⟩ := visit_switch hv
    by_cases hj : j = (s.cpu c).loc.slot
    · obtain ⟨q, v, h⟩ : ∃ q v, (visit flag (s.cpu c).loc s.proc).2.1 j = { s.proc j with quanta := q, qvalue := v } := by
        rcases visit_proc flag (s.cpu c).loc s.proc j with h | ⟨-, -, h⟩
        · exact ⟨_, _, h⟩
        · exact h
      have heq : ((s.scanned c (scan (i + 1) :: r) (visit flag (s.cpu c).loc s.proc).1
          (visit flag (s.cpu c).loc s.proc).2.1).dispatch c (s.cpu c).loc.slot).proc j =
          { s.proc j with quanta := q, qvalue := v, state := .running } := by
        rw [← hj]
        simp [State.proc, State.dispatch, State.scanned, h]
      rw [heq]
      exact .visitRun i r q v ho hj (hj ▸ hrun) hf h
    · have heq : ((s.scanned c (scan (i + 1) :: r) (visit flag (s.cpu c).loc s.proc).1
          (visit flag (s.cpu c).loc s.proc).2.1).dispatch c (s.cpu c).loc.slot).proc j = s.proc j := by
        rcases visit_proc flag (s.cpu c).loc s.proc j with h | ⟨h, -⟩
        · simp [State.proc, State.dispatch, State.scanned, Table.set_of_ne _ _ hj, h]
        · exact absurd h hj
      exact heq ▸ .same
  | choose i r ch ho hp hc =>
    by_cases hj : j = i
    · subst hj
      have heq : ((s.scanned c r ((s.cpu c).loc.pick flag s.proc) s.proc).dispatch c j).proc j =
          { s.proc j with state := .running } := by
        simp [State.proc, State.dispatch, State.scanned]
      exact heq ▸ .choose r ho (SchedLocals.chosen_runnable hc) hc
    · have heq : ((s.scanned c r ((s.cpu c).loc.pick flag s.proc) s.proc).dispatch c i).proc j = s.proc j := by
        simp [State.proc, State.dispatch, State.scanned, Table.set_of_ne _ _ hj]
      exact heq ▸ .same

lemma Shift.mono {locked fresh fresh' : Prop} {x y : ProcState} (h : Shift locked fresh x y) (hf : fresh → fresh') :
    Shift locked fresh' x y := by
  cases h with
  | same => exact .same _
  | wake h => exact .wake h
  | reap h => exact .reap h
  | alloc => exact .alloc
  | free => exact .free
  | publish h => exact .publish (hf h)

lemma shift_of_eq {locked fresh : Prop} {x y : ProcState} (h : y = x) : Shift locked fresh x y :=
  h ▸ .same _

lemma Inv.act_sig {self : Option Slot} {ch : Choice} {m m' : Mem} {e : List Op} (hi : Inv s emb)
    (ho : s.ops c = op :: r) (h : act flag c self ch m op = some (m', e)) :
    ∃ g, CpuOk s c g ∧ Typed g (op :: r) ∧ g.emb = (s.cpu c).proc.bind emb ∧ g.sch = (s.cpu c).proc.isNone := by
  obtain ⟨g, hok, hemb, hsch⟩ := hi.cpu c
  exact ⟨g, hok, hok.typed ho (by rintro _ rfl; simp [act] at h) (by rintro rfl; simp [act] at h), hemb, hsch⟩

/-- The state of a record that is not the current process of the CPU. -/
theorem StepKind.state_other (hi : Inv s emb) (h : StepKind flag s c a s') (hj : (s.cpu c).proc ≠ some j) :
    Shift (s.lock .ptable = some c) (s.kstk j = forkret ∧ s.intena j = none) (s.proc j).state (s'.proc j).state ∨
      (s.proc j).state = .runnable ∧ (s'.proc j).state = .running ∧ (s'.cpu c).proc = some j := by
  cases h with
  | act op r ch m' e ho hst ha =>
    obtain ⟨g, hok, ht, hemb, -⟩ := hi.act_sig ho ha
    exact Or.inl (hi.act_shift ht.1 (hok.held .ptable).mp hemb ha hst j)
  | leave st r p ch ho hp =>
    have hjp : j ≠ p := fun h => hj (h ▸ hp)
    exact Or.inl (shift_of_eq (by simp [State.proc, Table.set_of_ne _ _ hjp]))
  | thread _ l _ hts hm => exact Or.inl (shift_of_eq (by simp [State.proc, hm]))
  | context | sched => exact Or.inl (shift_of_eq (by simp [State.proc]))
  | chooseNone | panic => exact Or.inl (.same _)
  | visit i r ch ho hp hlt hv =>
    exact Or.inl (shift_of_eq (visit_field flag (s.cpu c).loc s.proc j Proc.state fun _ _ _ => rfl))
  | visitRun i r ch ho hp hlt hv =>
    obtain ⟨-, hrun⟩ := visit_switch hv
    by_cases hjl : j = (s.cpu c).loc.slot
    · right
      rw [← hjl] at hrun ⊢
      exact ⟨hrun, by simp [State.proc, State.dispatch], by simp [State.dispatch]⟩
    · left
      have := visit_field flag (s.cpu c).loc s.proc j Proc.state fun _ _ _ => rfl
      simp only [State.proc, State.dispatch, State.scanned, State.setCpu_mem, Table.set_of_ne _ _ hjl] at this ⊢
      rw [this]
      exact .same _
  | choose i r ch ho hp hc =>
    by_cases hji : j = i
    · right
      subst hji
      exact ⟨SchedLocals.chosen_runnable hc, by simp [State.proc, State.dispatch], by simp [State.dispatch]⟩
    · left
      simp only [State.proc, State.dispatch, State.scanned, State.setCpu_mem, Table.set_of_ne _ _ hji]
      exact .same _

/-- A process changes its own state in `schedAs` only. -/
theorem StepKind.state_self (hi : Inv s emb) (h : StepKind flag s c a s') (hj : (s.cpu c).proc = some j) :
    (s'.proc j).state = (s.proc j).state ∨
      ∃ st r, s.ops c = schedAs st :: r ∧ (s'.proc j).state = st := by
  cases h with
  | act op r ch m' e ho hst ha =>
    obtain ⟨g, hok, ht, hemb, -⟩ := hi.act_sig ho ha
    have := hi.act_shift ht.1 (hok.held .ptable).mp hemb ha hst j
    rw [hi.state_of_cur hj (by rw [ho]; exact ht.not_atSched)] at this ⊢
    exact Or.inl this.of_running
  | leave st r p ch ho hp =>
    obtain rfl := Option.some.inj (hp.symm.trans hj)
    exact Or.inr ⟨st, r, ho, by simp [State.proc]⟩
  | thread _ l _ hts hm => exact Or.inl (by rw [State.proc, hm])
  | context | sched => exact Or.inl (by simp [State.proc])
  | panic => exact Or.inl rfl
  | visit i r ch ho hp | visitRun i r ch ho hp | chooseNone r ch ho hp | choose i r ch ho hp => simp [hp] at hj

/-- The sleep channel is written by the process itself. -/
lemma step_chan (h : StepKind flag s c a s') (hj : (s.cpu c).proc ≠ some j) :
    (s'.proc j).chan = (s.proc j).chan := by
  have hrec := step_rec h j
  generalize s'.proc j = p' at hrec
  cases hrec with
  | same | visit | visitRun | choose | leave => rfl
  | act op r ch p' ho ha hst hc =>
    generalize s.proc j = p at hc
    cases hc with
    | store f _ hs => exact absurd hs hj
    | np | late => simp
    | same | leave | alloc | kstack | pgdir | freeKstack | free | parent | publish | wake | adopt | adoptWake |
      kill | reap | report | reapReport => rfl

lemma Inv.ie_of_lock (hi : Inv s emb) {lk : Lock} (hl : s.lock lk = some c) : (s.cpu c).ie = false := by
  obtain ⟨g, hok, -, -⟩ := hi.cpu c
  have hpos : 0 < g.held.length := List.length_pos_of_mem ((hok.held lk).mpr hl)
  have hn := hok.ncli
  exact (hok.off (by split_ifs at hn <;> omega)).1

lemma step_self (h : step flag ncpu lb s = some s') (hie : (s.cpu lb.cpu).ie = false) (ho : s.ops lb.cpu = op :: r) :
    ∃ ch, execOp flag lb.cpu ch r s op = some s' := by
  unfold step at h
  split_ifs at h
  split at h
  · simp [interrupt, hie] at h
  · simp [interrupt, hie] at h
  · rw [ho] at h
    exact ⟨_, h⟩

lemma label_exec {ch : Choice} (h : step flag ncpu lb s = some s') (hl : lb = ⟨c, .exec ch⟩) (ho : s.ops c = op :: r) :
    execOp flag c ch r s op = some s' := by
  subst hl
  unfold step at h
  split_ifs at h
  simpa [ho] using h

lemma StepKind.proc_self (h : StepKind flag s c a s') (hs : atSched (s.ops c) = false)
    (hop : ∀ op r, s.ops c = op :: r → op.switches = false) : (s'.cpu c).proc = (s.cpu c).proc := by
  cases h with
  | act | leave | context => simp [State.setOps_self]
  | thread _ l _ hts => exact hts.proc
  | panic => rfl
  | sched p r ch ho => simp [ho, atSched] at hs
  | visit i r ch ho | visitRun i r ch ho | chooseNone r ch ho | choose i r ch ho =>
    exact absurd (hop _ _ ho) (by simp [Op.switches])

/-- The states of a process that has been forked and has not ended. -/
def ProcState.alive : ProcState → Bool
  | .sleeping | .runnable | .running => true
  | _ => false

/-- The states of a process that has been forked and not reaped. -/
def ProcState.used : ProcState → Bool
  | .unused | .embryo => false
  | _ => true

lemma used_origin (hi : Inv s emb) (h : StepKind flag s c a s') (hj : (s'.proc j).state.used = true) :
    (s.proc j).state.used = true ∨ ∃ r, s.ops c = forkRunnable j :: r := by
  have hrec := step_rec h j
  generalize s'.proc j = p' at hrec hj
  cases hrec with
  | same => exact Or.inl hj
  | visit _ _ _ _ _ _ hr => simp [hr, ProcState.used]
  | visitRun _ _ _ _ _ _ hr => simp [hr, ProcState.used]
  | choose _ _ hr => simp [hr, ProcState.used]
  | leave st r ho hp => simp [hi.state_of_cur hp (by rw [ho]; rfl), ProcState.used]
  | act op r ch p' ho ha hst hc =>
    generalize s.proc j = p at hc
    cases hc with
    | publish hop => exact Or.inr ⟨r, hop ▸ ho⟩
    | leave st hop => exact absurd hop (hst st)
    | alloc | free | reap | reapReport => simp [ProcState.used, Proc.reap, Proc.report] at hj
    | wake _ hs | adoptWake _ _ _ hs => simp [hs, ProcState.used]
    | kill =>
      unfold Proc.kill at hj
      split_ifs at hj with hs
      · simp [hs, ProcState.used]
      · exact Or.inl hj
    | store | np | late => simpa using Or.inl hj
    | same | kstack | pgdir | freeKstack | parent | adopt | report => exact Or.inl hj

end Os132

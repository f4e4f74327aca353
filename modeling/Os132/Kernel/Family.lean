import Os132.Kernel.Phase

/-!
# The family tree

`Fam s emb ph` collects what holds of parents, zombies and their pages in every reachable state,
for the phases `ph` of the threads. A process in a critical section of `wait` or `exit` keeps
`ptable.lock`, so no other CPU changes the links and states that the section has tested.
-/

namespace Os132

open Op

variable {flag : SchedFlag} {ncpu : ℕ} {s s' : State} {c d : CpuId} {lb : Label} {a : Action}
  {emb : Slot → Option (Slot × ℕ)} {op : Op} {r : List Op} {p q i j : Slot} {x y : Phase}

/-- The operations of the critical sections of `ptable.lock` that no other lock is taken in. -/
def Op.guarded : Op → Bool
  | schedAs _ | store (.chan _) | wakeupParent | reparent | .wait _ | .kill _ => true
  | _ => false

lemma Inv.lock_of_guarded (hi : Inv s emb) (ho : s.ops c = op :: r) (h : op.guarded = true) :
    s.lock .ptable = some c := by
  obtain ⟨g, hok, -⟩ := hi.cpu c
  have ht := (hok.typed ho (by rintro lk rfl; simp [guarded] at h) (by rintro rfl; simp [guarded] at h)).1
  refine (hok.held _).mp ?_
  cases op <;> simp only [guarded, Bool.false_eq_true] at h
  case store f =>
    cases f <;> simp only [Bool.false_eq_true] at h
    simp only [Op.pre, Store.pre] at ht
    simp [ht]
  all_goals simp [ht.1]

/-- Every change of a parent, in a step that makes `p'` the record of slot `j`. -/
inductive ParentStep (s : State) (c : CpuId) (j : Slot) (p' : Proc) : Prop
  | same (h : p'.parent = (s.proc j).parent)
  | fork (r : List Op) (i : Slot) (ho : s.ops c = forkParent j :: r) (hi : (s.cpu c).proc = some i)
      (h : p'.parent = some i)
  | adopt (r : List Op) (i : Slot) (ho : s.ops c = reparent :: r) (hi : (s.cpu c).proc = some i)
      (hj : (s.proc j).parent = some i) (h : p'.parent = some initproc)
  | reap (two : Bool) (r : List Op) (i : Slot) (ho : s.ops c = .wait two :: r) (hi : (s.cpu c).proc = some i)
      (hj : s.proc.find (Proc.isZombieOf i) = some j) (h : p'.parent = none) (hs : p'.state = .unused)

lemma step_parent (h : StepKind flag s c a s') (j : Slot) : ParentStep s c j (s'.proc j) := by
  have hrec := step_rec h j
  generalize s'.proc j = p' at hrec
  cases hrec with
  | same | leave | visit | visitRun | choose => exact .same rfl
  | act op r ch p' ho ha hst hc =>
    cases hc with
    | same | leave | alloc | kstack | pgdir | freeKstack | free | publish | wake | kill | report => exact .same rfl
    | store | np | late => exact .same (by simp)
    | parent i hop hi => exact .fork r i (hop ▸ ho) hi rfl
    | adopt hop hp hs | adoptWake hop hp hs =>
      obtain ⟨i, hi⟩ := Option.isSome_iff_exists.mp hs
      exact .adopt r i (hop ▸ ho) hi (hp.trans hi) rfl
    | reap two i hop hi hj => exact .reap two r i (hop ▸ ho) hi hj rfl rfl
    | reapReport hop hi hj => exact .reap true r j (hop ▸ ho) hi hj rfl rfl

lemma Inv.embryo_of_forkParent (hi : Inv s emb) (ho : s.ops c = forkParent j :: r) : (s.proc j).state = .embryo := by
  obtain ⟨g, hok, hemb, -⟩ := hi.cpu c
  have ht := (hok.typed ho (by simp) (by simp)).1
  obtain ⟨i, -, he⟩ := Option.bind_eq_some_iff.mp (hemb ▸ ht.2)
  exact (hi.fork i j 4 he).state

/-- Every change of a state. -/
lemma step_state (hi : Inv s emb) (h : StepKind flag s c a s') (j : Slot) :
    Shift (s.lock .ptable = some c) (s.kstk j = forkret ∧ s.intena j = none) (s.proc j).state (s'.proc j).state ∨
      (s.proc j).state = .runnable ∧ (s'.proc j).state = .running ∨
      ∃ st r, (s.cpu c).proc = some j ∧ s.ops c = schedAs st :: r ∧ (s'.proc j).state = st := by
  by_cases hj : (s.cpu c).proc = some j
  · rcases h.state_self hi hj with heq | ⟨st, r, ho, hst⟩
    · exact Or.inl (shift_of_eq heq)
    · exact Or.inr (Or.inr ⟨st, r, hj, ho, hst⟩)
  · rcases h.state_other hi hj with hsh | ⟨h1, h2, -⟩
    · exact Or.inl hsh
    · exact Or.inr (Or.inl ⟨h1, h2⟩)

lemma zombie_origin (hi : Inv s emb) (h : StepKind flag s c a s') (hz : (s'.proc j).state = .zombie) :
    (s.proc j).state = .zombie ∨ ∃ r, (s.cpu c).proc = some j ∧ s.ops c = schedAs .zombie :: r := by
  rcases step_state hi h j with hsh | ⟨-, h2⟩ | ⟨st, r, hj, ho, hst⟩
  · rw [hz] at hsh
    generalize (s.proc j).state = x at hsh
    cases hsh
    exact Or.inl rfl
  · simp [hz] at h2
  · obtain rfl := hz.symm.trans hst
    exact Or.inr ⟨r, hj, ho⟩

lemma sleeping_origin (hi : Inv s emb) (h : StepKind flag s c a s') (hz : (s'.proc j).state = .sleeping) :
    (s.proc j).state = .sleeping ∨ ∃ r, (s.cpu c).proc = some j ∧ s.ops c = schedAs .sleeping :: r := by
  rcases step_state hi h j with hsh | ⟨-, h2⟩ | ⟨st, r, hj, ho, hst⟩
  · rw [hz] at hsh
    generalize (s.proc j).state = x at hsh
    cases hsh
    exact Or.inl rfl
  · simp [hz] at h2
  · obtain rfl := hz.symm.trans hst
    exact Or.inr ⟨r, hj, ho⟩

lemma alive_step (hi : Inv s emb) (h : StepKind flag s c a s') (hj : (s.proc j).state.alive = true) :
    (s'.proc j).state.alive = true ∨ ∃ r, (s.cpu c).proc = some j ∧ s.ops c = schedAs .zombie :: r := by
  rcases step_state hi h j with hsh | ⟨-, h2⟩ | ⟨st, r, hp, ho, hst⟩
  · generalize (s.proc j).state = x at hsh hj
    generalize (s'.proc j).state = y at hsh
    cases hsh <;> simp_all [ProcState.alive]
  · simp [h2, ProcState.alive]
  · obtain ⟨g, hok, -⟩ := hi.cpu c
    have ht := (hok.typed ho (by simp) (by simp)).1
    have hmem : st ∈ [ProcState.runnable, .sleeping, .zombie] := ht.2.1
    simp only [List.mem_cons, List.not_mem_nil, or_false] at hmem
    rcases hmem with rfl | rfl | rfl
    · simp [hst, ProcState.alive]
    · simp [hst, ProcState.alive]
    · exact Or.inr ⟨r, hp, ho⟩

lemma alive_origin (hi : Inv s emb) (h : StepKind flag s c a s') (hj : (s'.proc j).state.alive = true) :
    (s.proc j).state.alive = true ∨ (s.proc j).state = .embryo ∧ s.kstk j = forkret := by
  rcases step_state hi h j with hsh | ⟨h1, -⟩ | ⟨st, r, hp, ho, hst⟩
  · generalize (s.proc j).state = x at hsh
    generalize (s'.proc j).state = y at hsh hj
    cases hsh with
    | publish hf => exact Or.inr ⟨rfl, hf.1⟩
    | same | wake | reap | alloc | free => simp_all [ProcState.alive]
  · simp [h1, ProcState.alive]
  · have := hi.state_of_cur hp (by rw [ho]; rfl)
    simp [this, ProcState.alive]

lemma Store.apply_chan (t : ℕ) (p : Proc) (f : Store) :
    (f.apply t p).chan = p.chan ∨ f = .chan (f.apply t p).chan := by
  unfold Store.apply
  split <;> first | exact Or.inl rfl | exact Or.inr rfl

/-- Every change of a sleep channel. -/
lemma chan_origin (h : StepKind flag s c a s') (j : Slot) : (s'.proc j).chan = (s.proc j).chan ∨
    ∃ r, (s.cpu c).proc = some j ∧ s.ops c = store (.chan (s'.proc j).chan) :: r := by
  have hrec := step_rec h j
  generalize s'.proc j = p' at hrec
  cases hrec with
  | same | visit | visitRun | choose | leave => exact Or.inl rfl
  | act op r ch p' ho ha hst hc =>
    generalize s.proc j = p at hc
    cases hc with
    | store f hop hj =>
      rcases f.apply_chan s.mem.ticks p with h | h
      · exact Or.inl h
      · exact Or.inr ⟨r, hj, by rw [ho, hop, ← h]⟩
    | np | late => exact Or.inl (by simp)
    | same | leave | alloc | kstack | pgdir | freeKstack | free | parent | publish | wake | adopt | adoptWake |
      kill | reap | report | reapReport => exact Or.inl rfl

/-- Process `p` sleeps on its own record, as it does in `wait` only. -/
def State.Waits (s : State) (p : Slot) : Prop :=
  (s.proc p).state = .sleeping ∧ (s.proc p).chan = some (.proc p)

/-- A zombie of process `p`. -/
def State.ZombieOf (s : State) (p z : Slot) : Prop :=
  (s.proc z).state = .zombie ∧ (s.proc z).parent = some p

section locked

variable (hi : Inv s emb) (h : StepKind flag s c a s') (hl : s.lock .ptable = some d) (hd : d ≠ c)
include hi hl hd

lemma not_guarded (ho : s.ops c = op :: r) : op.guarded = false := by
  by_contra hg
  rw [Bool.not_eq_false] at hg
  exact hd (Option.some.inj (hl.symm.trans (hi.lock_of_guarded ho hg)))

include h

lemma waits_locked (hw : s'.Waits p) : s.Waits p := by
  refine ⟨?_, ?_⟩
  · rcases sleeping_origin hi h hw.1 with h | ⟨r, -, ho⟩
    · exact h
    · exact absurd (not_guarded hi hl hd ho) (by simp [guarded])
  · rcases chan_origin h p with h | ⟨r, -, ho⟩
    · exact h.symm.trans hw.2
    · exact absurd (not_guarded hi hl hd ho) (by simp [guarded])

lemma parent_locked (hp : (s'.proc j).parent = some p) : (s.proc j).parent = some p ∨
    (s.cpu c).proc = some p ∧ ∃ r, s.ops c = forkParent j :: r := by
  cases step_parent h j with
  | same heq => exact Or.inl (heq ▸ hp)
  | fork r i ho hi heq => exact Or.inr ⟨hi.trans (heq.symm.trans hp), r, ho⟩
  | adopt r i ho => exact absurd (not_guarded hi hl hd ho) (by simp [guarded])
  | reap two r i ho => exact absurd (not_guarded hi hl hd ho) (by simp [guarded])

end locked

/-- The phases in which a thread of `wait` or `exit` is on its CPU. -/
def Phase.busy : Phase → Bool
  | .found | .own | .woke | .orphaned => true
  | _ => false

structure Fam (s : State) (ph : Slot → Phase) : Prop where
  runs : ∀ p, (s.proc p).state.alive = true → Runs p (ph p) (settled (s.kstk p))
  dead : ∀ p, (s.proc p).state.alive = true → ph p ≠ .dead
  idle : ∀ p, (s.proc p).state.alive = false → ph p = .calm false ∨ ph p = .dead
  busy : ∀ p, (ph p).busy = true → (s.proc p).state = .running
  lock : ∀ p c, (ph p).isCalm = false → (s.cpu c).proc = some p → s.lock .ptable = some c
  chan : ∀ p, (s.proc p).chan = some (.proc p) ↔ ph p = .own ∨ ph p = .slept
  found : ∀ p, ph p = .found ∨ ph p = .own → ∀ z, ¬ s.ZombieOf p z
  woke : ∀ p, ph p = .woke ∨ ph p = .orphaned → ∀ q, (s.proc p).parent = some q → ¬ s.Waits q
  orphaned : ∀ p, ph p = .orphaned → ∀ j, (s.proc j).parent ≠ some p
  exits : ∀ p, (ph p).exits = true → p ≠ initproc
  reaped : ∀ p z, s.ZombieOf p z → ¬ s.Waits p
  parent : ∀ j p, (s.proc j).parent = some p → (s.proc p).state.alive = true ∧ j ≠ p
  init : (s.proc initproc).state.alive = true ∧ (s.proc initproc).parent = none
  child : ∀ j, (s.proc j).state.used = true → j ≠ initproc → (s.proc j).parent ≠ none

/-- The phases after a step of CPU `c`. -/
structure Advances (flag : SchedFlag) (s s' : State) (c : CpuId) (ph ph' : Slot → Phase) : Prop where
  self : ∀ p, (s.cpu c).proc = some p → Advance flag s c p (ph p) (ph' p) s'.mem
  other : ∀ p, (s.cpu c).proc ≠ some p → ph' p = if (s.proc p).state = .embryo then .calm false else ph p

variable {ph ph' : Slot → Phase}

/-- With interrupts on a thread is calm. -/
lemma Fam.calm_of_ie (hi : Inv s emb) (hf : Fam s ph) (hp : (s.cpu c).proc = some p)
    (hie : (s.cpu c).ie = true) : (ph p).isCalm = true ∧ settled (s.ops c) = s.ops c := by
  constructor
  · by_contra hc
    rw [Bool.not_eq_true] at hc
    have := hi.ie_of_lock (hf.lock p c hc hp)
    rw [hie] at this
    exact Bool.noConfusion this
  · obtain ⟨g, hok, -⟩ := hi.cpu c
    have ht := (hok.of_ie hie).2.2.2
    cases ho : s.ops c with
    | nil => rfl
    | cons op r =>
      rw [ho] at ht
      have h1 := ht.not_spinning
      have h2 := ht.not_atSched
      cases op <;> try rfl
      · simp [spinning] at h1
      · simp [atSched] at h2

lemma kstk_other (hi : Inv s emb) (h : StepKind flag s c a s') (hp : (s.cpu c).proc ≠ some p)
    (ha : (s'.proc p).state.alive = true) : s'.kstk p = s.kstk p := by
  by_cases he : (s.proc p).state = .embryo
  · cases h with
    | act | leave => simp [State.setOps_kstk, hp]
    | thread _ l _ hts => rw [hts.kstk, if_neg hp]
    | context i r ch ho =>
      have hs : (s.proc p).state.alive = true := by simpa [State.proc] using ha
      simp [he, ProcState.alive] at hs
    | sched q r ch ho hq => simp [State.setOps_kstk, hp]
    | visit _ _ _ _ hn | visitRun _ _ _ _ hn | chooseNone _ _ _ hn | choose _ _ _ _ hn =>
      simp [State.scanned, State.dispatch, State.setOps_kstk, hn]
    | panic => rfl
  · exact (h.kstk_ne hi hp he).1

/-- A zombie that has not left its CPU switches to the scheduler. -/
lemma mem_of_zombie (hi : Inv s emb) (hp : (s.cpu c).proc = some p) (ha : (s.proc p).state.alive = false)
    {l : List Op} {m' : Mem} (hm : Moves flag s c p a l m') : m' = s.mem := by
  have hs : atSched (s.ops c) = true := by
    by_contra hno
    rw [Bool.not_eq_true] at hno
    simp [hi.state_of_cur hp hno, ProcState.alive] at ha
  cases hm with
  | leave _ _ _ ho => simp [ho, atSched] at hs
  | act op _ _ _ _ ho _ hact =>
    rw [ho] at hs
    cases op <;> first | simp [atSched] at hs; done | simp [act] at hact
  | _ => rfl

theorem advances_step (hi : Inv s emb) (hf : Fam s ph) (h : step flag ncpu lb s = some s') :
    ∃ ph', Advances flag s s' lb.cpu ph ph' ∧
      ∀ p, (s'.proc p).state.alive = true → Runs p (ph' p) (settled (s'.kstk p)) := by
  obtain ⟨hk, -⟩ := step_kind hi h
  have hself : ∀ p, (s.cpu lb.cpu).proc = some p → ∃ y, Advance flag s lb.cpu p (ph p) y s'.mem ∧
      ((s'.proc p).state.alive = true → Runs p y (settled (s'.kstk p))) := by
    intro p hp
    have hm := step_moves hi h hp
    cases ha : (s.proc p).state.alive with
    | true =>
      have hr := hf.runs p ha
      rw [← ops_of_proc hp] at hr
      obtain ⟨y, hy, hr'⟩ := moves_runs hm hr (hf.calm_of_ie hi hp)
      exact ⟨y, hy, fun _ => hr'⟩
    | false =>
      have hmem := mem_of_zombie hi hp ha hm
      refine ⟨ph p, hmem ▸ .rest _ _ (Or.inl rfl), fun ha' => ?_⟩
      rw [State.proc, hmem] at ha'
      simp [ha] at ha'
  have hother : ∀ p, (s.cpu lb.cpu).proc ≠ some p → (s'.proc p).state.alive = true →
      Runs p (if (s.proc p).state = .embryo then .calm false else ph p) (settled (s'.kstk p)) := by
    intro p hp ha'
    rw [kstk_other hi hk hp ha']
    rcases alive_origin hi hk ha' with ha | ⟨he, hr⟩
    · have hne : (s.proc p).state ≠ .embryo := by
        intro he
        simp [he, ProcState.alive] at ha
      rw [if_neg hne]
      exact hf.runs p ha
    · rw [if_pos he, hr]
      simp [forkret, settled, Runs, Op.stops, Op.next, Op.calmly, Phase.isCalm]
  cases hc : (s.cpu lb.cpu).proc with
  | none =>
    exact ⟨fun p => if (s.proc p).state = .embryo then .calm false else ph p, ⟨by simp [hc], fun p _ => rfl⟩,
      fun p => hother p (by simp [hc])⟩
  | some q =>
    obtain ⟨y, hy, hr⟩ := hself q hc
    refine ⟨fun p => if p = q then y else if (s.proc p).state = .embryo then .calm false else ph p, ⟨?_, ?_⟩, ?_⟩
    · intro p hp
      obtain rfl := Option.some.inj (hc.symm.trans hp)
      simpa using hy
    · intro p hp
      have hpq : p ≠ q := fun h => hp (h ▸ hc)
      exact if_neg hpq
    · intro p ha'
      by_cases hpq : p = q
      · subst hpq
        simpa using hr ha'
      · simpa [hpq] using hother p (by rw [hc]; simpa using Ne.symm hpq) ha'

/-- A process stays `RUNNING` in an operation that is not part of a switch. -/
lemma running_of_ops (hi : Inv s emb) (h : StepKind flag s c a s') (hp : (s.cpu c).proc = some p) (ho : s.ops c = op :: r)
    (hst : ∀ st, op ≠ schedAs st) (hs : op ≠ Op.sched) :
    (s.proc p).state = .running ∧ (s'.proc p).state = .running := by
  have h0 : atSched (s.ops c) = false := by
    rw [ho]
    cases op <;> first | rfl | exact absurd rfl hs
  have hrun := hi.state_of_cur hp h0
  rcases h.state_self hi hp with heq | ⟨st, r', ho', -⟩
  · exact ⟨hrun, heq.trans hrun⟩
  · rw [ho] at ho'
    exact absurd (List.cons.inj ho').1 (hst st)

namespace Fam

variable (hi : Inv s emb) (hf : Fam s ph) (h : step flag ncpu lb s = some s') (ha : Advances flag s s' lb.cpu ph ph')
include hi hf h ha

lemma step_dead (hp : (s'.proc p).state.alive = true) : ph' p ≠ .dead := by
  obtain ⟨hk, -⟩ := step_kind hi h
  intro hd
  by_cases hc : (s.cpu lb.cpu).proc = some p
  · have hadv := ha.self p hc
    rw [hd] at hadv
    generalize hx : ph p = x at hadv
    generalize hm : s'.mem = m' at hadv
    cases hadv with
    | rest _ _ hr =>
      rcases hr with hr | ⟨ex, -, hr⟩
      · refine hf.dead p ?_ (hx.trans hr.symm)
        rwa [State.proc, hm] at hp
      · simp at hr
    | leave st r _ _ ho hl =>
      cases hl with
      | calm _ _ _ hx hy => simp [Phase.isCalm] at hy
      | zombie => simp [State.proc, hm, ProcState.alive] at hp
    | act op r ch m' e _ _ ho hst _ _ hl =>
      cases hl with
      | calm _ _ _ hx hy => simp [Phase.isCalm] at hy
      | zombie => exact hst _ rfl
  · rw [ha.other p hc] at hd
    split_ifs at hd with he
    rcases alive_origin hi hk hp with h | ⟨h, -⟩
    · exact hf.dead p h hd
    · exact he h

lemma step_idle (hp : (s'.proc p).state.alive = false) : ph' p = .calm false ∨ ph' p = .dead := by
  obtain ⟨hk, -⟩ := step_kind hi h
  by_cases hc : (s.cpu lb.cpu).proc = some p
  · have hadv := ha.self p hc
    generalize hx : ph p = x at hadv
    generalize ph' p = y at hadv
    generalize hm : s'.mem = m' at hadv
    cases hadv with
    | rest _ _ hr =>
      rw [State.proc, hm] at hp
      have hxc := hx ▸ hf.idle p hp
      rcases hr with rfl | ⟨ex, hr, rfl⟩
      · exact hxc
      · rcases hxc with rfl | rfl <;> simp_all
    | found two r ho hz =>
      have := (running_of_ops hi hk hc ho (by simp) (by simp)).2
      simp [this, ProcState.alive] at hp
    | leave st r _ _ ho hl =>
      have hst : (s'.proc p).state = st := by simp [State.proc, hm]
      rw [hst] at hp
      rcases alive_step hi hk (j := p) (by simp [hi.state_of_cur hc (by rw [ho]; rfl), ProcState.alive]) with hal | ⟨r', -, ho'⟩
      · rw [hst, hp] at hal
        exact Bool.noConfusion hal
      · obtain ⟨hop, -⟩ := List.cons.inj (ho.symm.trans ho')
        cases hl with
        | calm _ _ _ _ _ _ _ hz => exact absurd hop hz
        | leave => simp at hop
        | stamp _ hs => rw [hop] at hs; simp [Op.stamps] at hs
        | zombie => exact Or.inr rfl
    | act op r ch m' e _ _ ho hst hact _ hl =>
      have := (running_of_ops hi hk hc ho hst (by rintro rfl; simp [Os132.act] at hact)).2
      simp [this, ProcState.alive] at hp
  · rw [ha.other p hc]
    split_ifs with he
    · exact Or.inl rfl
    · refine hf.idle p ?_
      by_contra hal
      rw [Bool.not_eq_false] at hal
      rcases alive_step hi hk hal with h1 | ⟨r, hpc, -⟩
      · rw [hp] at h1
        exact Bool.noConfusion h1
      · exact hc hpc

lemma step_busy (hp : (ph' p).busy = true) : (s'.proc p).state = .running := by
  obtain ⟨hk, -⟩ := step_kind hi h
  by_cases hc : (s.cpu lb.cpu).proc = some p
  · have hadv := ha.self p hc
    generalize hx : ph p = x at hadv
    generalize ph' p = y at hadv hp
    generalize hm : s'.mem = m' at hadv
    cases hadv with
    | rest _ _ hr =>
      rw [State.proc, hm]
      rcases hr with rfl | ⟨ex, hr, rfl⟩
      · exact hf.busy p (hx ▸ hp)
      · simp [Phase.busy] at hp
    | found two r ho hz => exact (running_of_ops hi hk hc ho (by simp) (by simp)).2
    | leave st r _ _ ho hl =>
      cases hl with
      | calm _ _ _ _ hy => cases y <;> simp_all [Phase.isCalm, Phase.busy]
      | stamp _ hs => simp [Op.stamps] at hs
      | _ => simp [Phase.busy] at hp
    | act op r ch m' e _ _ ho hst hact _ hl =>
      exact (running_of_ops hi hk hc ho hst (by rintro rfl; simp [Os132.act] at hact)).2
  · rw [ha.other p hc] at hp
    split_ifs at hp with he
    · simp [Phase.busy] at hp
    have hrun := hf.busy p hp
    rcases hk.state_other hi hc with hsh | ⟨hr, -⟩
    · rw [hrun] at hsh
      exact hsh.of_running
    · simp [hr] at hrun

lemma step_lock (hp : (ph' p).isCalm = false) (hd : (s'.cpu d).proc = some p) : s'.lock .ptable = some d := by
  obtain ⟨hk, -⟩ := step_kind hi h
  by_cases hc : (s.cpu lb.cpu).proc = some p
  · obtain rfl : d = lb.cpu := by
      by_contra hne
      rw [hk.cpu_ne hne] at hd
      exact hne (hi.inj d lb.cpu p hd hc)
    suffices hl : s.lock .ptable = some lb.cpu ∧ ∀ r, s.ops lb.cpu ≠ release .ptable :: r by
      rcases step_release hi h hl.1 with h | ⟨r, ho⟩
      · exact h
      · exact absurd ho (hl.2 r)
    have hadv := ha.self p hc
    generalize hx : ph p = x at hadv
    generalize ph' p = y at hadv hp
    generalize hm : s'.mem = m' at hadv
    cases hadv with
    | rest _ _ hr =>
      rcases hr with rfl | ⟨ex, hr, rfl⟩
      · refine ⟨hf.lock p _ (hx ▸ hp) hc, fun r ho => ?_⟩
        have hrun := (running_of_ops hi hk hc ho (by simp) (by simp)).1
        have hruns := hf.runs p (by simp [hrun, ProcState.alive])
        rw [← ops_of_proc hc, ho, hx] at hruns
        rw [hruns.release] at hp
        simp at hp
      · simp [Phase.isCalm] at hp
    | found two r ho hz => exact ⟨hi.lock_of_guarded ho rfl, by simp [ho]⟩
    | leave st r _ _ ho hl => exact ⟨hi.lock_of_guarded ho rfl, by simp [ho]⟩
    | act op r ch m' e _ _ ho hst hact _ hl =>
      refine ⟨?_, fun r' ho' => ?_⟩
      · cases hl with
        | calm _ _ _ _ hy => simp [hp] at hy
        | stamp => exact hf.lock p _ (by simp [hx, Phase.isCalm]) hc
        | _ => exact hi.lock_of_guarded ho rfl
      · obtain ⟨rfl, -⟩ := List.cons.inj (ho.symm.trans ho')
        simp [Os132.act] at hact
  · rw [ha.other p hc] at hp
    split_ifs at hp with he
    · simp [Phase.isCalm] at hp
    by_cases hdc : d = lb.cpu
    · subst hdc
      generalize lb.action = act at hk
      cases hk with
      | act | leave | context => exact absurd (by simpa [State.setOps_self] using hd) hc
      | thread _ l _ hts => exact absurd (hts.proc.symm.trans hd) hc
      | sched => simp at hd
      | visit _ _ _ _ hn | chooseNone _ _ _ hn => simp [State.scanned, State.setOps_self, hn] at hd
      | visitRun i r ch ho => simpa [State.dispatch, State.scanned] using (hi.scanning ho rfl).1
      | choose i r ch ho => simpa [State.dispatch, State.scanned] using (hi.scanning ho rfl).1
      | panic => exact absurd hd hc
    · rw [hk.lock_ne hdc]
      exact hf.lock p d hp (hk.cpu_ne hdc ▸ hd)

lemma step_chan : (s'.proc p).chan = some (.proc p) ↔ ph' p = .own ∨ ph' p = .slept := by
  obtain ⟨hk, -⟩ := step_kind hi h
  have hchan := hf.chan p
  by_cases hc : (s.cpu lb.cpu).proc = some p
  · have hadv := ha.self p hc
    have hrec := chan_origin hk p
    generalize ph p = x at hadv hchan
    generalize ph' p = y at hadv
    generalize hm : s'.mem = m' at hadv
    cases hadv with
    | rest _ _ hr =>
      rw [State.proc, hm, hchan]
      rcases hr with rfl | ⟨ex, rfl | rfl, rfl⟩ <;> simp
    | found => 
      rw [State.proc, hm, hchan]
      simp
    | leave st r _ _ ho hl =>
      have heq : (s'.proc p).chan = (s.proc p).chan := by simp [State.proc, hm]
      rw [heq, hchan]
      cases hl with
      | calm _ _ _ hx hy => cases x <;> cases y <;> simp_all [Phase.isCalm]
      | leave | zombie => simp
      | stamp _ hs => simp [Op.stamps] at hs
    | act op r ch m' e _ _ ho hst hact _ hl =>
      have hsame : (∀ v, op ≠ store (.chan v)) → (s'.proc p).chan = (s.proc p).chan := by
        intro hno
        rcases hrec with h | ⟨r', -, ho'⟩
        · exact h
        · exact absurd (List.cons.inj (ho.symm.trans ho')).1 (hno _)
      have hstore : ∀ v, op = store (.chan v) → (s'.proc p).chan = v := by
        rintro v rfl
        simp only [Os132.act, Option.some.injEq, Prod.mk.injEq] at hact
        simp [State.proc, hm, ← hact.1, Store.apply]
      cases hl with
      | calm _ _ _ hx hy he hc =>
        have hno : ¬ (y = .own ∨ y = .slept) := by rintro (rfl | rfl) <;> simp [Phase.isCalm] at hy
        refine iff_of_false ?_ hno
        by_cases hv : ∃ v, op = store (.chan v)
        · obtain ⟨v, hv⟩ := hv
          rw [hstore v hv]
          exact hc v hv
        · rw [hsame fun v hv' => hv ⟨v, hv'⟩, hchan]
          rintro (rfl | rfl) <;> simp [Phase.isCalm] at hx
      | wake _ hx =>
        rw [hsame (by simp), hchan]
        cases x <;> simp_all [Phase.isCalm]
      | mark => simp [hstore _ rfl]
      | tidy => simp [hstore _ rfl]
      | orphan =>
        rw [hsame (by simp), hchan]
        simp
      | stamp _ hs =>
        rw [hsame (by rintro v rfl; simp [Op.stamps] at hs), hchan]
      | leave | zombie => exact absurd rfl (hst _)
  · rw [Os132.step_chan hk hc, hchan, ha.other p hc]
    split_ifs with he
    · rcases hf.idle p (by simp [he, ProcState.alive]) with h | h <;> simp [h]
    · rfl

omit h in
lemma busy_elsewhere (hc : (s.cpu lb.cpu).proc ≠ some p) (hp : (ph' p).busy = true) :
    ph' p = ph p ∧ ∃ d, s.lock .ptable = some d ∧ d ≠ lb.cpu := by
  rw [ha.other p hc] at hp ⊢
  split_ifs at hp ⊢ with he
  · simp [Phase.busy] at hp
  refine ⟨rfl, ?_⟩
  obtain ⟨d, hd⟩ := hi.run p (hf.busy p hp)
  exact ⟨d, hf.lock p d (by cases hx : ph p <;> simp_all [Phase.busy, Phase.isCalm]) hd, fun hdc => hc (hdc ▸ hd)⟩

lemma step_found (hp : ph' p = .found ∨ ph' p = .own) (z : Slot) : ¬ s'.ZombieOf p z := by
  obtain ⟨hk, -⟩ := step_kind hi h
  rintro ⟨hz, hzp⟩
  by_cases hc : (s.cpu lb.cpu).proc = some p
  · have hadv := ha.self p hc
    have hold := hf.found p
    generalize ph p = x at hadv hold
    generalize ph' p = y at hadv hp
    generalize hm : s'.mem = m' at hadv
    cases hadv with
    | rest _ _ hr =>
      rw [State.proc, hm] at hz hzp
      rcases hr with rfl | ⟨ex, hr, rfl⟩
      · exact hold hp z ⟨hz, hzp⟩
      · simp at hp
    | found two r ho hnone =>
      rw [State.proc, hm] at hz hzp
      have := Table.find_none hnone z
      simp only [Proc.isZombieOf, Bool.and_eq_false_iff, decide_eq_false_iff_not] at this
      exact this.elim (fun h => h hzp) fun h => h hz
    | leave st r _ _ ho hl =>
      cases hl with
      | calm _ _ _ _ hy => rcases hp with rfl | rfl <;> simp [Phase.isCalm] at hy
      | _ => simp at hp
    | act op r ch m' e _ _ ho hst hact _ hl =>
      cases hl with
      | calm _ _ _ _ hy => rcases hp with rfl | rfl <;> simp [Phase.isCalm] at hy
      | mark =>
        refine hold (Or.inl rfl) z ⟨?_, ?_⟩
        · rcases zombie_origin hi hk hz with h | ⟨r', -, ho'⟩
          · exact h
          · simp [ho] at ho'
        · cases Os132.step_parent hk z with
          | same heq => exact heq ▸ hzp
          | fork r' _ ho' | adopt r' _ ho' | reap _ r' _ ho' => simp [ho] at ho'
      | _ => simp at hp
  · obtain ⟨heq, d, hd, hne⟩ := hf.busy_elsewhere hi ha hc (by rcases hp with h | h <;> simp [h, Phase.busy])
    rw [heq] at hp
    refine hf.found p hp z ⟨?_, ?_⟩
    · rcases zombie_origin hi hk hz with h | ⟨r, -, ho⟩
      · exact h
      · exact absurd (not_guarded hi hd hne ho) (by simp [guarded])
    · rcases parent_locked hi hk hd hne hzp with h | ⟨h, -⟩
      · exact h
      · exact absurd h hc

lemma step_woke (hp : ph' p = .woke ∨ ph' p = .orphaned) (hq : (s'.proc p).parent = some q) : ¬ s'.Waits q := by
  obtain ⟨hk, -⟩ := step_kind hi h
  intro hw
  by_cases hc : (s.cpu lb.cpu).proc = some p
  · have hadv := ha.self p hc
    have hold := hf.woke p
    generalize hx : ph p = x at hadv hold
    generalize ph' p = y at hadv hp
    generalize hm : s'.mem = m' at hadv
    cases hadv with
    | rest _ _ hr =>
      rw [State.proc, hm] at hq
      rw [State.Waits, State.proc, hm] at hw
      rcases hr with rfl | ⟨ex, hr, rfl⟩
      · exact hold hp q hq hw
      · simp at hp
    | found => simp at hp
    | leave st r _ _ ho hl =>
      cases hl with
      | calm _ _ _ _ hy => rcases hp with rfl | rfl <;> simp [Phase.isCalm] at hy
      | stamp _ hs => simp [Op.stamps] at hs
      | _ => simp at hp
    | act op r ch m' e _ _ ho hst hact _ hl =>
      have hback : (∀ v, op ≠ store (.chan v)) → s.Waits q := by
        refine fun hno => ⟨?_, ?_⟩
        · rcases sleeping_origin hi hk hw.1 with h | ⟨r', -, ho'⟩
          · exact h
          · exact absurd (List.cons.inj (ho.symm.trans ho')).1 (hst _)
        · rcases chan_origin hk q with h | ⟨r', -, ho'⟩
          · exact h.symm.trans hw.2
          · exact absurd (List.cons.inj (ho.symm.trans ho')).1 (hno _)
      cases hl with
      | calm _ _ _ _ hy => rcases hp with rfl | rfl <;> simp [Phase.isCalm] at hy
      | wake =>
        simp only [Os132.act, Option.map_some, Option.some.injEq, Prod.mk.injEq] at hact
        have hsq : (s'.proc p).parent = (s.proc p).parent := by
          cases Os132.step_parent hk p with
          | same heq => exact heq
          | fork r' _ ho' | adopt r' _ ho' | reap _ r' _ ho' => simp [ho] at ho'
        have hwq := hback (by simp)
        have := hw.1
        rw [State.proc, hm, ← hact.1] at this
        have hchan : (s.proc p).parent.map Chan.proc = some (.proc q) := by rw [← hsq, hq]; rfl
        simp [Table.wakeup1, hchan, hwq.1, hwq.2] at this
      | orphan =>
        refine hold (Or.inl rfl) q ?_ (hback (by simp))
        cases Os132.step_parent hk p with
        | same heq => exact heq ▸ hq
        | adopt r' i ho' hi' hj => exact absurd (Option.some.inj (hc.symm.trans hi')) (hf.parent p i hj).2
        | fork r' _ ho' | reap _ r' _ ho' => simp [ho] at ho'
      | stamp _ hs =>
        refine hold (Or.inr rfl) q ?_ (hback (by rintro v rfl; simp [Op.stamps] at hs))
        cases Os132.step_parent hk p with
        | same heq => exact heq ▸ hq
        | fork r' _ ho' | adopt r' _ ho' | reap _ r' _ ho' =>
          obtain ⟨rfl, -⟩ := List.cons.inj (ho.symm.trans ho')
          simp [Op.stamps] at hs
      | _ => simp at hp
  · obtain ⟨heq, d, hd, hne⟩ := hf.busy_elsewhere hi ha hc (by rcases hp with h | h <;> simp [h, Phase.busy])
    rw [heq] at hp
    refine hf.woke p hp q ?_ (waits_locked hi hk hd hne hw)
    rcases parent_locked hi hk hd hne hq with h | ⟨-, r, ho⟩
    · exact h
    · have hrun := hf.busy p (by rcases hp with h | h <;> simp [h, Phase.busy])
      simp [hi.embryo_of_forkParent ho] at hrun

lemma step_orphaned (hp : ph' p = .orphaned) (j : Slot) : (s'.proc j).parent ≠ some p := by
  obtain ⟨hk, -⟩ := step_kind hi h
  intro hj
  by_cases hc : (s.cpu lb.cpu).proc = some p
  · have hadv := ha.self p hc
    have hold := hf.orphaned p
    have hex := hf.exits p
    generalize hx : ph p = x at hadv hold hex
    rw [hp] at hadv
    generalize hm : s'.mem = m' at hadv
    cases hadv with
    | rest _ _ hr =>
      rw [State.proc, hm] at hj
      rcases hr with rfl | ⟨ex, hr, hy⟩
      · exact hold rfl j hj
      · simp at hy
    | leave st r _ _ ho hl =>
      cases hl with
      | calm _ _ _ _ hy => simp [Phase.isCalm] at hy
      | stamp _ hs => simp [Op.stamps] at hs
    | act op r ch m' e _ _ ho hst hact _ hl =>
      cases hl with
      | calm _ _ _ _ hy => simp [Phase.isCalm] at hy
      | orphan =>
        simp only [Os132.act, Option.map_some, Option.some.injEq, Prod.mk.injEq] at hact
        have hadopt : (s'.proc j).parent = (s.mem.proc.adopt p j).parent := by
          rw [State.proc, hm, ← hact.1]
          dsimp only
          split_ifs
          · simp only [Table.wakeup1]
            split_ifs <;> rfl
          · rfl
        rw [hadopt, Table.adopt] at hj
        split_ifs at hj with hjp
        · exact hex rfl (Option.some.inj hj).symm
        · exact hjp hj
      | stamp _ hs =>
        refine hold rfl j ?_
        cases Os132.step_parent hk j with
        | same heq => exact heq ▸ hj
        | fork r' _ ho' | adopt r' _ ho' | reap _ r' _ ho' =>
          obtain ⟨rfl, -⟩ := List.cons.inj (ho.symm.trans ho')
          simp [Op.stamps] at hs
  · obtain ⟨heq, d, hd, hne⟩ := hf.busy_elsewhere hi ha hc (by simp [hp, Phase.busy])
    rw [heq] at hp
    rcases parent_locked hi hk hd hne hj with h | ⟨h, -⟩
    · exact hf.orphaned p hp j h
    · exact hc h

omit hi h in
lemma step_exits (hp : (ph' p).exits = true) : p ≠ initproc := by
  have hold := hf.exits p
  by_cases hc : (s.cpu lb.cpu).proc = some p
  · have hadv := ha.self p hc
    generalize ph p = x at hadv hold
    generalize ph' p = y at hadv hp
    generalize s'.mem = m' at hadv
    cases hadv with
    | rest _ _ hr =>
      rcases hr with rfl | ⟨ex, rfl | rfl, rfl⟩
      · exact hold hp
      · exact hold hp
      · exact hold hp
    | found => simp [Phase.exits] at hp
    | leave st r _ _ ho hl =>
      cases hl with
      | calm _ _ _ _ _ he => exact hold ((he hp).resolve_right (by simp))
      | leave => simp [Phase.exits] at hp
      | stamp | zombie => exact hold rfl
    | act op r ch m' e _ _ ho hst hact hs hl =>
      cases hl with
      | calm _ _ _ _ _ he =>
        rcases he hp with h | rfl
        · exact hold h
        · exact hs
      | wake _ _ he => exact hold he
      | orphan | stamp | zombie => exact hold rfl
      | mark | tidy | leave => simp [Phase.exits] at hp
  · rw [ha.other p hc] at hp
    split_ifs at hp
    · simp [Phase.exits] at hp
    · exact hold hp

omit h ha in
lemma orphaned_of_zombie (hc : (s.cpu c).proc = some p) (ho : s.ops c = schedAs .zombie :: r) : ph p = .orphaned := by
  have hruns := hf.runs p (by simp [hi.state_of_cur hc (by rw [ho]; rfl), ProcState.alive])
  rw [← ops_of_proc hc, ho] at hruns
  obtain ⟨y, hy, -⟩ := runs_cons hruns (by simp [Op.stops])
  have hl := leads_of_next hy
  generalize ph p = x at hl
  cases hl with
  | calm _ _ _ _ _ _ _ hz => exact absurd rfl hz
  | stamp _ hs => simp [Op.stamps] at hs
  | zombie => rfl

omit ha in
lemma step_init : (s'.proc initproc).state.alive = true ∧ (s'.proc initproc).parent = none := by
  obtain ⟨hk, -⟩ := step_kind hi h
  constructor
  · rcases alive_step hi hk hf.init.1 with h1 | ⟨r, hc, ho⟩
    · exact h1
    · exact absurd rfl (hf.exits initproc (by simp [hf.orphaned_of_zombie hi hc ho, Phase.exits]))
  · cases Os132.step_parent hk initproc with
    | same heq => exact heq.trans hf.init.2
    | fork r i ho hc =>
      have halive := hf.init.1
      simp [hi.embryo_of_forkParent ho, ProcState.alive] at halive
    | adopt r i ho hc hj => simp [hf.init.2] at hj
    | reap _ _ _ _ _ _ heq => exact heq

omit ha in
lemma step_parent (hj : (s'.proc j).parent = some p) : (s'.proc p).state.alive = true ∧ j ≠ p := by
  obtain ⟨hk, -⟩ := step_kind hi h
  have hinit := hf.step_init hi h
  cases Os132.step_parent hk j with
  | same heq =>
    rw [heq] at hj
    obtain ⟨hal, hne⟩ := hf.parent j p hj
    refine ⟨?_, hne⟩
    rcases alive_step hi hk hal with h1 | ⟨r, hc, ho⟩
    · exact h1
    · exact absurd hj (hf.orphaned p (hf.orphaned_of_zombie hi hc ho) j)
  | fork r i ho hc heq =>
    obtain rfl := Option.some.inj (heq.symm.trans hj)
    have hrun := running_of_ops hi hk hc ho (by simp) (by simp)
    refine ⟨by simp [hrun.2, ProcState.alive], ?_⟩
    rintro rfl
    simp [hi.embryo_of_forkParent ho] at hrun
  | adopt r i ho hc hji heq =>
    obtain rfl := Option.some.inj (heq.symm.trans hj)
    refine ⟨hinit.1, ?_⟩
    rintro rfl
    simp [hinit.2] at hj
  | reap _ _ _ _ _ _ heq => simp [heq] at hj

omit ha in
lemma step_child (hj : (s'.proc j).state.used = true) (hji : j ≠ initproc) : (s'.proc j).parent ≠ none := by
  obtain ⟨hk, -⟩ := step_kind hi h
  cases Os132.step_parent hk j with
  | same heq =>
    rw [heq]
    rcases used_origin hi hk hj with h | ⟨r, ho⟩
    · exact hf.child j h hji
    · obtain ⟨g, hok, hemb, -⟩ := hi.cpu lb.cpu
      have ht := (hok.typed ho (by simp) (by simp)).1
      obtain ⟨q, -, he⟩ := Option.bind_eq_some_iff.mp (hemb ▸ ht.2)
      simp [(hi.fork q j 5 he).parent le_rfl]
  | fork _ _ _ _ heq => simp [heq]
  | adopt _ _ _ _ _ heq => simp [heq]
  | reap _ _ _ _ _ _ _ hst => simp [hst, ProcState.used] at hj

omit ha in
lemma step_reaped {z : Slot} (hz : s'.ZombieOf p z) : ¬ s'.Waits p := by
  obtain ⟨hk, -⟩ := step_kind hi h
  intro hw
  -- the parent of a process that becomes a zombie has been woken, and `exit` holds the lock since
  rcases zombie_origin hi hk hz.1 with hzs | ⟨r, hc, ho⟩
  swap
  · have hne : p ≠ z := by
      rintro rfl
      have := hz.1.symm.trans hw.1
      simp at this
    have hpar : (s.proc z).parent = some p := by
      cases Os132.step_parent hk z with
      | same heq => exact heq ▸ hz.2
      | fork r' _ ho' | adopt r' _ ho' | reap _ r' _ ho' => simp [ho] at ho'
    refine hf.woke z (Or.inr (hf.orphaned_of_zombie hi hc ho)) p hpar ⟨?_, ?_⟩
    · rcases sleeping_origin hi hk hw.1 with h | ⟨r', hc', -⟩
      · exact h
      · exact absurd (Option.some.inj (hc'.symm.trans hc)) hne
    · rcases chan_origin hk p with h | ⟨r', hc', -⟩
      · exact h.symm.trans hw.2
      · exact absurd (Option.some.inj (hc'.symm.trans hc)) hne
  cases Os132.step_parent hk z with
  | same heq =>
    have hzo : s.ZombieOf p z := ⟨hzs, heq ▸ hz.2⟩
    -- a process goes to sleep in `wait` only when it has found no zombie
    rcases sleeping_origin hi hk hw.1 with hsl | ⟨r, hc, ho⟩
    · rcases chan_origin hk p with hch | ⟨r, hc, ho⟩
      · exact hf.reaped p z hzo ⟨hsl, hch.symm.trans hw.2⟩
      · simp [hi.state_of_cur hc (by rw [ho]; rfl)] at hsl
    · have hchan : (s.proc p).chan = some (.proc p) := by
        rcases chan_origin hk p with hch | ⟨r', -, ho'⟩
        · exact hch.symm.trans hw.2
        · simp [ho] at ho'
      rcases (hf.chan p).mp hchan with hx | hx
      · exact hf.found p (Or.inr hx) z hzo
      · have hruns := hf.runs p (by simp [hi.state_of_cur hc (by rw [ho]; rfl), ProcState.alive])
        rw [← ops_of_proc hc, ho, hx] at hruns
        obtain ⟨y, hy, -⟩ := runs_cons hruns (by simp [Op.stops])
        simp [Op.next] at hy
  | fork r i ho hc heq =>
    simp [hi.embryo_of_forkParent ho] at hzs
  | adopt r i ho hc hj heq =>
    obtain rfl := Option.some.inj (heq.symm.trans hz.2)
    obtain ⟨ch, hx⟩ := step_self h (hi.ie_of_lock (hi.lock_of_guarded ho rfl)) ho
    have hsome : (s.mem.proc.find (Proc.isZombieOf i)).isSome := by
      by_contra hno
      have := Table.find_none (Option.not_isSome_iff_eq_none.mp hno) z
      simp [Proc.isZombieOf, hj, hzs] at this
    simp only [execOp, act, hc, Option.map_some, hsome, if_true, Option.some.injEq] at hx
    have hsl := hw.1
    have hch := hw.2
    rw [← hx] at hsl hch
    simp only [State.proc, Table.wakeup1] at hsl hch
    split_ifs at hsl hch with hcond
    exact hcond ⟨hsl, hch⟩
  | reap _ _ _ _ _ _ _ hst => exact absurd (hst.symm.trans hz.1) (by simp)

end Fam

/-- Every step keeps the family tree. -/
theorem Fam.step (hi : Inv s emb) (hf : Fam s ph) (h : step flag ncpu lb s = some s') : ∃ ph', Fam s' ph' := by
  obtain ⟨ph', ha, hruns⟩ := advances_step hi hf h
  exact ⟨ph', hruns, fun _ => hf.step_dead hi h ha, fun _ => hf.step_idle hi h ha, fun _ => hf.step_busy hi h ha,
    fun _ _ => hf.step_lock hi h ha, fun _ => hf.step_chan hi h ha, fun _ => hf.step_found hi h ha,
    fun _ hp _ => hf.step_woke hi h ha hp, fun _ => hf.step_orphaned hi h ha, fun _ => hf.step_exits ha,
    fun _ _ => hf.step_reaped hi h, fun _ _ => hf.step_parent hi h, hf.step_init hi h, fun _ => hf.step_child hi h⟩

lemma Boot.fam (h : Boot s) : Fam s fun _ => .calm false where
  runs p hp := by
    have : p = initproc := by
      by_contra hne
      simp [State.proc, h.mem, userinit, hne, ProcState.alive] at hp
    rw [h.kstk, if_pos this]
    simp [forkret, settled, Runs, Op.stops, Op.next, Op.calmly, Phase.isCalm]
  dead p _ := by simp
  idle p _ := Or.inl rfl
  busy p hp := by simp [Phase.busy] at hp
  lock p c hp := by simp [Phase.isCalm] at hp
  chan p := by
    rw [State.proc, h.mem, userinit]
    dsimp only
    split_ifs <;> simp
  found p hp := by simp at hp
  woke p hp := by simp at hp
  orphaned p hp := by simp at hp
  exits p hp := by simp [Phase.exits] at hp
  reaped p z hz hw := by
    have := hw.1
    rw [State.proc, h.mem, userinit] at this
    dsimp only at this
    split_ifs at this
  parent j p hj := by
    rw [State.proc, h.mem, userinit] at hj
    dsimp only at hj
    split_ifs at hj
  init := by
    rw [State.proc, h.mem]
    exact ⟨rfl, rfl⟩
  child j hj hji := by
    rw [State.proc, h.mem, userinit] at hj
    simp [hji, ProcState.used] at hj

end Os132

import Os132.Kernel.Record

/-!
# Before the first process

`main` starts the other processors before it calls `userinit`, and they enter `scheduler` while the
process table is still empty. A run from there is a run of the machine in which the boot processor
does nothing until `userinit`, taken as one step, puts the first process in the table and the boot
processor enters `scheduler` too.
-/

namespace Os132

open Op

variable {flag : SchedFlag} {ncpu n : ℕ} {s s' : State} {c : CpuId} {lb : Label} {emb : Slot → Option (Slot × ℕ)}

/-- The machine and whether `userinit` has returned. -/
structure Startup where
  state : State
  up : Bool

/-- `userinit`, and the call of `scheduler` by the boot processor. -/
def State.userinit (s : State) : State :=
  { s with
    mem := { s.mem with proc := Os132.userinit.proc, nextpid := Os132.userinit.nextpid, kmem := Os132.userinit.kmem }
    kstk := fun i => if i = initproc then forkret else s.kstk i
    cpu := fun c => if c = 0 then { s.cpu c with ops := [schedTop] } else s.cpu c }

/-- A step of a CPU, or `userinit`. -/
def Startup.step (flag : SchedFlag) (ncpu : ℕ) (lb : Option Label) (x : Startup) : Option Startup :=
  match lb with
  | none => if x.up then none else some ⟨x.state.userinit, true⟩
  | some lb => (Os132.step flag ncpu lb x.state).map fun s => ⟨s, x.up⟩

/-- The boot processor is about to call `userinit`, with interrupts off; the others are about to enter the
loop of `scheduler`, and nothing has been assigned to `p`, `high` and `medium`. -/
structure PowerOn (x : Startup) : Prop where
  up : x.up = false
  proc : ∀ i, x.state.proc i = {}
  lock : ∀ lk, x.state.lock lk = none
  kstk : ∀ i, x.state.kstk i = []
  intena : ∀ i, x.state.intena i = none
  panicked : x.state.panicked = false
  cpuProc : ∀ c, (x.state.cpu c).proc = none
  ncli : ∀ c, (x.state.cpu c).ncli = 0
  ie : (x.state.cpu 0).ie = false
  ops : ∀ c, (x.state.cpu c).ops = if c = 0 then [] else [schedTop]
  t : ∀ c, (x.state.cpu c).loc.t = 0
  head : ∀ c, (x.state.cpu c).loc.head = none
  unassigned : ∀ c, (x.state.cpu c).loc.p = none ∧ (x.state.cpu c).loc.high = none ∧ (x.state.cpu c).loc.medium = none

/-- The state at power-on in which all other variables are zero. -/
def powerOn : Startup where
  state := { mem := {}, lock _ := none, cpu c := { ops := if c = 0 then [] else [schedTop] }, kstk _ := [], intena _ := none,
             panicked := false }
  up := false

lemma powerOn_powerOn : PowerOn powerOn :=
  ⟨rfl, fun _ => rfl, fun _ => rfl, fun _ => rfl, fun _ => rfl, rfl, fun _ => rfl, fun _ => rfl, rfl, fun _ => rfl,
    fun _ => rfl, fun _ => rfl, fun _ => ⟨rfl, rfl, rfl⟩⟩

/-- Runs of the kernel from power-on. -/
abbrev StartupRun (flag : SchedFlag) (ncpu n : ℕ) := Lts.Run PowerOn (Startup.step flag ncpu) n

/-- Until `userinit` the table is empty, and the boot processor stays where it is. -/
structure Empty (s : State) : Prop where
  unused : ∀ i, (s.proc i).state = .unused
  ops : (s.cpu 0).ops = []
  ie : (s.cpu 0).ie = false
  ncli : (s.cpu 0).ncli = 0

lemma Empty.proc (h : Empty s) (hi : Inv s emb) (c : CpuId) : (s.cpu c).proc = none := by
  by_contra hc
  obtain ⟨p, hp⟩ := Option.ne_none_iff_exists'.1 hc
  have hcur := hi.cur c p hp
  rw [h.unused p] at hcur
  split_ifs at hcur
  simp at hcur

lemma Empty.cpu_ne (h : Empty s) (hi : Inv s emb) (hs : step flag ncpu lb s = some s') : lb.cpu ≠ 0 := by
  intro hc
  unfold step at hs
  split_ifs at hs
  rw [hc] at hs
  split at hs
  · simp [interrupt, h.ie] at hs
  · simp [interrupt, h.ie] at hs
  · rw [ops_of_none (h.proc hi 0), h.ops] at hs
    cases hs

lemma Inv.idle_pre {op : Op} {r : List Op} (hi : Inv s emb) (hp : (s.cpu c).proc = none) (ho : s.ops c = op :: r)
    (h1 : ∀ lk, op ≠ spin lk) (h2 : op ≠ Op.sched) : ∃ g : Sig, op.pre g ∧ g.emb = none ∧ g.sch = true := by
  obtain ⟨g, hok, hemb, hsch⟩ := hi.cpu c
  rw [hp] at hemb hsch
  exact ⟨g, (hok.typed ho h1 h2).1, hemb, hsch⟩

/-- A scheduler that has no process to run leaves the table empty. -/
lemma Empty.step (h : Empty s) (hi : Inv s emb) (hs : step flag ncpu lb s = some s') : Empty s' := by
  obtain ⟨hk, -⟩ := step_kind hi hs
  have hcpu := hk.cpu_ne (h.cpu_ne hi hs).symm
  refine ⟨fun i => ?_, by rw [hcpu]; exact h.ops, by rw [hcpu]; exact h.ie, by rw [hcpu]; exact h.ncli⟩
  have hu := h.unused i
  have hp := h.proc hi lb.cpu
  have hrec := step_rec hk i
  generalize s'.proc i = p' at hrec
  cases hrec with
  | same => exact hu
  | visit => exact hu
  | visitRun _ _ _ _ _ _ hr =>
    rw [hu] at hr
    cases hr
  | choose _ _ hr =>
    rw [hu] at hr
    cases hr
  | leave st r ho hj =>
    rw [hp] at hj
    cases hj
  | act op r ch p' ho ha hst hc =>
    generalize s.proc i = p at hc hu
    cases hc with
    | same | kstack | pgdir | freeKstack | parent | adopt => exact hu
    | store f _ _ => rw [Store.apply_state, hu]
    | np f _ _ _ => rw [NpStore.apply_state, hu]
    | late f _ _ _ => rw [LateStore.apply_state, hu]
    | free => rfl
    | leave st hop => exact absurd hop (hst st)
    | alloc hop =>
      subst hop
      obtain ⟨g, ⟨-, -, hpre⟩, -, hsch⟩ := hi.idle_pre hp ho (by simp) (by simp)
      rw [hsch] at hpre
      cases hpre
    | publish hop =>
      subst hop
      obtain ⟨g, ⟨-, hpre⟩, hemb, -⟩ := hi.idle_pre hp ho (by simp) (by simp)
      rw [hemb] at hpre
      cases hpre
    | wake _ hw =>
      rw [hu] at hw
      cases hw
    | adoptWake _ _ _ hw =>
      rw [hu] at hw
      cases hw
    | kill =>
      unfold Proc.kill
      simp [hu]
    | reap => rfl
    | report => exact hu
    | reapReport => rfl

lemma PowerOn.inv {x : Startup} (h : PowerOn x) : Inv x.state fun _ => none where
  cpu c := by
    have hops : x.state.ops c = if c = 0 then [] else [schedTop] := by rw [ops_of_none (h.cpuProc c), h.ops]
    refine ⟨⟨[], (x.state.cpu c).ie, none, true⟩, ⟨?_, ?_, by simp, ?_, fun _ => rfl, ?_⟩, by simp [h.cpuProc],
      by simp [h.cpuProc]⟩
    · rw [hops]
      split_ifs
      · trivial
      · simp [ThreadOk, Typed, Op.pre, Op.switches]
    · simp [h.lock]
    · rw [h.ncli, hops]
      by_cases hc : c = 0 <;> simp [hc, spinning]
    · simp [h.ncli]
  sched c p hp := by simp [h.cpuProc] at hp
  inj c d p hp := by simp [h.cpuProc] at hp
  cur c p hp := by simp [h.cpuProc] at hp
  run p hp := by simp [h.proc] at hp
  parked p _ hst := by simp [h.proc] at hst
  dead p _ := rfl
  fork p i k hp := by simp at hp
  forkInj p q i k k' hp := by simp at hp

lemma PowerOn.empty {x : Startup} (h : PowerOn x) : Empty x.state :=
  ⟨fun i => by rw [h.proc], by rw [h.ops, if_pos rfl], h.ie, h.ncli 0⟩

lemma userinit_cpu_ne (hc : c ≠ 0) : s.userinit.cpu c = s.cpu c := by
  simp [State.userinit, hc]

/-- `userinit` establishes the invariant with the first process. -/
lemma Empty.userinit_inv (h : Empty s) (hi : Inv s emb) : Inv s.userinit fun _ => none := by
  have hp (c : CpuId) : (s.userinit.cpu c).proc = none := by
    by_cases hc : c = 0
    · subst hc
      simpa [State.userinit] using h.proc hi 0
    · rw [userinit_cpu_ne hc]
      exact h.proc hi c
  refine ⟨fun c => ?_, fun c p h => ?_, fun c d p h => ?_, fun c p h => ?_, fun p h => ?_, fun p _ hst b hb => ?_,
    fun p _ => rfl, fun p i k h => ?_, fun p q i k k' h => ?_⟩
  · obtain ⟨g, hok, hemb, hsch⟩ := hi.cpu c
    rw [h.proc hi c] at hemb hsch
    have hops := ops_of_none (hp c)
    by_cases hc : c = 0
    · subst hc
      have hn := hok.ncli
      rw [h.ncli] at hn
      have hheld : g.held = [] := List.eq_nil_of_length_eq_zero (by split_ifs at hn <;> omega)
      have hcpu : s.userinit.cpu 0 = { s.cpu 0 with ops := [schedTop] } := by simp [State.userinit]
      refine ⟨⟨[], false, none, true⟩, ⟨?_, fun lk => ?_, by simp, ?_, fun _ => ?_, fun hne => ?_⟩,
        by simp [hp], by simp [hp]⟩
      · rw [hops, hcpu]
        simp [ThreadOk, Typed, Op.pre, Op.switches]
      · rw [← hheld]
        exact hok.held lk
      · rw [hops, hcpu]
        simp [h.ncli, spinning]
      · rw [hcpu]
        exact h.ie
      · rw [hcpu] at hne
        exact absurd h.ncli hne
    · have hcpu := userinit_cpu_ne (s := s) hc
      have hops' : s.userinit.ops c = s.ops c := by rw [hops, hcpu, ops_of_none (h.proc hi c)]
      refine ⟨g, ⟨by rw [hops']; exact hok.thread, hok.held, hok.nodup, by rw [hops', hcpu]; exact hok.ncli,
        by rw [hcpu]; exact hok.on, by rw [hcpu]; exact hok.off⟩, by rw [hemb, hp]; rfl, by rw [hsch, hp]⟩
  · rw [hp] at h
    cases h
  · rw [hp] at h
    cases h
  · rw [hp] at h
    cases h
  · change (Os132.userinit.proc p).state = .running at h
    rw [Os132.userinit] at h
    dsimp only at h
    split_ifs at h
  · have hpi : p = initproc := by
      by_contra hne
      change (Os132.userinit.proc p).state ∈ _ at hst
      simp [Os132.userinit, hne] at hst
    subst hpi
    simpa [State.userinit] using typed_forkret b
  · cases h
  · cases h

/-- The invariant of the kernel in a run from power-on, with what holds until `userinit`. -/
theorem startup_inv (r : StartupRun flag ncpu n) : ∀ k, k ≤ n → (∃ emb, Inv (r.state k).state emb) ∧
    ((r.state k).up = false → Empty (r.state k).state) := by
  apply r.invariant (P := fun x => (∃ emb, Inv x.state emb) ∧ (x.up = false → Empty x.state))
  · exact fun x hx => ⟨⟨_, hx.inv⟩, fun _ => hx.empty⟩
  · rintro x lb x' ⟨⟨emb, hi⟩, he⟩ hs
    cases lb with
    | none =>
      simp only [Startup.step] at hs
      split_ifs at hs with hup
      obtain rfl := Option.some.inj hs
      exact ⟨⟨_, (he (by simpa using hup)).userinit_inv hi⟩, fun h => by cases h⟩
    | some lb =>
      obtain ⟨s', hs', rfl⟩ := Option.map_eq_some_iff.1 hs
      exact ⟨⟨_, hi.step_inv hs'⟩, fun hup => (he hup).step hi hs'⟩

end Os132

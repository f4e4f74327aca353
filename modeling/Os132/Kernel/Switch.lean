import Os132.Kernel.Lifecycle

/-!
# Every step keeps the invariant

The steps of a thread that stays on its CPU, the two switches between a scheduler and a
process, and `run_inv`, the invariant at every time of every run.
-/

namespace Os132

open Op

variable {flag : SchedFlag} {s s' : State} {c : CpuId} {g : Sig} {emb : Slot → Option (Slot × Nat)}
  {l r : List Op} {op : Op} {ch : Choice}

namespace Inv

/-- A step of a thread that changes no process state and nothing that `fork` counts. -/
lemma silent (hi : Inv s emb) (hts : ThreadStep s s' c l) (h0 : atSched (s.ops c) = false)
    (h1 : atSched l = false) (hok : CpuOk s' c g) (hemb : g.emb = (s.cpu c).proc.bind emb)
    (hsch : g.sch = (s.cpu c).proc.isNone) (hst : ∀ j, (s'.proc j).state = (s.proc j).state)
    (hks : ∀ j, (s'.proc j).kstack = (s.proc j).kstack) (hpg : ∀ j, (s'.proc j).pgdir = (s.proc j).pgdir)
    (hpar : ∀ j, (s'.proc j).parent = (s.proc j).parent) : Inv s' emb := by
  refine hi.threadStep hts h0 h1 hok hsch hemb (fun _ _ => rfl) (fun j => ?_) ?_ hi.forkInj
  · rw [hst]
    exact .same _
  · intro q i k hq
    have he := hi.fork q i k hq
    have hself : (s.cpu c).proc ≠ some i := by
      intro hp
      have := hi.state_of_cur hp h0
      simp [he.state] at this
    refine ⟨(hst i).trans he.state, ?_, ?_, ?_, ?_⟩
    · rw [hks]; exact he.kstack
    · rw [hts.kstk, if_neg hself, hts.intena]; exact he.context
    · rw [hpg]; exact he.pgdir
    · rw [hpar]; exact he.parent

lemma silent_mem (hi : Inv s emb) (hts : ThreadStep s s' c l) (h0 : atSched (s.ops c) = false)
    (h1 : atSched l = false) (hok : CpuOk s' c g) (hemb : g.emb = (s.cpu c).proc.bind emb)
    (hsch : g.sch = (s.cpu c).proc.isNone) (hm : s'.mem = s.mem) : Inv s' emb := by
  have hp : s'.proc = s.proc := by rw [State.proc, hm]
  exact hi.silent hts h0 h1 hok hemb hsch (by simp [hp]) (by simp [hp]) (by simp [hp]) (by simp [hp])

lemma panic (hi : Inv s emb) : Inv s.panic emb where
  cpu c := by
    obtain ⟨g, hok, h⟩ := hi.cpu c
    exact ⟨g, ⟨hok.thread, hok.held, hok.nodup, hok.ncli, hok.on, hok.off⟩, h⟩
  sched := hi.sched
  inj := hi.inj
  cur := hi.cur
  run := hi.run
  parked := hi.parked
  dead := hi.dead
  fork p i k h :=
    have he := hi.fork p i k h
    ⟨he.state, he.kstack, he.context, he.pgdir, he.parent⟩
  forkInj := hi.forkInj

/-- `allocproc` builds the thread of the process that it creates. -/
lemma setThread (hi : Inv s emb) {i : Slot} (hst : (s.proc i).state = .embryo)
    (hc : ∀ d, (s.cpu d).proc ≠ some i) :
    Inv { s with
      kstk := fun j => if j = i then forkret else s.kstk j
      intena := fun j => if j = i then none else s.intena j } emb where
  cpu d := by
    obtain ⟨g, hok, h⟩ := hi.cpu d
    have hops : State.ops { s with
        kstk := fun j => if j = i then forkret else s.kstk j
        intena := fun j => if j = i then none else s.intena j } d = s.ops d := by
      unfold State.ops
      cases hp : (s.cpu d).proc with
      | none => simp
      | some p =>
        have : p ≠ i := fun hpi => hc d (hpi ▸ hp)
        simp [this]
    exact ⟨g, ⟨hops ▸ hok.thread, hok.held, hok.nodup, by rw [hops]; exact hok.ncli, hok.on, hok.off⟩, h⟩
  sched := hi.sched
  inj := hi.inj
  cur d p hp := by
    have : p ≠ i := fun hpi => hc d (hpi ▸ hp)
    simpa [this] using hi.cur d p hp
  run := hi.run
  parked p hp hs b := by
    have : p ≠ i := by
      rintro rfl
      simp [State.proc] at hs hst
      simp [hst] at hs
    simpa [this] using hi.parked p hp hs b
  dead := hi.dead
  fork p j k h := by
    have he := hi.fork p j k h
    refine ⟨he.state, he.kstack, fun hk => ?_, he.pgdir, he.parent⟩
    by_cases hji : j = i
    · simp [hji]
    · simpa [hji] using he.context hk
  forkInj := hi.forkInj

/-- A scheduler switches to a `RUNNABLE` process. -/
theorem dispatch (hi : Inv s emb) {i : Slot} (hp : (s.cpu c).proc = none) (hok : CpuOk s c g)
    (hheld : g.held = [.ptable]) (hall : ∀ b, Typed ⟨[.ptable], b, none, true⟩ (s.cpu c).ops)
    (hr : (s.proc i).state = .runnable) : Inv (s.dispatch c i) emb := by
  have hops : s.ops c = (s.cpu c).ops := ops_of_none hp
  have hl : s.lock .ptable = some c := (hok.held _).mp (by simp [hheld])
  have h0 : atSched (s.ops c) = false := by rw [hops]; exact (hall true).not_atSched
  have hi' : ∀ d, (s.cpu d).proc ≠ some i := hi.not_cur hl h0 (by simp [hr])
  have hself : (s.dispatch c i).cpu c =
      { s.cpu c with proc := some i, intena := (s.intena i).getD (s.cpu c).intena } := by
    simp [State.dispatch]
  have hne : ∀ d, d ≠ c → (s.dispatch c i).cpu d = s.cpu d := fun d hd => State.setCpu_ne _ _ _ hd
  have hproc : ∀ d, d ≠ c → ∀ p, ((s.dispatch c i).cpu d).proc = some p → p ≠ i := by
    intro d hd p hdp
    rw [hne d hd] at hdp
    exact fun h => hi' d (h ▸ hdp)
  have hstate : ∀ p, p ≠ i → (s.dispatch c i).proc p = s.proc p := by
    intro p hpi
    simp [State.dispatch, State.proc, Table.set_of_ne _ _ hpi]
  have hrun : ((s.dispatch c i).proc i).state = .running := by
    simp [State.dispatch, State.proc]
  have hncli : (s.cpu c).ncli = 1 := by
    have := hok.ncli
    rw [hops, (hall true).not_spinning, hheld] at this
    simpa using this
  have hoff := hok.off (by omega)
  have hty : Typed ⟨[.ptable], (s.intena i).getD (s.cpu c).intena, emb i, false⟩ (s.kstk i) := by
    refine hi.parked i hi' (by simp [hr]) _ ?_
    cases s.intena i <;> simp
  constructor
  case cpu =>
    intro d
    by_cases hd : d = c
    · subst hd
      have hops' : (s.dispatch d i).ops d = s.kstk i := ops_of_proc (by rw [hself])
      refine ⟨⟨[.ptable], (s.intena i).getD (s.cpu d).intena, emb i, false⟩,
        ⟨?_, ?_, by simp, ?_, ?_, ?_⟩, by rw [hself]; rfl, by rw [hself]; rfl⟩
      · rw [hops']; exact hty.threadOk
      · rw [← hheld]; exact hok.held
      · rw [hops', hself, hty.not_spinning]; simpa using hncli
      · rw [hself]; intro h; simp only at h; omega
      · rw [hself]; exact fun _ => ⟨hoff.1, rfl⟩
    · obtain ⟨g', hok', h⟩ := hi.cpu d
      have hops' : (s.dispatch c i).ops d = s.ops d := by
        unfold State.ops
        rw [hne d hd]
        rfl
      refine ⟨g', ⟨hops' ▸ hok'.thread, hok'.held, hok'.nodup, ?_, ?_, ?_⟩, ?_⟩
      · rw [hops', hne d hd]; exact hok'.ncli
      · rw [hne d hd]; exact hok'.on
      · rw [hne d hd]; exact hok'.off
      · rw [hne d hd]; exact h
  case sched =>
    intro d p hdp b
    by_cases hd : d = c
    · subst hd
      rw [hself]
      exact hall b
    · rw [hne d hd] at hdp ⊢
      exact hi.sched d p hdp b
  case inj =>
    intro d d' p h1 h2
    by_cases hd : d = c <;> by_cases hd' : d' = c
    · rw [hd, hd']
    · subst hd
      rw [hself] at h1
      exact absurd (Option.some.inj h1).symm (hproc d' hd' p h2)
    · subst hd'
      rw [hself] at h2
      exact absurd (Option.some.inj h2).symm (hproc d hd p h1)
    · rw [hne d hd] at h1
      rw [hne d' hd'] at h2
      exact hi.inj d d' p h1 h2
  case cur =>
    intro d p hdp
    by_cases hd : d = c
    · subst hd
      rw [hself] at hdp
      obtain rfl := Option.some.inj hdp
      rw [show (s.dispatch d i).kstk i = s.kstk i from rfl, hty.not_atSched, if_neg (by simp), hrun]
    · rw [hstate p (hproc d hd p hdp)]
      rw [hne d hd] at hdp
      exact hi.cur d p hdp
  case run =>
    intro p hpr
    by_cases hpi : p = i
    · exact ⟨c, by rw [hself, hpi]⟩
    · rw [hstate p hpi] at hpr
      obtain ⟨d, hd⟩ := hi.run p hpr
      have hdc : d ≠ c := by
        rintro rfl
        rw [hp] at hd
        simp at hd
      exact ⟨d, by rw [hne d hdc]; exact hd⟩
  case parked =>
    intro p hpc hst
    by_cases hpi : p = i
    · exact absurd (by rw [hself, hpi]) (hpc c)
    · rw [hstate p hpi] at hst
      refine hi.parked p (fun d hd => ?_) hst
      by_cases hdc : d = c
      · subst hdc
        simp [hp] at hd
      · exact hpc d (by rw [hne d hdc]; exact hd)
  case dead =>
    intro p hst
    by_cases hpi : p = i
    · rw [hpi, hrun] at hst
      simp at hst
    · rw [hstate p hpi] at hst
      exact hi.dead p hst
  case fork =>
    intro p j k h
    have he := hi.fork p j k h
    have hji : j ≠ i := by
      rintro rfl
      have := he.state
      simp [hr] at this
    refine ⟨?_, ?_, he.context, ?_, ?_⟩ <;> rw [hstate j hji]
    · exact he.state
    · exact he.kstack
    · exact he.pgdir
    · exact he.parent
  case forkInj => exact hi.forkInj

/-- A process leaves `RUNNING` and is about to call `sched`. -/
theorem leave (hi : Inv s emb) {st : ProcState} {p : Slot} (ho : s.ops c = schedAs st :: r)
    (hp : (s.cpu c).proc = some p) :
    Inv { s.setOps c (Op.sched :: r) with
      mem := { s.mem with proc := s.mem.proc.set p fun q => { q with state := st } } } emb := by
  obtain ⟨g, hok, hemb, hsch⟩ := hi.cpu c
  have ht := hok.typed ho (by simp) (by simp)
  have h0 : atSched (s.ops c) = false := by rw [ho]; rfl
  have hrun := hi.state_of_cur hp h0
  have hts := threadStep_setOps s c (Op.sched :: r)
    { s.mem with proc := s.mem.proc.set p fun q => { q with state := st } }
  set s' : State := { s.setOps c (Op.sched :: r) with
    mem := { s.mem with proc := s.mem.proc.set p fun q => { q with state := st } } } with hs'
  have hne : ∀ j, j ≠ p → s'.proc j = s.proc j := by
    intro j hj
    simp [hs', State.proc, Table.set_of_ne _ _ hj]
  have hst : (s'.proc p).state = st := by simp [hs', State.proc]
  have hdisj : ∀ d, d ≠ c → ∀ q, (s.cpu c).proc = some q → (s.cpu d).proc ≠ some q :=
    fun d hd q hq hdq => hd (hi.inj d c q hdq hq)
  constructor
  case cpu =>
    intro d
    rw [hts.proc_eq d]
    by_cases hd : d = c
    · subst hd
      have hto : ThreadOk { g with emb := g.emb } (Op.sched :: r) := ⟨ht.1.1, (typed_cons ht (by simp)).2⟩
      exact ⟨g, cpuOk_of_threadStep hts (by simp [hs']) (by simp [hs', State.setOps_self])
        (by simp [hs', State.setOps_self]) (by simp [hs', State.setOps_self]) hok (by rw [ho]; rfl) hto rfl, hemb, hsch⟩
    · obtain ⟨g', hok', h⟩ := hi.cpu d
      exact ⟨g', hts.cpuOk_ne hd (hdisj d hd) hok', h⟩
  case sched =>
    intro d q hq b
    rw [hts.proc_eq d] at hq
    have hops : (s'.cpu d).ops = (s.cpu d).ops := by
      by_cases hd : d = c
      · subst hd
        simp [hts.cops, hq]
      · rw [hts.others d hd]
    rw [hops]
    exact hi.sched d q hq b
  case inj =>
    intro d d' q h1 h2
    rw [hts.proc_eq] at h1 h2
    exact hi.inj d d' q h1 h2
  case cur =>
    intro d q hq
    rw [hts.proc_eq d] at hq
    by_cases hd : d = c
    · subst hd
      obtain rfl := Option.some.inj (hp.symm.trans hq)
      rw [hts.kstk, if_pos hp, show atSched (Op.sched :: r) = true from rfl, if_pos rfl, hst]
      exact ht.1.2.1
    · have hqp : q ≠ p := fun h => hd (hi.inj d c q hq (h ▸ hp))
      rw [hts.kstk, if_neg (fun h => hdisj d hd q h hq), hne q hqp]
      exact hi.cur d q hq
  case run =>
    intro q hq
    have hqp : q ≠ p := by
      rintro rfl
      have := ht.1.2.1
      rw [← hst, hq] at this
      simp at this
    rw [hne q hqp] at hq
    obtain ⟨d, hd⟩ := hi.run q hq
    exact ⟨d, (hts.proc_eq d).trans hd⟩
  case parked =>
    intro q hq hstate
    have hqp : q ≠ p := fun h => hq c ((hts.proc_eq c).trans (h ▸ hp))
    rw [hne q hqp] at hstate
    rw [hts.kstk, hts.intena, if_neg (fun h => hq c ((hts.proc_eq c).trans h))]
    exact hi.parked q (fun d hd => hq d ((hts.proc_eq d).trans hd)) hstate
  case dead =>
    intro q hq
    by_cases hqp : q = p
    · subst hqp
      rw [hst] at hq
      have hz : st = .zombie := by
        have := ht.1.2.1
        cases st <;> simp_all
      have := ht.1.2.2 hz
      rwa [hemb, hp] at this
    · rw [hne q hqp] at hq
      exact hi.dead q hq
  case fork =>
    intro q j k h
    have he := hi.fork q j k h
    have hjp : j ≠ p := by
      rintro rfl
      have := he.state
      simp [hrun] at this
    refine ⟨?_, ?_, ?_, ?_, ?_⟩
    · rw [hne j hjp]; exact he.state
    · rw [hne j hjp]; exact he.kstack
    · rw [hts.kstk, if_neg fun h => hjp (Option.some.inj (h.symm.trans hp)), hts.intena]
      exact he.context
    · rw [hne j hjp]; exact he.pgdir
    · rw [hne j hjp]; exact he.parent
  case forkInj => exact hi.forkInj

/-- `sched` switches to the scheduler of the CPU: none of its panics occurs. -/
theorem schedStep (hi : Inv s emb) {p : Slot} (ho : s.ops c = Op.sched :: r) (hp : (s.cpu c).proc = some p) :
    s.schedStep c r = { (s.setOps c r).setCpu c fun k => { k with proc := none } with
      intena := fun j => if j = p then some (s.cpu c).intena else s.intena j } ∧
    Inv (s.schedStep c r) emb := by
  obtain ⟨g, hok, hemb, hsch⟩ := hi.cpu c
  have ht : g.held = [.ptable] ∧ Typed g r := by simpa [ho, ThreadOk] using hok.thread
  have h0 : atSched (s.kstk p) = true := by rw [← ops_of_proc hp, ho]; rfl
  have hstate := hi.cur c p hp
  rw [if_pos h0] at hstate
  have hl : s.lock .ptable = some c := (hok.held _).mp (by simp [ht.1])
  have hncli : (s.cpu c).ncli = 1 := by simpa [ht.1] using hok.ncli_eq ho (by simp)
  have hoff := hok.off (by omega)
  have hnr : (s.proc p).state ≠ .running := by
    intro h
    simp [h] at hstate
  have heq : s.schedStep c r = { (s.setOps c r).setCpu c fun k => { k with proc := none } with
      intena := fun j => if j = p then some (s.cpu c).intena else s.intena j } := by
    simp [State.schedStep, hp, hl, hncli, hnr, hoff.1]
  refine ⟨heq, ?_⟩
  rw [heq]
  set s' : State := { (s.setOps c r).setCpu c fun k => { k with proc := none } with
    intena := fun j => if j = p then some (s.cpu c).intena else s.intena j } with hs'
  have hself : s'.cpu c = { s.cpu c with proc := none } := by
    simp [hs', State.setOps_self, hp]
  have hne : ∀ d, d ≠ c → s'.cpu d = s.cpu d := by
    intro d hd
    simp [hs', State.setCpu_ne _ _ _ hd, State.setOps_ne _ _ _ hd]
  have hkstk : ∀ q, s'.kstk q = if q = p then r else s.kstk q := by
    intro q
    simp [hs', State.setOps_kstk, hp, eq_comm]
  have hproc : s'.proc = s.proc := by simp [hs', State.proc]
  have hlock : s'.lock = s.lock := by simp [hs']
  have hcur : ∀ d, d ≠ c → ∀ q, (s.cpu d).proc = some q → q ≠ p :=
    fun d hd q hq h => hd (hi.inj d c q hq (h ▸ hp))
  constructor
  case cpu =>
    intro d
    by_cases hd : d = c
    · subst hd
      have hty := hi.sched d p hp g.ie
      have hops : s'.ops d = (s.cpu d).ops := by rw [ops_of_none (by rw [hself]), hself]
      refine ⟨⟨[.ptable], g.ie, none, true⟩, ⟨?_, ?_, by simp, ?_, ?_, ?_⟩, by rw [hself]; rfl, by rw [hself]; rfl⟩
      · rw [hops]; exact hty.threadOk
      · rw [hlock, ← ht.1]; exact hok.held
      · rw [hops, hself, hty.not_spinning]; simpa using hncli
      · rw [hself]; intro h; simp only at h; omega
      · rw [hself]; exact fun _ => hoff
    · obtain ⟨g', hok', h⟩ := hi.cpu d
      have hops : s'.ops d = s.ops d := by
        unfold State.ops
        rw [hne d hd]
        cases hq : (s.cpu d).proc with
        | none => rfl
        | some q => simp [hkstk, hcur d hd q hq]
      refine ⟨g', ⟨hops ▸ hok'.thread, by rw [hlock]; exact hok'.held, hok'.nodup, ?_, ?_, ?_⟩, ?_⟩
      · rw [hops, hne d hd]; exact hok'.ncli
      · rw [hne d hd]; exact hok'.on
      · rw [hne d hd]; exact hok'.off
      · rw [hne d hd]; exact h
  case sched =>
    intro d q hq b
    by_cases hd : d = c
    · subst hd
      simp [hself] at hq
    · rw [hne d hd] at hq ⊢
      exact hi.sched d q hq b
  case inj =>
    intro d d' q h1 h2
    by_cases hd : d = c
    · subst hd
      simp [hself] at h1
    · by_cases hd' : d' = c
      · subst hd'
        simp [hself] at h2
      · rw [hne d hd] at h1
        rw [hne d' hd'] at h2
        exact hi.inj d d' q h1 h2
  case cur =>
    intro d q hq
    by_cases hd : d = c
    · subst hd
      simp [hself] at hq
    · rw [hne d hd] at hq
      rw [hkstk, if_neg (hcur d hd q hq), hproc]
      exact hi.cur d q hq
  case run =>
    intro q hq
    rw [hproc] at hq
    obtain ⟨d, hd⟩ := hi.run q hq
    have hdc : d ≠ c := by
      rintro rfl
      obtain rfl := Option.some.inj (hp.symm.trans hd)
      exact hnr hq
    exact ⟨d, by rw [hne d hdc]; exact hd⟩
  case parked =>
    intro q hq hst b hb
    rw [hproc] at hst
    rw [hkstk]
    by_cases hqp : q = p
    · subst hqp
      have hb' : b = g.ie := by
        rw [← hoff.2]
        simpa [hs', eq_comm] using hb
      obtain ⟨held, ie, em, sch⟩ := g
      obtain ⟨rfl, hty⟩ := ht
      simp only [hp, Option.bind_some, Option.isNone_some] at hemb hsch
      subst hemb hsch hb'
      simpa using hty
    · rw [if_neg hqp]
      refine hi.parked q (fun d hd => ?_) hst b (by simpa [hs', hqp] using hb)
      by_cases hdc : d = c
      · subst hdc
        exact hqp (Option.some.inj (hd.symm.trans hp))
      · exact hq d (by rw [hne d hdc]; exact hd)
  case dead =>
    intro q hq
    rw [hproc] at hq
    exact hi.dead q hq
  case fork =>
    intro q j k h
    have he := hi.fork q j k h
    have hjp : j ≠ p := by
      rintro rfl
      rw [he.state] at hstate
      simp at hstate
    refine ⟨by rw [hproc]; exact he.state, by rw [hproc]; exact he.kstack, ?_, by rw [hproc]; exact he.pgdir,
      by rw [hproc]; exact he.parent⟩
    rw [hkstk, if_neg hjp]
    simpa [hs', hjp] using he.context
  case forkInj => exact hi.forkInj

lemma allocContext_step (hi : Inv s emb) {i : Slot} (ho : s.ops c = allocContext i :: r) :
    Inv { s.setOps c r with
      kstk := fun j => if j = i then forkret else (s.setOps c r).kstk j
      intena := fun j => if j = i then none else s.intena j } (embExec s c ch (allocContext i) emb) := by
  obtain ⟨g, hok, hemb, hsch⟩ := hi.cpu c
  have ht := hok.typed ho (by simp) (by simp)
  have h0 : atSched (s.ops c) = false := by rw [ho]; rfl
  have hr := (typed_cons ht (by simp)).2
  obtain ⟨p, hp, hpe⟩ : ∃ p, (s.cpu c).proc = some p ∧ emb p = some (i, 2) :=
    Option.bind_eq_some_iff.mp (hemb ▸ ht.1.2)
  have he := hi.fork p i 2 hpe
  have hci : ∀ d, (s.cpu d).proc ≠ some i := by
    intro d hd
    have h1 := hi.cur d i hd
    rw [he.state] at h1
    split_ifs at h1
    simp at h1
  have hi1 := hi.setThread he.state hci
  set s1 : State := { s with
    kstk := fun j => if j = i then forkret else s.kstk j
    intena := fun j => if j = i then none else s.intena j } with hs1
  set s' : State := { s.setOps c r with
    kstk := fun j => if j = i then forkret else (s.setOps c r).kstk j
    intena := fun j => if j = i then none else s.intena j } with hs'
  have hops1 : s1.ops c = s.ops c := by
    rw [ops_of_proc hp, ops_of_proc (s := s1) hp]
    exact if_neg (fun h : p = i => hci c (h ▸ hp))
  have hproc : s'.proc = s1.proc := by simp [hs', hs1, State.proc]
  have hts : ThreadStep s1 s' c r := by
    refine ⟨fun d hd => State.setOps_ne _ _ _ hd, by simp [hs', hs1, State.setOps_self], fun q => ?_,
      by simp [hs', hs1, State.setOps_self], rfl, fun lk d _ => by simp [hs', hs1]⟩
    by_cases hq : q = i
    · simp [hs', hs1, hq, hci c]
    · simp [hs', hs1, hq, State.setOps_kstk]
  obtain ⟨g1, hok1, hemb1, hsch1⟩ := hi1.cpu c
  have hok' : CpuOk s1 c g :=
    ⟨hops1 ▸ hok.thread, hok.held, hok.nodup, by rw [hops1]; exact hok.ncli, hok.on, hok.off⟩
  have hemb' : embExec s c ch (allocContext i) emb = fun q => if q = p then some (i, 3) else emb q := by
    funext q
    simp [embExec, Op.embAfter, hp, eq_comm]
  rw [hemb']
  refine hi1.threadStep (g := { g with emb := some (i, 3) }) hts (hops1 ▸ h0) hr.not_atSched ?_ hsch ?_ ?_ ?_ ?_ ?_
  · exact cpuOk_of_threadStep hts (by simp [hs', hs1]) (by simp [hs', hs1, State.setOps_self])
      (by simp [hs', hs1, State.setOps_self]) (by simp [hs', hs1, State.setOps_self]) hok' (by rw [hops1, ho]; rfl)
      hr.threadOk hr.not_spinning
  · rw [show (s1.cpu c).proc = some p from hp]
    simp
  · intro q hq
    exact if_neg (fun h : q = p => hq (h ▸ hp))
  · intro j
    rw [hproc]
    exact .same _
  · intro q j k hq
    split_ifs at hq with hqp
    · obtain ⟨rfl, rfl⟩ := Prod.mk.inj (Option.some.inj hq)
      subst hqp
      refine ⟨hproc ▸ he.state, fun _ => hproc ▸ he.kstack (by omega), fun _ => by simp [hs'], ?_, ?_⟩ <;> omega
    · have h1 := hi1.fork q j k hq
      refine ⟨hproc ▸ h1.state, hproc ▸ h1.kstack, fun hk => ?_, hproc ▸ h1.pgdir, hproc ▸ h1.parent⟩
      by_cases hj : j = i
      · simp [hs', hj]
      · have hjc : (s.cpu c).proc ≠ some j := by
          intro h
          have := hi.state_of_cur h h0
          rw [(hi.fork q j k hq).state] at this
          simp at this
        simpa [hs', hs1, hj, State.setOps_kstk, hjc] using h1.context hk
  · intro q q' j k k' h1 h2
    split_ifs at h1 h2 with hqp hqp' hqp'
    · rw [hqp, hqp']
    · obtain ⟨rfl, -⟩ := Prod.mk.inj (Option.some.inj h1)
      exact (hqp' (hi.forkInj q' p i k' 2 h2 hpe)).elim
    · obtain ⟨rfl, -⟩ := Prod.mk.inj (Option.some.inj h2)
      exact (hqp (hi.forkInj q p i k 2 h1 hpe)).elim
    · exact hi.forkInj q q' j k k' h1 h2

/-- The scheduler rewrites its local variables and, in the table, `quanta` and `qvalue`. -/
lemma scanned_step (hi : Inv s emb) (ho : s.ops c = op :: r) (hop : op.switches = true) (l : List Op)
    (loc : SchedLocals) (tbl : Table) (hl : l = r ∨ ∃ i, l = scan i :: r)
    (hf : ∀ j {α : Type} (field : Proc → α), (∀ p a b, field { p with quanta := a, qvalue := b } = field p) →
      field (tbl j) = field (s.proc j)) :
    Inv (s.scanned c l loc tbl) emb ∧
      ∀ i, (tbl i).state = .runnable → Inv ((s.scanned c l loc tbl).dispatch c i) emb := by
  obtain ⟨g, hok, hemb, hsch⟩ := hi.cpu c
  have ht : Typed g (op :: r) := hok.typed ho (by rintro lk rfl; simp [Op.switches] at hop) (by rintro rfl; simp [Op.switches] at hop)
  have h0 : atSched (s.ops c) = false := by rw [ho]; exact ht.not_atSched
  obtain ⟨held, ie, em, sch⟩ := g
  obtain ⟨⟨rfl, rfl⟩, hall⟩ : (held = [.ptable] ∧ sch = true) ∧ ∀ b, Typed ⟨[.ptable], b, em, true⟩ r := by
    have h2 := ht.2
    cases op <;> simp only [Op.switches, Bool.false_eq_true] at hop
    all_goals
      have h1 : held = [.ptable] ∧ sch = true := ht.1
      obtain ⟨rfl, rfl⟩ := h1
      obtain ⟨msg, h⟩ | h := h2
      · simp at h
      · exact ⟨⟨rfl, rfl⟩, (if_pos rfl).mp h⟩
  have hp : (s.cpu c).proc = none := Option.isNone_iff_eq_none.mp hsch.symm
  obtain rfl : em = none := by rw [hp] at hemb; exact hemb
  have hall' : ∀ b, Typed ⟨[.ptable], b, none, true⟩ l := by
    intro b
    rcases hl with rfl | ⟨i, rfl⟩
    · exact hall b
    · exact ⟨⟨rfl, rfl⟩, Or.inr ((if_pos rfl).mpr hall)⟩
  have hts1 := threadStep_setCpu s c l (fun k => { k with loc := loc }) (fun _ => rfl) (fun _ => rfl)
  have hts : ThreadStep s (s.scanned c l loc tbl) c l :=
    ⟨hts1.others, hts1.proc, hts1.kstk, hts1.cops, hts1.intena, hts1.lock⟩
  have hok' : CpuOk (s.scanned c l loc tbl) c ⟨[.ptable], ie, none, true⟩ :=
    cpuOk_of_threadStep hts (by simp [State.scanned]) (by simp [State.scanned, State.setOps_self])
      (by simp [State.scanned, State.setOps_self]) (by simp [State.scanned, State.setOps_self]) hok
      (by rw [ho]; exact ht.not_spinning) (hall' ie).threadOk (hall' ie).not_spinning
  have hi' : Inv (s.scanned c l loc tbl) emb :=
    hi.silent hts h0 (hall' ie).not_atSched hok' (by rw [hp]; rfl) (by rw [hp]; rfl)
      (fun j => hf j Proc.state fun _ _ _ => rfl) (fun j => hf j Proc.kstack fun _ _ _ => rfl)
      (fun j => hf j Proc.pgdir fun _ _ _ => rfl) (fun j => hf j Proc.parent fun _ _ _ => rfl)
  have hp' : ((s.scanned c l loc tbl).cpu c).proc = none := hts.proc.trans hp
  refine ⟨hi', fun i hr => hi'.dispatch hp' hok' rfl ?_ hr⟩
  rw [← ops_of_none hp', hts.ops]
  exact hall'

theorem execOp_inv (hi : Inv s emb) (ho : s.ops c = op :: r) (h : execOp flag c ch r s op = some s') :
    Inv s' (embExec s c ch op emb) := by
  obtain ⟨g, hok, hemb, hsch⟩ := hi.cpu c
  cases op
  case acquire lk =>
    rw [embExec_eq fun _ => rfl]
    obtain ⟨hl, hok'⟩ := cpuOk_acquire hok ho
    simp only [execOp, if_neg hl, Option.some.injEq] at h
    subst h
    exact hi.silent_mem (threadStep_setCpu s c _ _ (fun _ => rfl) (fun _ => rfl)) (by rw [ho]; rfl) rfl hok'
      hemb hsch (by simp)
  case spin lk =>
    rw [embExec_eq fun _ => rfl]
    simp only [execOp] at h
    split_ifs at h with hl
    obtain rfl := Option.some.inj h
    have ht : Typed g (acquire lk :: r) := by simpa [ho, ThreadOk] using hok.thread
    have hts := threadStep_setOps s c r s.mem
    refine hi.silent_mem ⟨hts.others, hts.proc, hts.kstk, hts.cops, hts.intena, fun m d hd => ?_⟩ (by rw [ho]; rfl)
      (typed_cons ht (by simp)).2.not_atSched (cpuOk_spin hok ho hl) hemb hsch (by simp)
    by_cases hm : m = lk
    · simp [hm, hl, Ne.symm hd]
    · simp [hm]
  case sched =>
    rw [embExec_eq fun _ => rfl]
    simp only [execOp, Option.some.injEq] at h
    subst h
    cases hp : (s.cpu c).proc with
    | none => exact by rw [State.schedStep, hp]; exact hi.panic
    | some p => exact (hi.schedStep ho hp).2
  case panic msg =>
    rw [embExec_eq fun _ => rfl]
    simp only [execOp, Option.some.injEq] at h
    exact h ▸ hi.panic
  all_goals
    have ht := hok.typed ho (by simp) (by simp)
    have h0 : atSched (s.ops c) = false := by rw [ho]; rfl
    have hr := typed_cons ht (by simp)
  case release lk =>
    rw [embExec_eq fun _ => rfl]
    obtain ⟨hl, heq, hok'⟩ := cpuOk_release hok ho
    simp only [execOp, Option.some.injEq] at h
    subst h
    rw [heq]
    exact hi.silent_mem (threadStep_unlock s c lk r _ hl) h0 hr.2.not_atSched hok' hemb hsch
      (by simp [State.unlock])
  case schedAs st =>
    rw [embExec_eq fun _ => rfl]
    simp only [execOp, act, Option.map_map, Option.map_eq_some_iff] at h
    obtain ⟨p, hp, rfl⟩ := h
    exact hi.leave ho hp
  case allocContext i =>
    simp only [execOp, Option.some.injEq] at h
    exact h ▸ hi.allocContext_step ho
  case iret =>
    rw [embExec_eq fun _ => rfl]
    simp only [execOp, Option.some.injEq] at h
    subst h
    exact hi.silent_mem (threadStep_setCpu s c _ _ (fun _ => rfl) (fun _ => rfl)) h0 hr.2.not_atSched
      (cpuOk_iret hok ho) hemb hsch (by simp)
  case user =>
    rw [embExec_eq fun _ => rfl]
    obtain ⟨held, ie, em, sch⟩ := g
    obtain ⟨rfl, rfl, rfl, rfl⟩ := hr.1
    have hn : (s.cpu c).ncli = 0 := hok.ncli_eq ho (by simp)
    simp only [execOp] at h
    cases ch <;> simp only [Option.some.injEq, reduceCtorEq] at h <;> subst h
    case syscall sc =>
      have hts := threadStep_ops s c (trapSyscall sc ++ user :: r)
      have hl : Typed ⟨[], true, none, false⟩ (trapSyscall sc ++ user :: r) := by
        simpa [trapSyscall, Typed, Op.pre, Op.post, Op.switches] using hr.2
      have hok' := cpuOk_of_threadStep hts (by simp) (by simp [State.setOps_self]) (by simp [State.setOps_self])
        (by simp [State.setOps_self]) hok (by rw [ho]; rfl) hl.threadOk hl.not_spinning
      exact hi.silent_mem hts h0 hl.not_atSched hok' hemb hsch (by simp)
    case fault =>
      have hl : Typed ⟨[], false, none, false⟩ (trapFault ++ user :: r) := by
        simpa [trapFault, Typed, Op.pre, Op.post, Op.switches, Store.pre] using hr.2
      exact hi.silent_mem (threadStep_setCpu s c _ _ (fun _ => rfl) (fun _ => rfl)) h0 hl.not_atSched
        (cpuOk_setIe hok hn hl (fun _ => rfl) (fun _ => rfl) (fun _ => rfl) (fun _ => rfl)) hemb hsch (by simp)
  case schedTop =>
    rw [embExec_eq fun _ => rfl]
    obtain ⟨held, ie, em, sch⟩ := g
    obtain ⟨rfl, rfl⟩ := hr.1
    have hn : (s.cpu c).ncli = 0 := hok.ncli_eq ho (by simp)
    simp only [execOp, Option.some.injEq] at h
    subst h
    have hl : Typed ⟨[], true, em, true⟩ schedPass := by
      simp [schedPass, Typed, Op.pre, Op.post, Op.switches, Lock.allowed]
    exact hi.silent_mem (threadStep_setCpu s c _ _ (fun _ => rfl) (fun _ => rfl)) h0 hl.not_atSched
      (cpuOk_setIe hok hn hl (fun _ => rfl) (fun _ => rfl) (fun _ => rfl) (fun _ => rfl)) hemb hsch (by simp)
  case schedTicks =>
    rw [embExec_eq fun _ => rfl]
    simp only [execOp, Option.some.injEq] at h
    subst h
    have hts := threadStep_setCpu s c r (fun k => { k with loc := { k.loc with currentime := int32 s.mem.ticks } })
      (fun _ => rfl) (fun _ => rfl)
    have hok' := cpuOk_of_threadStep hts (by simp) (by simp [State.setOps_self]) (by simp [State.setOps_self])
      (by simp [State.setOps_self]) hok (by rw [ho]; rfl) hr.2.threadOk hr.2.not_spinning
    exact hi.silent_mem hts h0 hr.2.not_atSched hok' hemb hsch (by simp)
  case scan i =>
    rw [embExec_eq fun _ => rfl]
    simp only [execOp] at h
    have hs := hi.scanned_step ho rfl (scan (i + 1) :: r) (visit flag (s.cpu c).loc s.proc).1
      (visit flag (s.cpu c).loc s.proc).2.1 (Or.inr ⟨_, rfl⟩) fun j α field hf => visit_field flag _ _ j field hf
    split_ifs at h with hlt hv <;> obtain rfl := Option.some.inj h
    · refine hs.2 _ ?_
      rw [visit_field flag _ _ _ Proc.state fun _ _ _ => rfl]
      exact (visit_switch hv).2
    · exact hs.1
    · have hts := threadStep_ops s c r
      have hok' := cpuOk_of_threadStep hts (by simp) (by simp [State.setOps_self]) (by simp [State.setOps_self])
        (by simp [State.setOps_self]) hok (by rw [ho]; rfl) hr.2.threadOk hr.2.not_spinning
      exact hi.silent_mem hts h0 hr.2.not_atSched hok' hemb hsch (by simp)
  case choose =>
    rw [embExec_eq fun _ => rfl]
    have hs := hi.scanned_step ho rfl r ((s.cpu c).loc.pick flag s.proc) s.proc (Or.inl rfl)
      fun j α field hf => rfl
    simp only [execOp, Option.some.injEq] at h
    subst h
    split
    · rename_i i hi
      exact hs.2 i (SchedLocals.chosen_runnable hi)
    · exact hs.1
  all_goals
    simp only [execOp, Option.map_eq_some_iff] at h
    obtain ⟨⟨m', e⟩, ha, rfl⟩ := h
    exact hi.act_step ho ha (by simp)

theorem step_inv {ncpu : Nat} {lb : Label} (hi : Inv s emb) (h : step flag ncpu lb s = some s') :
    Inv s' (embStep s lb emb) := by
  unfold step at h
  unfold embStep
  split_ifs at h
  cases ha : lb.action with
  | timer =>
    rw [ha] at h
    obtain ⟨g, hok, hemb, hsch⟩ := hi.cpu lb.cpu
    obtain ⟨l, hts, hm, -, h0, h1, -, hok'⟩ := cpuOk_interrupt hok (fun _ _ u _ => typed_trapTimer u) h
    exact hi.silent_mem hts h0 h1 hok' hemb hsch hm
  | device =>
    rw [ha] at h
    obtain ⟨g, hok, hemb, hsch⟩ := hi.cpu lb.cpu
    obtain ⟨l, hts, hm, -, h0, h1, -, hok'⟩ := cpuOk_interrupt hok (fun _ _ u _ => typed_trapDevice u) h
    exact hi.silent_mem hts h0 h1 hok' hemb hsch hm
  | exec ch =>
    rw [ha] at h
    cases ho : s.ops lb.cpu with
    | nil => simp [ho] at h
    | cons op r =>
      simp only [ho] at h
      exact hi.execOp_inv ho h

end Inv

lemma Boot.inv (h : Boot s) : Inv s fun _ => none where
  cpu c := by
    have hops : s.ops c = [schedTop] := by rw [ops_of_none (h.proc c), h.ops]
    refine ⟨⟨[], (s.cpu c).ie, none, true⟩, ⟨?_, ?_, by simp, ?_, fun _ => rfl, ?_⟩, by simp [h.proc], by simp [h.proc]⟩
    · rw [hops]
      simp [ThreadOk, Typed, Op.pre, Op.switches]
    · simp [h.lock]
    · simp [h.ncli, hops, spinning]
    · simp [h.ncli]
  sched c p hp := by simp [h.proc] at hp
  inj c d p hp := by simp [h.proc] at hp
  cur c p hp := by simp [h.proc] at hp
  run p hp := by
    rw [State.proc, h.mem, userinit] at hp
    dsimp only at hp
    split_ifs at hp
  parked p _ hst b hb := by
    have hp : p = initproc := by
      by_contra hne
      simp [State.proc, h.mem, userinit, hne] at hst
    rw [h.kstk, if_pos hp]
    exact typed_forkret b
  dead p _ := rfl
  fork p i k hp := by simp at hp
  forkInj p q i k k' hp := by simp at hp

/-- The invariant holds at every time of every run. -/
theorem run_inv {ncpu n : Nat} (r : KRun flag ncpu n) : ∀ k, k ≤ n → ∃ emb, Inv (r.state k) emb :=
  r.invariant (P := fun s => ∃ emb, Inv s emb) (fun _ h => ⟨_, h.inv⟩) fun _ _ _ ⟨_, hi⟩ hs => ⟨_, hi.step_inv hs⟩

end Os132

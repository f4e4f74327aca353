import Os132.Kernel.Effects

/-!
# Where the thread of a process is

`Inv s emb` relates the state of a record to the thread of its process: a `RUNNING` process is
the current one of exactly one CPU, a process that has left `RUNNING` keeps its CPU and
`ptable.lock` until `sched` has switched away, and a process that waits for a CPU has a thread
that can continue. `emb p` is the slot that process `p` is filling in `fork`.
-/

namespace Os132

open Op

/-- What `fork` has filled in of slot `i`, in a call by `p` that has come to point `k`. -/
structure EmbOk (s : State) (p i : Slot) (k : Nat) : Prop where
  state : (s.proc i).state = .embryo
  kstack : 2 ≤ k → (s.proc i).kstack ≠ none
  context : 3 ≤ k → s.kstk i = forkret ∧ s.intena i = none
  pgdir : 4 ≤ k → (s.proc i).pgdir ≠ none
  parent : 5 ≤ k → (s.proc i).parent = some p

structure Inv (s : State) (emb : Slot → Option (Slot × Nat)) : Prop where
  cpu : ∀ c, ∃ g, CpuOk s c g ∧ g.emb = (s.cpu c).proc.bind emb ∧ g.sch = (s.cpu c).proc.isNone
  sched : ∀ c p, (s.cpu c).proc = some p → ∀ b, Typed ⟨[.ptable], b, none, true⟩ (s.cpu c).ops
  inj : ∀ c d p, (s.cpu c).proc = some p → (s.cpu d).proc = some p → c = d
  cur : ∀ c p, (s.cpu c).proc = some p →
    if atSched (s.kstk p) then (s.proc p).state ∈ [ProcState.runnable, .sleeping, .zombie]
    else (s.proc p).state = .running
  run : ∀ p, (s.proc p).state = .running → ∃ c, (s.cpu c).proc = some p
  parked : ∀ p, (∀ c, (s.cpu c).proc ≠ some p) → (s.proc p).state ∈ [ProcState.runnable, .sleeping] →
    ∀ b, (s.intena p = none ∨ s.intena p = some b) → Typed ⟨[.ptable], b, emb p, false⟩ (s.kstk p)
  dead : ∀ p, (s.proc p).state ∈ [ProcState.unused, .embryo, .zombie] → emb p = none
  fork : ∀ p i k, emb p = some (i, k) → EmbOk s p i k
  forkInj : ∀ p q i k k', emb p = some (i, k) → emb q = some (i, k') → p = q

/-- The changes of a process state by a step of another process, or of its own before `sched`.
`locked` says that the step runs under `ptable.lock`, `fresh` that the thread is at its start. -/
inductive Shift (locked fresh : Prop) : ProcState → ProcState → Prop
  | same (x : ProcState) : Shift locked fresh x x
  | wake (h : locked) : Shift locked fresh .sleeping .runnable
  | reap (h : locked) : Shift locked fresh .zombie .unused
  | alloc : Shift locked fresh .unused .embryo
  | free : Shift locked fresh .embryo .unused
  | publish (h : fresh) : Shift locked fresh .embryo .runnable

lemma Shift.of_running {locked fresh : Prop} {x : ProcState} (h : Shift locked fresh .running x) :
    x = .running := by
  cases h
  rfl

lemma Shift.to_running {locked fresh : Prop} {x : ProcState} (h : Shift locked fresh x .running) :
    x = .running := by
  cases h
  rfl

lemma typed_forkret (b : Bool) : Typed ⟨[.ptable], b, none, false⟩ forkret := by
  simp [forkret, Typed, Op.pre, Op.post, Op.switches]

variable {flag : SchedFlag} {s s' : State} {c : CpuId} {g : Sig} {emb emb' : Slot → Option (Slot × Nat)}
  {l r : List Op} {op : Op}

lemma ops_of_proc {p : Slot} (hp : (s.cpu c).proc = some p) : s.ops c = s.kstk p := by
  simp [State.ops, hp]

lemma ops_of_none (hp : (s.cpu c).proc = none) : s.ops c = (s.cpu c).ops := by
  simp [State.ops, hp]

namespace Inv

lemma atSched_lock (hi : Inv s emb) (h : atSched (s.ops c) = true) : s.lock .ptable = some c := by
  obtain ⟨g, hok, -, -⟩ := hi.cpu c
  have ht := hok.thread
  cases ho : s.ops c with
  | nil => simp [ho, atSched] at h
  | cons op r =>
    rw [ho] at h ht
    cases op <;> simp only [atSched, Bool.false_eq_true] at h
    exact (hok.held .ptable).mp (by simp [ht.1])

lemma state_of_cur (hi : Inv s emb) {p : Slot} (hp : (s.cpu c).proc = some p)
    (h : atSched (s.ops c) = false) : (s.proc p).state = .running := by
  have := hi.cur c p hp
  rwa [← ops_of_proc hp, h, if_neg (by simp)] at this

lemma not_cur (hi : Inv s emb) {p : Slot} (hl : s.lock .ptable = some c)
    (hc : atSched (s.ops c) = false) (hp : (s.proc p).state ≠ .running) (d : CpuId) :
    (s.cpu d).proc ≠ some p := by
  intro hd
  cases ha : atSched (s.ops d) with
  | false => exact hp (hi.state_of_cur hd ha)
  | true =>
    have hdc : d = c := Option.some.inj ((hi.atSched_lock ha).symm.trans hl)
    rw [hdc, hc] at ha
    exact Bool.false_ne_true ha

/-- A step of a thread that stays on its CPU keeps the invariant. -/
theorem threadStep (hi : Inv s emb) (hts : ThreadStep s s' c l) (h0 : atSched (s.ops c) = false)
    (h1 : atSched l = false) (hok : CpuOk s' c g) (hsch : g.sch = (s.cpu c).proc.isNone)
    (hemb : g.emb = (s.cpu c).proc.bind emb') (hne : ∀ q, (s.cpu c).proc ≠ some q → emb' q = emb q)
    (hst : ∀ j, Shift (s.lock .ptable = some c) (s.kstk j = forkret ∧ s.intena j = none)
      (s.proc j).state (s'.proc j).state)
    (hfork : ∀ q i k, emb' q = some (i, k) → EmbOk s' q i k)
    (hinj : ∀ p q i k k', emb' p = some (i, k) → emb' q = some (i, k') → p = q) : Inv s' emb' := by
  have hdisj : ∀ d, d ≠ c → ∀ p, (s.cpu c).proc = some p → (s.cpu d).proc ≠ some p :=
    fun d hd p hp hq => hd (hi.inj d c p hq hp)
  constructor
  case cpu =>
    intro d
    rw [hts.proc_eq d]
    by_cases hd : d = c
    · subst hd
      exact ⟨g, hok, hemb, hsch⟩
    · obtain ⟨g', hok', he', hs'⟩ := hi.cpu d
      refine ⟨g', hts.cpuOk_ne hd (hdisj d hd) hok', ?_, hs'⟩
      rw [he']
      cases hp : (s.cpu d).proc with
      | none => rfl
      | some p => exact (hne p fun hq => hdisj d hd p hq hp).symm
  case sched =>
    intro d p hp b
    rw [hts.proc_eq d] at hp
    have hops : (s'.cpu d).ops = (s.cpu d).ops := by
      by_cases hd : d = c
      · subst hd
        simp [hts.cops, hp]
      · rw [hts.others d hd]
    rw [hops]
    exact hi.sched d p hp b
  case inj =>
    intro d d' p hp hp'
    rw [hts.proc_eq] at hp hp'
    exact hi.inj d d' p hp hp'
  case cur =>
    intro d p hp
    rw [hts.proc_eq d] at hp
    by_cases hd : d = c
    · subst hd
      have hk : s'.kstk p = l := by simp [hts.kstk, hp]
      have hrun := hst p
      rw [hi.state_of_cur hp h0] at hrun
      rw [hk, h1, if_neg (by simp), hrun.of_running]
    · have hk : s'.kstk p = s.kstk p := by
        rw [hts.kstk, if_neg fun hq => hdisj d hd p hq hp]
      rw [hk]
      have hold := hi.cur d p hp
      cases ha : atSched (s.kstk p) with
      | false =>
        rw [ha, if_neg (by simp)] at hold
        have := hst p
        rw [hold] at this
        rw [if_neg (by simp), this.of_running]
      | true =>
        rw [ha, if_pos rfl] at hold
        rw [if_pos rfl]
        rw [← ops_of_proc hp] at ha
        have hfree : ¬ s.lock .ptable = some c := by
          rw [hi.atSched_lock ha]
          exact fun h => hd (Option.some.inj h)
        have hsh := hst p
        generalize (s.proc p).state = x at hold hsh
        generalize (s'.proc p).state = y at hsh
        cases hsh with
        | same => exact hold
        | wake h => exact absurd h hfree
        | reap h => exact absurd h hfree
        | alloc | free | publish => simp at hold
  case run =>
    intro p hp
    have := hst p
    rw [hp] at this
    obtain ⟨d, hd⟩ := hi.run p this.to_running
    exact ⟨d, (hts.proc_eq d).trans hd⟩
  case parked =>
    intro p hp hstate b hb
    have hp' : ∀ d, (s.cpu d).proc ≠ some p := fun d => hts.proc_eq d ▸ hp d
    rw [hts.kstk, if_neg (hp' c), hne p (hp' c)]
    rw [hts.intena] at hb
    have hsh := hst p
    generalize hx : (s.proc p).state = x at hsh
    generalize (s'.proc p).state = y at hsh hstate
    cases hsh with
    | same => exact hi.parked p hp' (hx ▸ hstate) b hb
    | wake => exact hi.parked p hp' (by simp [hx]) b hb
    | publish h =>
      rw [h.1, hi.dead p (by simp [hx])]
      exact typed_forkret b
    | reap | alloc | free => simp at hstate
  case dead =>
    intro p hstate
    by_cases hp : (s.cpu c).proc = some p
    · have := hst p
      rw [hi.state_of_cur hp h0] at this
      simp [this.of_running] at hstate
    · rw [hne p hp]
      have hsh := hst p
      generalize hx : (s.proc p).state = x at hsh
      generalize (s'.proc p).state = y at hsh hstate
      cases hsh with
      | same => exact hi.dead p (hx ▸ hstate)
      | reap | alloc | free => exact hi.dead p (by simp [hx])
      | wake | publish => simp at hstate
  case fork => exact hfork
  case forkInj => exact hinj

end Inv

/-- What the processes are filling after CPU `c` has executed an operation. -/
def embExec (s : State) (c : CpuId) (ch : Choice) (op : Op) (emb : Slot → Option (Slot × Nat)) :
    Slot → Option (Slot × Nat) :=
  fun q => if (s.cpu c).proc = some q then op.embAfter s.mem ch (emb q) else emb q

lemma embExec_eq {ch : Choice} (h : ∀ x, op.embAfter s.mem ch x = x) : embExec s c ch op emb = emb := by
  funext q
  simp [embExec, h]

/-- What the processes are filling after a step. -/
def embStep (s : State) (lb : Label) (emb : Slot → Option (Slot × Nat)) : Slot → Option (Slot × Nat) :=
  match lb.action, s.ops lb.cpu with
  | .exec ch, op :: _ => embExec s lb.cpu ch op emb
  | _, _ => emb

lemma embStep_cases (s : State) (lb : Label) (emb : Slot → Option (Slot × Nat)) (p : Slot) : embStep s lb emb p = emb p ∨
    ∃ ch op r, lb.action = .exec ch ∧ s.ops lb.cpu = op :: r ∧ (s.cpu lb.cpu).proc = some p ∧
      embStep s lb emb p = op.embAfter s.mem ch (emb p) := by
  unfold embStep
  cases ha : lb.action with
  | timer | device => exact Or.inl rfl
  | exec ch =>
    cases ho : s.ops lb.cpu with
    | nil => exact Or.inl rfl
    | cons op r =>
      by_cases hp : (s.cpu lb.cpu).proc = some p
      · exact Or.inr ⟨ch, op, r, rfl, rfl, hp, by simp [embExec, hp]⟩
      · exact Or.inl (by simp [embExec, hp])

/-- The slot that an open `fork` fills stays the same until it is closed. -/
lemma embAfter_slot {m : Mem} {ch : Choice} {i : Slot} {k : Nat} (hp : op.pre g)
    (h : op.embAfter m ch g.emb = some (i, k)) :
    (op = allocproc ∧ m.proc.find Proc.isUnused = some i) ∨ ∃ k, g.emb = some (i, k) := by
  cases op <;> simp only [Op.embAfter, Op.pre, Option.map_eq_some_iff, Option.some.injEq, Prod.mk.injEq,
    reduceCtorEq] at h hp ⊢
  case allocproc =>
    obtain ⟨j, hj, rfl, -⟩ := h
    exact Or.inl ⟨trivial, hj⟩
  case allocKstack j | copyuvm j =>
    right
    cases ch <;> simp only [Option.some.injEq, Prod.mk.injEq] at h <;> obtain ⟨rfl, -⟩ := h <;> exact ⟨_, hp.2⟩
  case freeKstack j | forkParent j | allocContext j =>
    obtain ⟨rfl, -⟩ := h
    exact Or.inr ⟨_, hp.2⟩
  all_goals exact Or.inr ⟨k, h⟩

/-- The operations that close an open `fork`, or fill one of the fields it counts. -/
def Op.fills (i : Slot) : Op → Prop
  | allocKstack j | copyuvm j | freeKstack j | forkUnused j | forkParent j | forkRunnable j => j = i
  | _ => False

namespace Inv

variable {self : Option Slot} {ch : Choice} {m' : Mem} {e : List Op}

/-- Other operations leave what `fork` has filled in. -/
lemma embOk_act (hi : Inv s emb) {q i : Slot} {k : Nat} (hq : emb q = some (i, k))
    (h0 : atSched (s.ops c) = false) (h : act flag c (s.cpu c).proc ch s.mem op = some (m', e))
    (hf : ¬ op.fills i) (hst : ∀ st, op ≠ schedAs st) (hr : op = reparent → (s.cpu c).proc ≠ some q)
    (hm : s'.mem = m') (hk : (s.cpu c).proc ≠ some i → s'.kstk i = s.kstk i) (hin : s'.intena = s.intena) :
    EmbOk s' q i k := by
  have hok := hi.fork q i k hq
  have hself : (s.cpu c).proc ≠ some i := by
    intro hp
    have := hi.state_of_cur hp h0
    simp [hok.state] at this
  have hch := act_proc h i
  obtain rfl : m' = s'.mem := hm.symm
  change ProcChange s.mem _ ch op i (s.proc i) (s'.proc i) at hch
  refine ⟨?_, ?_, ?_, ?_, ?_⟩
  case refine_3 =>
    rw [hk hself, hin]
    exact hok.context
  all_goals
    have h1 := hok.state
    have h2 := hok.kstack
    have h4 := hok.pgdir
    have h5 := hok.parent
    generalize hp : s.proc i = p at h1 h2 h4 h5 hch
    generalize s'.proc i = p' at hch
    cases hch with
    | same | kill | np | late => first | assumption | simp_all [Proc.kill]
    | store f ho hj | report z ho hj | reapReport ho hj => exact absurd hj hself
    | leave st ho hj => exact absurd ho (hst st)
    | alloc ho hj => simp [← hp, Table.find_unused hj] at h1
    | kstack _ ho | pgdir _ ho | freeKstack ho | free ho | parent _ ho | publish ho => exact absurd (by simp [ho, Op.fills]) hf
    | wake ho hsl | adoptWake ho _ _ hsl => simp [h1] at hsl
    | adopt ho hpar hs =>
      first
      | assumption
      | (intro hk5; exact absurd (hpar.symm.trans (h5 hk5)) (hr ho))
    | reap two j ho hj hz => simp [← hp, (Table.find_zombie hz).2] at h1

/-- The state of each record after a step that acts on memory. -/
lemma act_shift (hi : Inv s emb) (ht : op.pre g) (hheld : .ptable ∈ g.held → s.lock .ptable = some c)
    (hemb : g.emb = (s.cpu c).proc.bind emb) (h : act flag c (s.cpu c).proc ch s.mem op = some (m', e))
    (hst : ∀ st, op ≠ schedAs st) (j : Slot) :
    Shift (s.lock .ptable = some c) (s.kstk j = forkret ∧ s.intena j = none)
      (s.proc j).state (m'.proc j).state := by
  have hch : ProcChange s.mem _ ch op j (s.proc j) (m'.proc j) := act_proc h j
  have hfork : ∀ k, g.emb = some (j, k) → ∃ p, EmbOk s p j k := by
    intro k hk
    rw [hemb, Option.bind_eq_some_iff] at hk
    obtain ⟨p, -, hp⟩ := hk
    exact ⟨p, hi.fork p j k hp⟩
  generalize hp : s.proc j = p at hch
  generalize m'.proc j = p' at hch
  cases hch with
  | same => exact .same _
  | store | np | late => simpa using Shift.same _
  | kstack | pgdir | freeKstack | parent | adopt | report => exact .same _
  | leave st ho => exact absurd ho (hst st)
  | alloc ho hj =>
    rw [← hp, show (s.proc j).state = .unused from Table.find_unused hj]
    exact .alloc
  | free ho =>
    subst ho
    obtain ⟨p, hok⟩ := hfork _ ht.2
    rw [← hp, hok.state]
    exact .free
  | publish ho =>
    subst ho
    obtain ⟨p, hok⟩ := hfork _ ht.2
    rw [← hp, hok.state]
    exact .publish (hok.context (by omega))
  | wake ho hsl =>
    rw [hsl]
    cases op <;> simp only [Op.wakes] at ho
    · exact .wake (hheld (by simp [ht.1]))
    · exact .wake (hheld (by simp [ht.1]))
    · exact .wake (hheld ht)
  | adoptWake ho hpar hs hsl =>
    subst ho
    rw [hsl]
    exact .wake (hheld (by simp [ht.1]))
  | kill pid ho hj =>
    subst ho
    unfold Proc.kill
    by_cases hsl : p.state = .sleeping
    · simpa [hsl] using Shift.wake (hheld (by simp [ht.1]))
    · simpa [hsl] using Shift.same _
  | reap two i ho hi' hj =>
    subst ho
    rw [← hp, show (s.proc j).state = .zombie from (Table.find_zombie hj).2]
    exact .reap (hheld (by simp [ht.1]))
  | reapReport ho hi' hj =>
    subst ho
    rw [← hp, show (s.proc j).state = .zombie from (Table.find_zombie hj).2]
    exact .reap (hheld (by simp [ht.1]))

/-- What the operation of process `p` leaves filled in of the slot that `p` fills. -/
lemma embOk_self (hi : Inv s emb) {p i : Slot} {k : Nat} (hp : (s.cpu c).proc = some p) (ht : op.pre g)
    (hemb : g.emb = emb p) (h0 : atSched (s.ops c) = false)
    (h : act flag c (some p) ch s.mem op = some (m', e)) (hst : ∀ st, op ≠ schedAs st)
    (hq : op.embAfter s.mem ch (emb p) = some (i, k)) :
    EmbOk { s.setOps c l with mem := m' } p i k := by
  have hkstk : (s.cpu c).proc ≠ some i → (s.setOps c l).kstk i = s.kstk i := by
    intro hne
    rw [State.setOps_kstk, if_neg hne]
  have hctx : ∀ k', emb p = some (i, k') → 3 ≤ k' → (s.setOps c l).kstk i = forkret ∧ s.intena i = none := by
    intro k' hk' h3
    have hok := hi.fork p i k' hk'
    have hself : (s.cpu c).proc ≠ some i := by
      intro hpi
      have := hi.state_of_cur hpi h0
      simp [hok.state] at this
    rw [hkstk hself]
    exact hok.context h3
  have hkeep : ∀ k', emb p = some (i, k') → ¬ op.fills i → EmbOk { s.setOps c l with mem := m' } p i k' := by
    intro k' hk' hf
    refine hi.embOk_act hk' h0 (hp ▸ h) hf hst ?_ rfl hkstk (by simp)
    rintro rfl
    rw [← hemb, ht.2] at hk'
    simp at hk'
  cases op <;> simp only [Op.embAfter] at hq
  case allocproc =>
    rw [Option.map_eq_some_iff] at hq
    obtain ⟨j, hj, hjk⟩ := hq
    obtain ⟨rfl, rfl⟩ := Prod.mk.inj hjk
    simp only [act, hj, Option.some.injEq, Prod.mk.injEq] at h
    obtain ⟨rfl, -⟩ := h
    refine ⟨by simp [State.proc], ?_, ?_, ?_, ?_⟩ <;> omega
  case allocKstack j =>
    cases ch <;> simp only [act, reduceCtorEq] at h <;> obtain ⟨rfl, rfl⟩ := Prod.mk.inj (Option.some.inj hq)
    case page n =>
      have hj := hi.fork p j 1 (hemb ▸ ht.2)
      split_ifs at h
      obtain ⟨rfl, -⟩ := Prod.mk.inj (Option.some.inj h)
      refine ⟨by simpa [State.proc] using hj.state, fun _ => by simp [State.proc], ?_, ?_, ?_⟩ <;> omega
    case noPage =>
      have hj := hi.fork p j 1 (hemb ▸ ht.2)
      obtain ⟨rfl, -⟩ := Prod.mk.inj (Option.some.inj h)
      refine ⟨by simpa [State.proc] using hj.state, ?_, ?_, ?_, ?_⟩ <;> omega
  case copyuvm j =>
    cases ch <;> simp only [act, reduceCtorEq] at h <;> obtain ⟨rfl, rfl⟩ := Prod.mk.inj (Option.some.inj hq)
    case page n =>
      have hj := hi.fork p j 3 (hemb ▸ ht.2)
      split_ifs at h
      obtain ⟨rfl, -⟩ := Prod.mk.inj (Option.some.inj h)
      refine ⟨by simpa [State.proc] using hj.state, fun _ => by simpa [State.proc] using hj.kstack (by omega),
        fun _ => by simpa using hctx 3 (hemb ▸ ht.2) le_rfl, fun _ => by simp [State.proc], ?_⟩
      omega
    case noPage =>
      have hj := hi.fork p j 3 (hemb ▸ ht.2)
      obtain ⟨rfl, -⟩ := Prod.mk.inj (Option.some.inj h)
      refine ⟨by simpa [State.proc] using hj.state, fun _ => by simpa [State.proc] using hj.kstack (by omega),
        fun _ => by simpa using hctx 3 (hemb ▸ ht.2) le_rfl, ?_, ?_⟩ <;> omega
  case freeKstack j =>
    obtain ⟨rfl, rfl⟩ := Prod.mk.inj (Option.some.inj hq)
    have hj := hi.fork p j 3 (hemb ▸ ht.2)
    simp only [act, Option.some.injEq, Prod.mk.injEq] at h
    obtain ⟨rfl, -⟩ := h
    refine ⟨by simpa [State.proc] using hj.state, ?_, ?_, ?_, ?_⟩ <;> omega
  case forkParent j =>
    obtain ⟨rfl, rfl⟩ := Prod.mk.inj (Option.some.inj hq)
    have hj := hi.fork p j 4 (hemb ▸ ht.2)
    simp only [act, Option.map_some, Option.some.injEq, Prod.mk.injEq] at h
    obtain ⟨rfl, -⟩ := h
    exact ⟨by simpa [State.proc] using hj.state, fun _ => by simpa [State.proc] using hj.kstack (by omega),
      fun _ => by simpa using hctx 4 (hemb ▸ ht.2) (by omega),
      fun _ => by simpa [State.proc] using hj.pgdir (by omega), fun _ => by simp [State.proc]⟩
  case forkUnused | forkRunnable => simp at hq
  case allocContext => simp [act] at h
  all_goals exact hkeep k hq (by simp [Op.fills])

theorem act_step (hi : Inv s emb) (ho : s.ops c = op :: r)
    (h : act flag c (s.cpu c).proc ch s.mem op = some (m', e)) (hst : ∀ st, op ≠ schedAs st) :
    Inv { s.setOps c (e ++ r) with mem := m' } (embExec s c ch op emb) := by
  obtain ⟨g, hok, hemb, hsch⟩ := hi.cpu c
  have hop : (∀ lk, op ≠ spin lk) ∧ op ≠ Op.sched ∧ ∀ msg, op ≠ Op.panic msg := by
    refine ⟨?_, ?_, ?_⟩ <;> intros <;> rintro rfl <;> simp [act] at h
  have ht := hok.typed ho hop.1 hop.2.1
  have h0 : atSched (s.ops c) = false := by rw [ho]; exact ht.not_atSched
  have hty := act_typed ht h hst
  have hembAfter : op.embAfter s.mem ch g.emb = (s.cpu c).proc.bind (embExec s c ch op emb) := by
    cases hp : (s.cpu c).proc with
    | some p => simp [hemb, hp, embExec]
    | none =>
      rw [hp] at hemb hsch
      simp only [Option.bind_none, Option.isNone_none] at hemb hsch
      have hpre := ht.1
      cases op <;> simp_all [Op.embAfter, Op.pre]
  have hts := threadStep_setOps s c (e ++ r) m'
  refine hi.threadStep (g := { g with emb := op.embAfter s.mem ch g.emb }) hts h0 hty.not_atSched ?_ hsch hembAfter
    (fun q hq => if_neg hq) ?_ ?_ ?_
  · exact cpuOk_of_threadStep hts (by simp) (by simp [State.setOps_self]) (by simp [State.setOps_self])
      (by simp [State.setOps_self]) hok (by rw [ho]; exact ht.not_spinning) hty.threadOk hty.not_spinning
  · exact hi.act_shift ht.1 (hok.held .ptable).mp hemb h hst
  · intro q i k hq
    unfold embExec at hq
    split_ifs at hq with hp
    · exact hi.embOk_self hp ht.1 (by rw [hemb, hp]; rfl) h0 (hp ▸ h) hst hq
    · refine hi.embOk_act hq h0 h ?_ hst (fun _ => hp) rfl ?_ (by simp)
      · intro hf
        have hown : ∃ k, g.emb = some (i, k) := by
          have hpre := ht.1
          cases op <;> simp only [Op.fills] at hf <;> subst hf <;> exact ⟨_, hpre.2⟩
        obtain ⟨k', hk'⟩ := hown
        rw [hemb, Option.bind_eq_some_iff] at hk'
        obtain ⟨p, hpc, hpe⟩ := hk'
        exact hp (hi.forkInj p q i k' k hpe hq ▸ hpc)
      · intro hne
        simp [State.setOps_kstk, hne]
  · have hslot : ∀ p i k, (s.cpu c).proc = some p → op.embAfter s.mem ch (emb p) = some (i, k) →
        ∀ q k', emb q = some (i, k') → p = q := by
      intro p i k hp hk q k' hq
      have hgp : g.emb = emb p := by rw [hemb, hp]; rfl
      rcases embAfter_slot ht.1 (hgp ▸ hk) with ⟨-, hfree⟩ | ⟨k0, hk0⟩
      · have := (hi.fork q i k' hq).state
        rw [show (s.proc i).state = .unused from Table.find_unused hfree] at this
        simp at this
      · exact hi.forkInj p q i k0 k' (hgp ▸ hk0) hq
    intro p q i k k' hp hq
    unfold embExec at hp hq
    split_ifs at hp hq with h1 h2 h2
    · exact Option.some.inj (h1.symm.trans h2)
    · exact hslot p i k h1 hp q k' hq
    · exact (hslot q i k' h2 hq p k hp).symm
    · exact hi.forkInj p q i k k' hp hq

end Inv

end Os132

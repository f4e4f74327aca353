import Os132.Kernel.Moves

/-!
# Where a thread is in `wait` and `exit`

A second discipline of threads. Outside the critical sections of `wait` and `exit` a thread is
`calm`, or `tidy` right after it has cleared its channel. `wait` takes it through `found`, `own`
and `slept`, `exit` through `woke`, `orphaned` and `dead`; in between no other operation occurs.
-/

namespace Os132

open Op

/-- The point of a thread. The flag of `calm` and `tidy` says that the thread has passed the test
at the start of `exit`. -/
inductive Phase where
  | calm (ex : Bool)
  | tidy (ex : Bool)
  /-- `wait` has found a child, but none that is a zombie. -/
  | found
  /-- The thread has set its channel to its own record. -/
  | own
  /-- The thread has left `RUNNING` in the `sleep` of `wait`. -/
  | slept
  /-- `exit` has woken the parent. -/
  | woke
  /-- `exit` has passed its children to `init`. -/
  | orphaned
  | dead
  deriving DecidableEq

/-- Where an operation takes a thread of process `p` that is calm. -/
def Op.calmly (p : Slot) (ex : Bool) : Op → Option Phase
  | exit => if ex then none else some (.calm true)
  | wakeupParent => if ex then some .woke else none
  | reparent | schedAs .zombie | spin _ | Op.sched => none
  | store (.chan none) => some (.tidy ex)
  | store (.chan (some c)) => if c = .proc p then none else some (.calm ex)
  | user | .syscall _ | ifKilledExit true | .wait _ => if ex then none else some (.calm false)
  | _ => some (.calm ex)

/-- Where an operation takes a thread of process `p`. -/
def Op.next (p : Slot) : Op → Phase → Option Phase
  | op, .calm ex => op.calmly p ex
  | .wait _, .tidy _ => none
  | op, .tidy ex => op.calmly p ex
  | store (.chan c), .found => if c = some (.proc p) then some .own else none
  | schedAs .sleeping, .own => some .slept
  | store (.chan none), .slept => some (.calm false)
  | reparent, .woke => some .orphaned
  | store (.priority _), .orphaned | acquire .tickslock, .orphaned | store .etime, .orphaned |
    release .tickslock, .orphaned => some .orphaned
  | schedAs .zombie, .orphaned => some .dead
  | _, _ => none

def Phase.isCalm : Phase → Bool
  | .calm _ | .tidy _ => true
  | _ => false

/-- The operations behind which nothing runs: a panic, and the call of `exit` by `init`. -/
def Op.stops (p : Slot) : Op → Prop
  | Op.panic _ => True
  | exit => p = initproc
  | _ => False

/-- The operations of a thread chain from a phase. -/
def Runs (p : Slot) : Phase → List Op → Prop
  | x, [] => x.isCalm = true
  | x, op :: r => op.stops p ∨ ∃ y, op.next p x = some y ∧ Runs p y r

/-- A thread in the loop of `acquire` is in front of the call, and one at `sched` behind it. -/
def settled : List Op → List Op
  | spin lk :: r => acquire lk :: r
  | Op.sched :: r => r
  | l => l

variable {flag : SchedFlag} {s s' : State} {c : CpuId} {a : Action} {emb : Slot → Option (Slot × ℕ)}
  {p : Slot} {op : Op} {r e l : List Op} {x y : Phase} {ex : Bool} {ch : Choice} {m m' : Mem}

lemma runs_cons (h : Runs p x (op :: r)) (hs : ¬ op.stops p) : ∃ y, op.next p x = some y ∧ Runs p y r :=
  h.resolve_left hs

lemma Runs.settled (h : Runs p x l) : settled l = l := by
  unfold Os132.settled
  split
  case h_1 =>
    obtain ⟨y, hy, -⟩ := runs_cons h (by simp [Op.stops])
    cases x <;> simp [Op.next, Op.calmly] at hy
  case h_2 =>
    obtain ⟨y, hy, -⟩ := runs_cons h (by simp [Op.stops])
    cases x <;> simp [Op.next, Op.calmly] at hy
  case h_3 => rfl

lemma Runs.calm (h : Runs p (.tidy ex) l) : Runs p (.calm ex) l := by
  cases l with
  | nil => rfl
  | cons op r =>
    obtain h | ⟨y, hy, hr⟩ := h
    · exact Or.inl h
    · refine Or.inr ⟨y, ?_, hr⟩
      cases op <;> first | exact hy | simp [Op.next] at hy

lemma runs_append (hr : Runs p (.calm ex) r) (he : ∀ op ∈ e, op.calmly p ex = some (.calm ex)) :
    Runs p (.calm ex) (e ++ r) := by
  induction e with
  | nil => exact hr
  | cons op e ih =>
    refine Or.inr ⟨.calm ex, he op (by simp), ih fun o ho => he o (by simp [ho])⟩

lemma runs_next (hop : op.next p x = some y) (hr : Runs p y r) : Runs p x (op :: r) :=
  Or.inr ⟨y, hop, hr⟩

lemma runs_exitOps (r : List Op) : Runs p (.calm false) (exitOps ++ r) := by
  have hdead : Runs p .dead (panic "zombie exit" :: r) := Or.inl trivial
  have hstamp : Runs p .orphaned (acquire .tickslock :: store .etime :: release .tickslock :: schedAs .zombie ::
      panic "zombie exit" :: r) := runs_next rfl (runs_next rfl (runs_next rfl (runs_next rfl hdead)))
  have hparent : Runs p (.calm true) (wakeupParent :: reparent :: store (.priority (-1)) :: _) :=
    runs_next rfl (runs_next rfl (runs_next rfl hstamp))
  exact runs_next rfl (runs_next rfl (runs_next rfl hparent))

lemma runs_yield (flag : SchedFlag) (hr : Runs p (.calm ex) r) : Runs p (.calm ex) (yield flag ++ r) := by
  refine runs_append hr ?_
  cases flag <;> simp [yield, stampQvalue, Op.calmly]

lemma runs_sleep {chan : Chan} {lk : Lock} (hc : chan ≠ .proc p) (hl : lk ≠ .ptable) (hr : Runs p (.calm ex) r) :
    Runs p (.calm ex) (sleep chan lk ++ r) := by
  have heq : sleep chan lk ++ r = acquire .ptable :: release lk :: store (.chan (some chan)) :: schedAs .sleeping ::
      store (.chan none) :: release .ptable :: acquire lk :: r := by simp [sleep, hl]
  have hback : Runs p (.calm ex) (store (.chan none) :: release .ptable :: acquire lk :: r) :=
    runs_next rfl (runs_next rfl (runs_next rfl hr))
  rw [heq]
  exact runs_next rfl (runs_next rfl (runs_next (if_neg hc) (runs_next rfl hback)))

lemma runs_wakeup {chan : Chan} (hr : Runs p (.calm ex) r) : Runs p (.calm ex) (wakeup chan ++ r) :=
  runs_next rfl (runs_next rfl (runs_next rfl hr))

lemma runs_syscall (sc : Syscall) (hr : Runs p (.calm false) r) : Runs p (.calm false) (sc.ops ++ r) := by
  cases sc with
  | exit => exact runs_exitOps r
  | fork | wait | wait2 | kill | nice | sleep | other =>
    refine runs_append hr ?_
    simp [Syscall.ops, forkOps, sysSleep, Op.calmly]

lemma runs_kcode {mk : Option ℕ → Op} {b : Bool} {h : Option ℕ} (hmk : ∀ h, (mk h).calmly p ex = some (.calm ex))
    (hr : Runs p (.calm ex) r) (he : kcodeOps mk b h ch = some e) : Runs p (.calm ex) (e ++ r) := by
  have again (h' : Option ℕ) : Runs p (.calm ex) (mk h' :: r) := Or.inr ⟨_, hmk h', hr⟩
  cases h with
  | none =>
    cases ch <;> simp only [kcodeOps, Option.some.injEq, reduceCtorEq] at he <;> subst he
    case go => exact hr
    case lock n => exact runs_next rfl (again (some n))
    case wake n =>
      rw [List.append_assoc]
      exact runs_wakeup (again none)
  | some n =>
    cases ch <;> simp only [kcodeOps, Option.some.injEq, reduceCtorEq] at he
    case unlock =>
      subst he
      exact runs_next rfl (again none)
    case wake n' =>
      subst he
      rw [List.append_assoc]
      exact runs_wakeup (again (some n))
    case sleepOn n' =>
      split_ifs at he
      simp only [Option.some.injEq] at he
      subst he
      simpa using runs_sleep (by simp) (show Lock.other n ≠ .ptable by simp) (again (some n))

/-- The steps that an operation puts in front of the thread take it where the operation goes; a
`wait` that finds a child but no zombie is on its way to sleep. -/
theorem act_runs (h : Runs p x (op :: r)) (ha : act flag c (some p) ch m op = some (m', e))
    (hst : ∀ st, op ≠ schedAs st) (hs : ¬ op.stops p) :
    (∃ y, op.next p x = some y ∧ Runs p y (e ++ r)) ∨
      x = .calm false ∧ m' = m ∧ (∃ two, op = .wait two) ∧ m.proc.find (Proc.isZombieOf p) = none ∧
        Runs p .found (e ++ r) := by
  obtain ⟨y, hy, hr⟩ := runs_cons h hs
  cases op <;> try (simp [act] at ha; done)
  all_goals simp only [act, Option.some.injEq, Prod.mk.injEq, Option.map_some] at ha
  -- operations that put nothing in front of the thread
  case tick | freeKstack | forkUnused | forkRunnable | wakeup1 | np | forkParent | late | wakeupParent | reparent |
      store =>
    obtain ⟨-, rfl⟩ := ha
    exact Or.inl ⟨y, hy, hr⟩
  case wait two =>
    obtain rfl : x = .calm false := by
      cases x with
      | calm ex => cases ex <;> simp_all [Op.next, Op.calmly]
      | _ => simp [Op.next] at hy
    obtain rfl : y = .calm false := by simpa [Op.next, Op.calmly] using hy.symm
    split at ha
    · obtain ⟨-, rfl⟩ := Prod.mk.inj ha
      exact Or.inl ⟨_, hy, runs_append hr (by simp [Op.calmly])⟩
    · rename_i hz
      split_ifs at ha <;> obtain ⟨rfl, rfl⟩ := Prod.mk.inj ha
      · exact Or.inl ⟨_, hy, runs_append hr (by simp [Op.calmly])⟩
      · refine Or.inr ⟨rfl, rfl, ⟨two, rfl⟩, hz, ?_⟩
        simpa [sleep, Runs, Op.next, Op.calmly, Op.stops] using hr
  case ifKilledExit u =>
    obtain ⟨-, rfl⟩ := ha
    obtain ⟨ex, rfl, hex⟩ : ∃ ex, y = .calm ex ∧ (u = true → ex = false) := by
      cases x <;> cases u <;> simp only [Op.next, Op.calmly, Option.some.injEq, reduceCtorEq] at hy
      all_goals first | exact ⟨_, hy.symm, by simp⟩ | (split_ifs at hy; exact ⟨_, (Option.some.inj hy).symm, by simp⟩)
    refine Or.inl ⟨_, hy, ?_⟩
    split_ifs with hk
    · obtain rfl := hex (Bool.and_elim_right hk)
      exact runs_exitOps r
    · exact hr
  case syscall sc =>
    obtain ⟨-, rfl⟩ := ha
    obtain rfl : y = .calm false := by
      cases x <;> simp only [Op.next, Op.calmly, reduceCtorEq] at hy
      all_goals split_ifs at hy; exact (Option.some.inj hy).symm
    exact Or.inl ⟨_, hy, runs_syscall sc hr⟩
  case schedAs st => exact absurd rfl (hst st)
  all_goals
    refine Or.inl ⟨y, hy, ?_⟩
    have hcalm : ∃ ex, y = .calm ex := by
      cases x <;> simp only [Op.next, Op.calmly, Option.some.injEq, reduceCtorEq] at hy
      all_goals first | exact ⟨_, hy.symm⟩ | (split_ifs at hy; exact ⟨_, (Option.some.inj hy).symm⟩)
    obtain ⟨ex, rfl⟩ := hcalm
  case timerIrq =>
    obtain ⟨-, rfl⟩ := ha
    split_ifs
    · exact runs_append hr (by simp [timerOps, wakeup, Op.calmly])
    · exact hr
  case ifYield =>
    obtain ⟨-, rfl⟩ := ha
    split_ifs
    · exact runs_yield flag hr
    · exact hr
  case allocproc =>
    split at ha <;> obtain ⟨-, rfl⟩ := Prod.mk.inj (Option.some.inj ha) <;>
      exact runs_append hr (by simp [Op.calmly])
  case allocKstack i | copyuvm i =>
    cases ch <;> simp only [reduceCtorEq] at ha
    case page n =>
      split_ifs at ha
      obtain ⟨-, rfl⟩ := Prod.mk.inj (Option.some.inj ha)
      exact runs_append hr (by simp [forkBody, Op.calmly])
    case noPage =>
      obtain ⟨-, rfl⟩ := Prod.mk.inj (Option.some.inj ha)
      exact runs_append hr (by simp [Op.calmly])
  case forkPid i =>
    obtain ⟨-, rfl⟩ := ha
    refine runs_append hr ?_
    cases flag <;> simp [forkPublish, Op.calmly]
  case forkretFirst =>
    obtain ⟨-, rfl⟩ := ha
    split_ifs
    · exact runs_append hr (by simp [Op.calmly])
    · exact hr
  case exit =>
    obtain ⟨-, rfl⟩ := ha
    have hp : p ≠ initproc := hs
    simpa [hp] using hr
  case kill pid =>
    split at ha <;> obtain ⟨-, rfl⟩ := Prod.mk.inj (Option.some.inj ha) <;>
      exact runs_append hr (by simp [Op.calmly])
  case nice =>
    obtain ⟨-, rfl⟩ := ha
    split_ifs <;> exact runs_append hr (by simp [stampQvalue, Op.calmly])
  case yieldMedium =>
    obtain ⟨-, rfl⟩ := ha
    split_ifs
    · exact runs_append hr (by simp [stampQvalue, Op.calmly])
    · exact hr
  case sleepTicks0 n =>
    obtain ⟨-, rfl⟩ := ha
    exact runs_append hr (by simp [Op.calmly])
  case sleepTest n t0 =>
    obtain ⟨-, rfl⟩ := ha
    split_ifs <;> exact runs_append hr (by simp [Op.calmly])
  case sleepKilled n t0 =>
    obtain ⟨-, rfl⟩ := ha
    have hr' : Runs p (.calm ex) (sleepTest n t0 :: r) := Or.inr ⟨_, rfl, hr⟩
    split_ifs
    · exact runs_append hr (by simp [Op.calmly])
    · simpa using runs_sleep (by simp) (by simp) hr'
  case kcode | kcodeNosleep =>
    obtain ⟨e', he, -, rfl⟩ := Option.map_eq_some_iff.mp ha
    exact runs_kcode (fun _ => rfl) hr he

/-- The phases of a thread that has passed the test at the start of `exit`. -/
def Phase.exits : Phase → Bool
  | .calm ex | .tidy ex => ex
  | .woke | .orphaned | .dead => true
  | _ => false

/-- The operations of `exit` between `reparent` and the end. -/
def Op.stamps : Op → Bool
  | store (.priority _) | acquire .tickslock | store .etime | release .tickslock => true
  | _ => false

/-- The transitions of `Op.next`, with all calm ones taken together. -/
inductive Leads (p : Slot) : Op → Phase → Phase → Prop
  | calm (op : Op) (x y : Phase) (hx : x.isCalm = true) (hy : y.isCalm = true)
      (he : y.exits = true → x.exits = true ∨ op = exit) (hc : ∀ c, op = store (.chan c) → c ≠ some (.proc p))
      (hz : op ≠ schedAs .zombie) : Leads p op x y
  | wake (x : Phase) (hx : x.isCalm = true) (he : x.exits = true) : Leads p wakeupParent x .woke
  | mark : Leads p (store (.chan (some (.proc p)))) .found .own
  | leave : Leads p (schedAs .sleeping) .own .slept
  | tidy : Leads p (store (.chan none)) .slept (.calm false)
  | orphan : Leads p reparent .woke .orphaned
  | stamp (op : Op) (hop : op.stamps = true) : Leads p op .orphaned .orphaned
  | zombie : Leads p (schedAs .zombie) .orphaned .dead

lemma leads_of_calmly (h : op.calmly p ex = some y) (hx : x.isCalm = true) (he : x.exits = ex) : Leads p op x y := by
  unfold Op.calmly at h
  split at h
  all_goals first | split_ifs at h | skip
  all_goals first | obtain rfl := Option.some.inj h | simp at h
  all_goals first
    | exact .wake x hx (by simp_all)
    | exact .calm _ _ _ hx rfl (by simp_all [Phase.exits]) (by intro c hc hcp; simp_all) (by simp_all)

lemma leads_of_next (h : op.next p x = some y) : Leads p op x y := by
  unfold Op.next at h
  split at h
  case h_1 => exact leads_of_calmly h rfl rfl
  case h_2 => simp at h
  case h_3 => exact leads_of_calmly h rfl rfl
  case h_4 c =>
    split_ifs at h with hc
    subst hc
    exact Option.some.inj h ▸ .mark
  all_goals first | exact Option.some.inj h ▸ .leave | exact Option.some.inj h ▸ .tidy | exact Option.some.inj h ▸ .orphan |
    exact Option.some.inj h ▸ .zombie | exact Option.some.inj h ▸ .stamp _ rfl | simp at h

/-- A step that leaves kernel memory in place keeps the phase, or ends a tidy one. -/
def Phase.Rests (x y : Phase) : Prop :=
  y = x ∨ ∃ ex, (x = .calm ex ∨ x = .tidy ex) ∧ y = .calm ex

/-- How a step of its CPU moves process `p`, and the memory after the step. -/
inductive Advance (flag : SchedFlag) (s : State) (c : CpuId) (p : Slot) : Phase → Phase → Mem → Prop
  | rest (x y : Phase) (h : x.Rests y) : Advance flag s c p x y s.mem
  | found (two : Bool) (r : List Op) (ho : s.ops c = .wait two :: r)
      (hz : s.proc.find (Proc.isZombieOf p) = none) : Advance flag s c p (.calm false) .found s.mem
  | leave (st : ProcState) (r : List Op) (x y : Phase) (ho : s.ops c = schedAs st :: r)
      (h : Leads p (schedAs st) x y) :
      Advance flag s c p x y { s.mem with proc := s.mem.proc.set p fun q => { q with state := st } }
  | act (op : Op) (r : List Op) (ch : Choice) (m' : Mem) (e : List Op) (x y : Phase) (ho : s.ops c = op :: r)
      (hst : ∀ st, op ≠ schedAs st) (ha : act flag c (some p) ch s.mem op = some (m', e))
      (hs : ¬ op.stops p) (h : Leads p op x y) : Advance flag s c p x y m'

/-- The operations of a thread that leave kernel memory in place. -/
def Op.outside : Op → Bool
  | acquire _ | user => true
  | op => op.plain

lemma calmly_of_outside (h : op.calmly p ex = some y) (hop : op.outside = true) : y = .calm ex := by
  cases op <;> simp only [Op.outside, Op.plain, Bool.false_eq_true] at hop
  case user =>
    cases ex <;> simp only [Op.calmly, Bool.false_eq_true, if_false, if_true, Option.some.injEq, reduceCtorEq] at h
    exact h.symm
  all_goals exact (Option.some.inj h).symm

lemma rests_of_next (h : op.next p x = some y) (hop : op.outside = true) : x.Rests y := by
  cases x with
  | calm ex => exact Or.inr ⟨ex, Or.inl rfl, calmly_of_outside h hop⟩
  | tidy ex =>
    have h' : op.calmly p ex = some y := by cases op <;> first | exact h | simp [Op.next] at h
    exact Or.inr ⟨ex, Or.inr rfl, calmly_of_outside h' hop⟩
  | orphaned =>
    left
    cases op <;> simp only [Op.outside, Op.plain, Bool.false_eq_true] at hop
    case acquire lk | release lk => cases lk <;> simp_all [Op.next]
    all_goals simp [Op.next] at h
  | found | own | slept | woke | dead =>
    cases op <;> simp only [Op.outside, Op.plain, Bool.false_eq_true] at hop <;> simp [Op.next] at h

lemma Runs.user (h : Runs p x (user :: r)) :
    (x = .calm false ∨ x = .tidy false) ∧ Runs p (.calm false) (user :: r) := by
  obtain ⟨y, hy, -⟩ := runs_cons h (by simp [Op.stops])
  cases x with
  | calm ex =>
    cases ex <;> simp only [Op.next, Op.calmly, if_true, reduceCtorEq] at hy
    exact ⟨Or.inl rfl, h⟩
  | tidy ex =>
    cases ex <;> simp only [Op.next, Op.calmly, if_true, reduceCtorEq] at hy
    exact ⟨Or.inr rfl, h.calm⟩
  | _ => simp [Op.next] at hy

lemma Runs.release (h : Runs p x (release .ptable :: r)) : x.isCalm = true := by
  obtain ⟨y, hy, -⟩ := runs_cons h (by simp [Op.stops])
  cases x <;> first | rfl | simp [Op.next] at hy

/-- A calm thread stays calm when an interrupt handler is put on top of it. -/
lemma runs_handler (h : Runs p x l) (hx : x.isCalm = true)
    (he : ∀ ex, (((l.head? == some Op.user) = true) → ex = false) → ∀ op ∈ e, op.calmly p ex = some (.calm ex)) :
    ∃ y, x.Rests y ∧ Runs p y (e ++ l) := by
  obtain ⟨ex, hex, hl⟩ : ∃ ex, (x = .calm ex ∨ x = .tidy ex) ∧ Runs p (.calm ex) l := by
    cases x with
    | calm ex => exact ⟨ex, Or.inl rfl, h⟩
    | tidy ex => exact ⟨ex, Or.inr rfl, h.calm⟩
    | _ => simp [Phase.isCalm] at hx
  refine ⟨.calm ex, Or.inr ⟨ex, hex, rfl⟩, runs_append hl (he ex fun hu => ?_)⟩
  cases l with
  | nil => simp at hu
  | cons op r =>
    obtain rfl : op = .user := by simpa using hu
    simpa using hl.user.1

lemma calmly_trapTimer {u : Bool} (hu : u = true → ex = false) : ∀ op ∈ trapTimer u, op.calmly p ex = some (.calm ex) := by
  cases u with
  | false => simp [trapTimer, Op.calmly]
  | true => simp [trapTimer, Op.calmly, hu]

lemma calmly_trapDevice {u : Bool} (hu : u = true → ex = false) : ∀ op ∈ trapDevice u, op.calmly p ex = some (.calm ex) := by
  cases u with
  | false => simp [trapDevice, Op.calmly]
  | true => simp [trapDevice, Op.calmly, hu]

/-- A step of the CPU of a process moves the process along its phases. -/
theorem moves_runs {a : Action} (hm : Moves flag s c p a l m') (hr : Runs p x (settled (s.ops c)))
    (hie : (s.cpu c).ie = true → x.isCalm = true ∧ settled (s.ops c) = s.ops c) :
    ∃ y, Advance flag s c p x y m' ∧ Runs p y (settled l) := by
  have finish {y l} (ha : Advance flag s c p x y m') (h : Runs p y l) :
      ∃ y, Advance flag s c p x y m' ∧ Runs p y (settled l) := ⟨y, ha, h.settled.symm ▸ h⟩
  cases hm with
  | timer hi =>
    obtain ⟨hx, hset⟩ := hie hi
    rw [hset] at hr
    obtain ⟨y, hy, hy'⟩ := runs_handler hr hx fun ex hu => calmly_trapTimer hu
    exact finish (.rest x y hy) hy'
  | device hi =>
    obtain ⟨hx, hset⟩ := hie hi
    rw [hset] at hr
    obtain ⟨y, hy, hy'⟩ := runs_handler hr hx fun ex hu => calmly_trapDevice hu
    exact finish (.rest x y hy) hy'
  | acquire lk r ch ho =>
    rw [ho] at hr
    exact ⟨x, .rest x x (Or.inl rfl), hr⟩
  | spin lk r ch ho =>
    rw [ho] at hr
    obtain ⟨y, hy, hr'⟩ := runs_cons hr (by simp [Op.stops])
    exact finish (.rest x y (rests_of_next hy rfl)) hr'
  | sched r ch ho =>
    rw [ho] at hr
    exact finish (.rest x x (Or.inl rfl)) hr
  | plain op r ch ho hop =>
    have hset : settled (s.ops c) = op :: l := by
      rw [ho]
      cases op <;> simp only [Op.plain, Bool.false_eq_true] at hop <;> rfl
    rw [hset] at hr
    obtain ⟨y, hy, hr'⟩ := runs_cons hr (by cases op <;> simp_all [Op.plain, Op.stops])
    refine finish (.rest x y (rests_of_next hy ?_)) hr'
    cases op <;> first | exact hop | simp [Op.plain] at hop
  | syscall sc r ho =>
    rw [ho] at hr
    obtain ⟨hx, hr'⟩ := hr.user
    exact finish (.rest x (.calm false) (Or.inr ⟨false, hx, rfl⟩)) (runs_append hr' (by simp [trapSyscall, Op.calmly]))
  | fault r ho =>
    rw [ho] at hr
    obtain ⟨hx, hr'⟩ := hr.user
    exact finish (.rest x (.calm false) (Or.inr ⟨false, hx, rfl⟩)) (runs_append hr' (by simp [trapFault, Op.calmly]))
  | leave st r ch ho =>
    rw [ho] at hr
    obtain ⟨y, hy, hr'⟩ := runs_cons hr (by simp [Op.stops])
    exact ⟨y, .leave st r x y ho (leads_of_next hy), hr'⟩
  | act op r ch m' e ho hst ha =>
    have hset : settled (s.ops c) = op :: r := by
      rw [ho]
      cases op <;> first | rfl | simp [act] at ha
    rw [hset] at hr
    by_cases hs : op.stops p
    · obtain ⟨rfl, rfl⟩ : op = exit ∧ p = initproc := by
        cases op <;> simp_all [Op.stops, act]
      simp only [act, Option.map_some, Option.some.injEq, Prod.mk.injEq, if_true] at ha
      obtain ⟨rfl, rfl⟩ := ha
      exact ⟨x, .rest x x (Or.inl rfl), Or.inl trivial⟩
    obtain ⟨y, hy, hr'⟩ | ⟨rfl, rfl, ⟨two, rfl⟩, hz, hr'⟩ := act_runs hr ha hst hs
    · exact finish (.act op r ch _ e x y ho hst ha hs (leads_of_next hy)) hr'
    · exact finish (.found two r ho hz) hr'
  | panic r ch msg ho => exact ⟨x, .rest x x (Or.inl rfl), hr⟩

end Os132

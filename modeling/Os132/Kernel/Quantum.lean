import Os132.Kernel.Family

/-!
# The quantum of a process

A discipline for the handler of the timer interrupt. A timer interrupt makes the thread `due` for a
decrement of `quanta`, which CPU 0 makes and the others skip, and then for the `test` against zero.
A thread that fails the test, or exits in between, is `away`: it keeps interrupts off until it has
left its CPU. The timer interrupts since the dispatch of a process are counted along.
-/

namespace Os132

open Op

variable {flag : SchedFlag} {ncpu n : ℕ} {s s' : State} {c d : CpuId} {lb : Label} {a : Action}
  {emb : Slot → Option (Slot × ℕ)} {op : Op} {p : Slot} {r e l : List Op} {ch : Choice} {m m' : Mem}

inductive Beat where
  | free | due | test | away
  deriving DecidableEq

/-- The operations on the way out of a CPU with interrupts off: of `yield`, and of `exit` called from
the handler. -/
def Op.parting : Op → Bool
  | acquire _ | release _ | exit | kcode _ | wakeup1 _ | wakeupParent | reparent | yieldMedium => true
  | store (.priority _) | store .etime | store .qvalueTicks | store (.chan _) => true
  | _ => false

/-- The operations that only the handler of the timer interrupt contains, and those at which a thread
is between two places. -/
def Op.beats : Op → Bool
  | timerIrq | store .quantaDecr | ifYield | spin _ | Op.sched => true
  | _ => false

/-- Where an operation takes a thread. -/
def Op.beat : Op → Beat → Option Beat
  | op, .free => if op.beats then none else some .free
  | timerIrq, .due | store .quantaDecr, .due => some .test
  | acquire _, .due | tick, .due | store .rtimeIncr, .due => some .due
  | ifYield, .test => some .free
  | acquire _, .test | release _, .test | wakeup1 _, .test | ifKilledExit _, .test => some .test
  | schedAs _, .away => some .free
  | op, .away => if op.parting then some .away else none
  | _, _ => none

/-- The operations of a thread chain. Nothing runs after a panic. -/
def Beats : Beat → List Op → Prop
  | b, [] => b = .free
  | b, op :: r => (∃ msg, op = Op.panic msg) ∨ ∃ b', op.beat b = some b' ∧ Beats b' r

variable {b b' : Beat}

lemma beats_cons (h : Beats b (op :: r)) (hop : ∀ msg, op ≠ Op.panic msg) : ∃ b', op.beat b = some b' ∧ Beats b' r :=
  h.resolve_left fun ⟨msg, hm⟩ => hop msg hm

lemma Beats.settled (h : Beats b l) : settled l = l := by
  unfold Os132.settled
  split
  case h_1 =>
    obtain ⟨b', hb, -⟩ := beats_cons h (by simp)
    cases b <;> simp [Op.beat, Op.beats, Op.parting] at hb
  case h_2 =>
    obtain ⟨b', hb, -⟩ := beats_cons h (by simp)
    cases b <;> simp [Op.beat, Op.beats, Op.parting] at hb
  case h_3 => rfl

lemma beats_append (hr : Beats b r) (he : ∀ op ∈ e, op.beat b = some b) : Beats b (e ++ r) := by
  induction e with
  | nil => exact hr
  | cons op e ih => exact Or.inr ⟨b, he op (by simp), ih fun o ho => he o (by simp [ho])⟩

/-- A thread that may keep interrupts off may also run with interrupts on. -/
lemma Beats.free (h : Beats .away l) : Beats .free l := by
  induction l with
  | nil => rfl
  | cons op r ih =>
    obtain h | ⟨b', hb, hr⟩ := h
    · exact Or.inl h
    · refine Or.inr ⟨.free, ?_, ?_⟩
      · cases op <;> first | rfl | (simp [Op.beat, Op.parting] at hb; done) | skip
        rename_i f
        cases f <;> first | rfl | simp [Op.beat, Op.parting] at hb
      · cases op <;> simp only [Op.beat] at hb <;>
          first | (obtain rfl := Option.some.inj hb; exact hr) | (split_ifs at hb; obtain rfl := Option.some.inj hb; exact ih hr)

lemma beats_parting (hop : op.parting = true) (hr : Beats .away r) : Beats .away (op :: r) := by
  refine Or.inr ⟨.away, ?_, hr⟩
  cases op <;> simp only [Op.parting, Bool.false_eq_true] at hop <;> first | rfl | exact if_pos hop

lemma beats_schedAs {st : ProcState} (hr : Beats .free r) : Beats .away (schedAs st :: r) :=
  Or.inr ⟨.free, rfl, hr⟩

lemma beats_stay (hop : op.beats = false) (hr : Beats .free r) : Beats .free (op :: r) := by
  refine Or.inr ⟨.free, ?_, hr⟩
  simp [Op.beat, hop]

lemma beats_exitOps (r : List Op) : Beats .away (exitOps ++ r) := by
  have hleave : Beats .away (schedAs .zombie :: panic "zombie exit" :: r) := beats_schedAs (Or.inl ⟨_, rfl⟩)
  have hstamp : Beats .away (acquire .tickslock :: store .etime :: release .tickslock :: schedAs .zombie ::
      panic "zombie exit" :: r) := beats_parting rfl (beats_parting rfl (beats_parting rfl hleave))
  have hparent : Beats .away (wakeupParent :: reparent :: store (.priority (-1)) :: _) :=
    beats_parting rfl (beats_parting rfl (beats_parting rfl hstamp))
  exact beats_parting rfl (beats_parting rfl (beats_parting rfl hparent))

lemma beats_yield (flag : SchedFlag) (hr : Beats .free r) : Beats .away (yield flag ++ r) := by
  have hlock : Beats .away ([acquire .ptable, schedAs .runnable, release .ptable] ++ r) :=
    beats_parting rfl (beats_schedAs (beats_stay rfl hr))
  cases flag
  case rr | grt => exact hlock
  case frr => exact beats_parting rfl (beats_parting rfl (beats_parting rfl hlock))
  case q3 => exact beats_parting rfl hlock

lemma beats_wakeup {b : Chan} (hr : Beats .away r) : Beats .away (wakeup b ++ r) :=
  beats_parting rfl (beats_parting rfl (beats_parting rfl hr))

/-- `kcode` on the way out may sleep. -/
lemma beats_kcode {h : Option ℕ} (hr : Beats .away r) (he : kcodeOps kcode true h ch = some e) :
    Beats .away (e ++ r) := by
  have again (h' : Option ℕ) : Beats .away (kcode h' :: r) := beats_parting rfl hr
  cases h with
  | none =>
    cases ch <;> simp only [kcodeOps, Option.some.injEq, reduceCtorEq] at he <;> subst he
    case go => exact hr
    case lock n => exact beats_parting rfl (again (some n))
    case wake n =>
      rw [List.append_assoc]
      exact beats_wakeup (again none)
  | some n =>
    cases ch <;> simp only [kcodeOps, if_true, Option.some.injEq, reduceCtorEq] at he <;> subst he
    case unlock => exact beats_parting rfl (again none)
    case wake n' =>
      rw [List.append_assoc]
      exact beats_wakeup (again (some n))
    case sleepOn n' =>
      have hback : Beats .free (store (.chan none) :: release .ptable :: acquire (.other n) :: kcode (some n) :: r) :=
        beats_stay rfl (beats_stay rfl (beats_stay rfl (again (some n)).free))
      exact beats_parting rfl (beats_parting rfl (beats_parting rfl (beats_schedAs hback)))

/-- The operations that only the loop of `scheduler` contains. -/
def Op.ofScheduler : Op → Bool
  | schedTop | schedTicks | scan _ | choose => true
  | _ => false

/-- The stores at the end of `fork`. -/
def Op.publishes : Op → Bool
  | forkRunnable _ | late _ _ => true
  | _ => false

/-- What an operation puts in front of a thread is free of what the handler contains, unless it is
the handler's own, of the scheduler's own operations, of the end of `fork`, which `forkPid` alone brings, and of
the end of `yield`. -/
theorem act_emits {self : Option Slot} (ha : act flag c self ch m op = some (m', e)) (hst : ∀ st, op ≠ schedAs st)
    (ht : op ≠ timerIrq) : ∀ o ∈ e, o.beats = false ∧ o.ofScheduler = false ∧ (o.publishes = true → ∃ i, op = forkPid i) ∧
      (o = schedAs .runnable → op = ifYield) := by
  cases op <;> try (simp [act] at ha; done)
  all_goals simp only [act, Option.some.injEq, Prod.mk.injEq, Option.map_eq_some_iff] at ha
  case timerIrq => exact absurd rfl ht
  case schedAs st => exact absurd rfl (hst st)
  case tick | freeKstack | forkUnused | forkRunnable | wakeup1 =>
    obtain ⟨-, rfl⟩ := ha
    simp
  case np | forkParent | late | wakeupParent | reparent =>
    obtain ⟨j, -, -, rfl⟩ := ha
    simp
  case store =>
    cases self <;> obtain ⟨-, rfl⟩ := Prod.mk.inj (Option.some.inj ha) <;> simp
  case ifKilledExit u =>
    cases self <;> obtain ⟨-, rfl⟩ := Prod.mk.inj (Option.some.inj ha)
    · simp
    · split_ifs <;> simp [exitOps, Op.beats, Op.ofScheduler, Op.publishes]
  case syscall sc =>
    obtain ⟨-, rfl⟩ := ha
    cases sc <;> simp [Syscall.ops, forkOps, exitOps, sysSleep, Op.beats, Op.ofScheduler, Op.publishes]
  case ifYield =>
    cases self <;> obtain ⟨-, rfl⟩ := Prod.mk.inj (Option.some.inj ha)
    · simp
    · cases flag <;> split_ifs <;> simp [yield, stampQvalue, Op.beats, Op.ofScheduler, Op.publishes]
  case allocproc =>
    split at ha <;> obtain ⟨-, rfl⟩ := Prod.mk.inj (Option.some.inj ha) <;> simp [Op.beats, Op.ofScheduler, Op.publishes]
  case allocKstack i | copyuvm i =>
    cases ch <;> simp only [reduceCtorEq] at ha
    case page n =>
      split_ifs at ha
      obtain ⟨-, rfl⟩ := Prod.mk.inj (Option.some.inj ha)
      simp [forkBody, Op.beats, Op.ofScheduler, Op.publishes]
    case noPage =>
      obtain ⟨-, rfl⟩ := Prod.mk.inj (Option.some.inj ha)
      simp [Op.beats, Op.ofScheduler, Op.publishes]
  case forkPid i =>
    obtain ⟨-, rfl⟩ := ha
    cases flag <;> simp [forkPublish, Op.beats, Op.ofScheduler, Op.publishes]
  case forkretFirst =>
    obtain ⟨-, rfl⟩ := ha
    split_ifs <;> simp [Op.beats, Op.ofScheduler, Op.publishes]
  case exit =>
    obtain ⟨j, -, -, rfl⟩ := ha
    split_ifs <;> simp [Op.beats, Op.ofScheduler, Op.publishes]
  case wait two =>
    obtain ⟨j, -, ha⟩ := ha
    split at ha
    · obtain ⟨-, rfl⟩ := Prod.mk.inj ha
      simp [Op.beats, Op.ofScheduler, Op.publishes]
    · split_ifs at ha <;> obtain ⟨-, rfl⟩ := Prod.mk.inj ha <;> simp [sleep, Op.beats, Op.ofScheduler, Op.publishes]
  case kill pid =>
    split at ha <;> obtain ⟨-, rfl⟩ := Prod.mk.inj (Option.some.inj ha) <;> simp [Op.beats, Op.ofScheduler, Op.publishes]
  case nice =>
    obtain ⟨j, -, -, rfl⟩ := ha
    split_ifs <;> simp [stampQvalue, Op.beats, Op.ofScheduler, Op.publishes]
  case yieldMedium =>
    obtain ⟨j, -, -, rfl⟩ := ha
    split_ifs <;> simp [stampQvalue, Op.beats, Op.ofScheduler, Op.publishes]
  case sleepTicks0 n =>
    obtain ⟨-, rfl⟩ := ha
    simp [Op.beats, Op.ofScheduler, Op.publishes]
  case sleepTest n t0 =>
    obtain ⟨-, rfl⟩ := ha
    split_ifs <;> simp [Op.beats, Op.ofScheduler, Op.publishes]
  case sleepKilled n t0 =>
    obtain ⟨j, -, -, rfl⟩ := ha
    split_ifs <;> simp [sleep, Op.beats, Op.ofScheduler, Op.publishes]
  case kcode h | kcodeNosleep h =>
    obtain ⟨e', he, -, rfl⟩ := ha
    cases h <;> cases ch <;> simp only [kcodeOps, if_true, if_false, Option.some.injEq, reduceCtorEq, Bool.false_eq_true] at he
    all_goals subst he
    all_goals simp [wakeup, sleep, Op.beats, Op.ofScheduler, Op.publishes]

lemma act_free {self : Option Slot} (ha : act flag c self ch m op = some (m', e)) (hst : ∀ st, op ≠ schedAs st)
    (ht : op ≠ timerIrq) : ∀ o ∈ e, o.beats = false :=
  fun o ho => (act_emits ha hst ht o ho).1

lemma beats_free (hr : Beats .free r) (he : ∀ o ∈ e, o.beats = false) : Beats .free (e ++ r) :=
  beats_append hr fun o ho => by simp [Op.beat, he o ho]

/-- How a step of its CPU takes process `p` from one place to another. -/
inductive BeatStep (s : State) (c : CpuId) (p : Slot) : Action → Beat → Beat → Mem → Prop
  | timer : BeatStep s c p .timer .free .due s.mem
  | stay (ch : Choice) (b : Beat) (m' : Mem) (hq : (m'.proc p).quanta = (s.proc p).quanta) :
      BeatStep s c p (.exec ch) b b m'
  | device : BeatStep s c p .device .free .free s.mem
  | skip (ch : Choice) (hc : c ≠ 0) : BeatStep s c p (.exec ch) .due .test s.mem
  | decr (ch : Choice) (r : List Op) (m' : Mem) (ho : s.ops c = store .quantaDecr :: r)
      (hq : (m'.proc p).quanta = int32 ((s.proc p).quanta - 1)) : BeatStep s c p (.exec ch) .due .test m'
  | pass (ch : Choice) (hq : 0 < (s.proc p).quanta) : BeatStep s c p (.exec ch) .test .free s.mem
  | leave (ch : Choice) : BeatStep s c p (.exec ch) .test .away s.mem

lemma Store.apply_quanta (f : Store) (hf : f ≠ .quantaDecr) (t : ℕ) (q : Proc) : (f.apply t q).quanta = q.quanta := by
  unfold Store.apply
  split <;> first | exact absurd rfl hf | rfl

lemma act_quanta {self : Option Slot} (ha : act flag c self ch m op = some (m', e)) (hop : op ≠ store .quantaDecr) (j : Slot) :
    (m'.proc j).quanta = (m.proc j).quanta := by
  have hc := act_proc ha j
  generalize m.proc j = q at hc
  generalize m'.proc j = q' at hc
  cases hc with
  | store f ho => exact f.apply_quanta (by rintro rfl; exact hop ho) _ _
  | np f => unfold NpStore.apply; split <;> rfl
  | late f => unfold LateStore.apply; split <;> rfl
  | same | leave | alloc | kstack | pgdir | freeKstack | free | parent | publish | wake | adopt | adoptWake |
    kill | reap | report | reapReport => rfl

lemma free_of_beats (h : Beats .free (op :: r)) : op.beats = false ∧ ((∃ msg, op = Op.panic msg) ∨ Beats .free r) := by
  obtain ⟨msg, rfl⟩ | ⟨b', hb, hr⟩ := h
  · exact ⟨rfl, Or.inl ⟨msg, rfl⟩⟩
  · simp only [Op.beat] at hb
    split_ifs at hb with hop
    obtain rfl := Option.some.inj hb
    exact ⟨by simpa using hop, Or.inr hr⟩

lemma beat_due (h : op.beat .due = some b') : op = timerIrq ∧ b' = .test ∨ op = store .quantaDecr ∧ b' = .test ∨
    b' = .due ∧ (op = tick ∨ op = store .rtimeIncr ∨ ∃ lk, op = acquire lk) := by
  unfold Op.beat at h
  split at h <;> simp_all

lemma beat_test (h : op.beat .test = some b') : op = ifYield ∧ b' = .free ∨
    b' = .test ∧ ((∃ lk, op = acquire lk ∨ op = release lk) ∨ (∃ c, op = wakeup1 c) ∨ ∃ u, op = ifKilledExit u) := by
  unfold Op.beat at h
  split at h <;> simp_all

lemma beat_away (h : op.beat .away = some b') : (∃ st, op = schedAs st) ∨ b' = .away ∧ op.parting = true := by
  unfold Op.beat at h
  split at h <;> simp_all

/-- A step of the CPU of a process moves the process from one place to another, or is the one at which it
leaves `RUNNING`. -/
theorem moves_beats (hm : Moves flag s c p a l m') (hb : Beats b (settled (s.ops c))) (hat : atSched (s.ops c) = false)
    (hrun : (s.proc p).state = .running)
    (hie : (s.cpu c).ie = true → b = .free ∧ settled (s.ops c) = s.ops c) :
    (∃ r, l = Op.sched :: r ∧ Beats .free r) ∨
      atSched l = false ∧ ∃ b', BeatStep s c p a b b' m' ∧ Beats b' (settled l) := by
  have next : ∀ {op r}, s.ops c = op :: r → op ≠ Op.sched → (∀ lk, op ≠ spin lk) → settled (s.ops c) = op :: r := by
    intro op r ho h1 h2
    rw [ho]
    cases op <;> first | rfl | exact absurd rfl h1 | exact absurd rfl (h2 _)
  have finish {b' l} (hs : BeatStep s c p a b b' m') (hl : Beats b' l) :
      atSched l = false ∧ ∃ b', BeatStep s c p a b b' m' ∧ Beats b' (settled l) := by
    have hset := hl.settled
    refine ⟨?_, b', hs, hset.symm ▸ hl⟩
    cases l with
    | nil => rfl
    | cons op r =>
      cases op <;> first | rfl | skip
      obtain ⟨b'', hb'', -⟩ := beats_cons hl (by simp)
      cases b' <;> simp [Op.beat, Op.beats, Op.parting] at hb''
  cases hm with
  | timer hi =>
    obtain ⟨rfl, hset⟩ := hie hi
    rw [hset] at hb
    refine Or.inr (finish .timer ?_)
    simpa [trapTimer, Beats, Op.beat, Op.beats] using hb
  | device hi =>
    obtain ⟨rfl, hset⟩ := hie hi
    rw [hset] at hb
    refine Or.inr (finish .device (beats_free hb ?_))
    simp [trapDevice, Op.beats]
  | acquire lk r ch ho =>
    rw [ho] at hb
    exact Or.inr ⟨rfl, b, .stay ch b _ rfl, hb⟩
  | spin lk r ch ho =>
    rw [ho] at hb
    obtain ⟨b', hb', hr⟩ := beats_cons hb (by simp)
    obtain rfl : b' = b := by cases b <;> simpa [Op.beat, Op.beats, Op.parting, eq_comm] using hb'
    exact Or.inr (finish (.stay ch _ _ rfl) hr)
  | sched r ch ho => simp [ho, atSched] at hat
  | plain op r ch ho hop =>
    rw [next ho (by rintro rfl; simp [Op.plain] at hop) (by rintro _ rfl; simp [Op.plain] at hop)] at hb
    obtain ⟨b', hb', hr⟩ := beats_cons hb (by rintro _ rfl; simp [Op.plain] at hop)
    obtain rfl : b' = b := by
      cases op <;> simp only [Op.plain, Bool.false_eq_true] at hop <;>
        cases b <;> simp [Op.beat, Op.beats, Op.parting] at hb' <;> exact hb'.symm
    exact Or.inr (finish (.stay ch _ _ rfl) hr)
  | syscall sc r ho =>
    rw [next ho (by simp) (by simp)] at hb
    obtain ⟨b', hb', hr⟩ := beats_cons hb (by simp)
    obtain rfl : b = .free := by
      cases b <;> first | rfl | simp [Op.beat, Op.parting] at hb'
    exact Or.inr (finish (.stay _ _ _ rfl) (beats_free hb (by simp [trapSyscall, Op.beats])))
  | fault r ho =>
    rw [next ho (by simp) (by simp)] at hb
    obtain ⟨b', hb', hr⟩ := beats_cons hb (by simp)
    obtain rfl : b = .free := by
      cases b <;> first | rfl | simp [Op.beat, Op.parting] at hb'
    exact Or.inr (finish (.stay _ _ _ rfl) (beats_free hb (by simp [trapFault, Op.beats])))
  | leave st r ch ho =>
    rw [next ho (by simp) (by simp)] at hb
    obtain ⟨b', hb', hr⟩ := beats_cons hb (by simp)
    obtain rfl : b' = .free := by cases b <;> simp [Op.beat, Op.beats] at hb' <;> exact hb'.symm
    exact Or.inl ⟨r, rfl, hr⟩
  | panic r ch msg ho => exact Or.inr ⟨hat, b, .stay ch b _ rfl, hb⟩
  | act op r ch m' e ho hst ha =>
    rw [next ho (by rintro rfl; simp [act] at ha) (by rintro _ rfl; simp [act] at ha)] at hb
    obtain ⟨b', hb', hr⟩ := beats_cons hb (by rintro _ rfl; simp [act] at ha)
    right
    cases b with
    | free =>
      obtain ⟨hop, hr⟩ := free_of_beats hb
      have hr := hr.resolve_left (by rintro ⟨msg, rfl⟩; simp [act] at ha)
      refine finish (.stay ch _ _ (act_quanta ha (by rintro rfl; simp [Op.beats] at hop) p)) (beats_free hr ?_)
      exact act_free ha hst (by rintro rfl; simp [Op.beats] at hop)
    | due =>
      rcases beat_due hb' with ⟨rfl, rfl⟩ | ⟨rfl, rfl⟩ | ⟨rfl, hop⟩
      · simp only [act, Option.some.injEq, Prod.mk.injEq] at ha
        obtain ⟨rfl, rfl⟩ := ha
        by_cases hc : c = 0
        · refine finish (.stay ch .due _ rfl) ?_
          simpa [hc, timerOps, wakeup, Beats, Op.beat, Op.beats] using hr
        · simpa [hc] using finish (.skip ch hc) hr
      · have hq : (m'.proc p).quanta = int32 ((s.proc p).quanta - 1) := by
          obtain ⟨rfl, -⟩ := Prod.mk.inj (Option.some.inj ha)
          simp [Store.apply]
        obtain ⟨-, rfl⟩ := Prod.mk.inj (Option.some.inj ha)
        exact finish (.decr ch r _ ho hq) hr
      · have hq := act_quanta ha (by rintro rfl; simp at hop) p
        have he : e = [] := by
          rcases hop with rfl | rfl | ⟨lk, rfl⟩
          · exact (Prod.mk.inj (Option.some.inj ha)).2.symm
          · exact (Prod.mk.inj (Option.some.inj ha)).2.symm
          · simp [act] at ha
        exact finish (.stay ch _ _ hq) (he ▸ hr)
    | test =>
      rcases beat_test hb' with ⟨rfl, rfl⟩ | ⟨rfl, hop⟩
      · simp only [act, Option.some.injEq, Prod.mk.injEq] at ha
        obtain ⟨rfl, rfl⟩ := ha
        by_cases hq : (s.proc p).quanta ≤ 0
        · rw [if_pos ⟨hrun, hq⟩]
          exact finish (.leave ch) (beats_yield flag hr)
        · rw [if_neg fun h => hq h.2]
          exact finish (.pass ch (by omega)) hr
      · have hq := act_quanta ha (by rintro rfl; simp at hop) p
        rcases hop with ⟨lk, rfl | rfl⟩ | ⟨chan, rfl⟩ | ⟨u, rfl⟩
        · simp [act] at ha
        · simp [act] at ha
        · obtain ⟨-, rfl⟩ := Prod.mk.inj (Option.some.inj ha)
          exact finish (.stay ch _ _ hq) hr
        · obtain ⟨rfl, rfl⟩ := Prod.mk.inj (Option.some.inj ha)
          by_cases hk : ((s.proc p).killed && u) = true
          · rw [if_pos hk]
            exact finish (.leave ch) (beats_exitOps r)
          · rw [if_neg hk]
            exact finish (.stay ch _ _ rfl) hr
    | away =>
      obtain ⟨st, rfl⟩ | ⟨rfl, hop⟩ := beat_away hb'
      · exact absurd rfl (hst st)
      refine finish (.stay ch _ _ (act_quanta ha (by rintro rfl; simp [Op.parting] at hop) p)) ?_
      cases op <;> simp only [Op.parting, Bool.false_eq_true] at hop <;>
        simp only [act, reduceCtorEq, Option.some.injEq, Prod.mk.injEq, Option.map_some] at ha
      case exit =>
        obtain ⟨-, rfl⟩ := ha
        split_ifs
        · exact Or.inl ⟨_, rfl⟩
        · exact hr
      case yieldMedium =>
        obtain ⟨-, rfl⟩ := ha
        split_ifs
        · exact beats_append hr (by simp [stampQvalue, Op.beat, Op.parting])
        · exact hr
      case kcode h =>
        obtain ⟨e', he, -, rfl⟩ := Option.map_eq_some_iff.mp ha
        exact beats_kcode hr he
      all_goals
        obtain ⟨-, rfl⟩ := ha
        exact hr

/-! ### Interrupts -/

/-- Interrupts are off, and stay so when the CPU drops its locks. -/
def Off (s : State) (c : CpuId) : Prop := (s.cpu c).ie = false ∧ ((s.cpu c).ncli ≠ 0 → (s.cpu c).intena = false)

lemma off_of_eq (h : Off s c) (h1 : (s'.cpu c).ie = (s.cpu c).ie) (h2 : (s'.cpu c).ncli = (s.cpu c).ncli)
    (h3 : (s'.cpu c).intena = (s.cpu c).intena) : Off s' c := by
  unfold Off
  rw [h1, h2, h3]
  exact h

/-- Interrupts come on at `iret`, in the scheduler and in another process only. -/
lemma execOp_off (h : execOp flag c ch r s op = some s') (hoff : Off s c) (h1 : op ≠ iret) (h2 : op ≠ schedTop)
    (h3 : op.switches = false) : Off s' c := by
  have keep {l : List Op} {m : Mem} : Off { s.setOps c l with mem := m } c :=
    off_of_eq hoff (by simp [State.setOps_self]) (by simp [State.setOps_self]) (by simp [State.setOps_self])
  cases op
  case iret => exact absurd rfl h1
  case schedTop => exact absurd rfl h2
  case scan | choose => simp [Op.switches] at h3
  case acquire lk =>
    simp only [execOp] at h
    split_ifs at h <;> obtain rfl := Option.some.inj h
    · exact hoff
    · refine ⟨by simp [Cpu.pushcli], fun _ => ?_⟩
      simp only [State.setCpu_self, Cpu.pushcli, State.setOps_self]
      split_ifs with h0
      · exact hoff.1
      · exact hoff.2 h0
  case spin lk =>
    simp only [execOp] at h
    split_ifs at h
    obtain rfl := Option.some.inj h
    exact off_of_eq hoff (by simp [State.setOps_self]) (by simp [State.setOps_self]) (by simp [State.setOps_self])
  case release lk =>
    simp only [execOp, Option.some.injEq] at h
    subst h
    unfold State.releaseStep
    split_ifs
    swap
    · exact hoff
    split
    · exact hoff
    · rename_i k hk
      simp only [Cpu.popcli, hoff.1, Bool.false_eq_true, if_false] at hk
      split_ifs at hk with hn
      obtain rfl := Option.some.inj hk
      have hin := hoff.2 (by omega)
      refine ⟨?_, fun _ => ?_⟩ <;> simp [State.unlock, State.setOps_self, hin]
  case sched =>
    simp only [execOp, Option.some.injEq] at h
    subst h
    unfold State.schedStep
    split
    · exact hoff
    · split_ifs
      · exact hoff
      · exact off_of_eq hoff (by simp [State.setOps_self]) (by simp [State.setOps_self]) (by simp [State.setOps_self])
  case panic msg =>
    simp only [execOp, Option.some.injEq] at h
    exact h ▸ hoff
  case user =>
    simp only [execOp] at h
    cases ch <;> simp only [Option.some.injEq, reduceCtorEq] at h <;> subst h
    · exact off_of_eq hoff (by simp [State.setOps_self]) (by simp [State.setOps_self]) (by simp [State.setOps_self])
    · exact ⟨by simp, by simpa [State.setOps_self] using hoff.2⟩
  case allocContext i =>
    simp only [execOp, Option.some.injEq] at h
    subst h
    exact off_of_eq hoff (by simp [State.setOps_self]) (by simp [State.setOps_self]) (by simp [State.setOps_self])
  case schedTicks =>
    simp only [execOp, Option.some.injEq] at h
    subst h
    exact off_of_eq hoff (by simp [State.setOps_self]) (by simp [State.setOps_self]) (by simp [State.setOps_self])
  all_goals
    simp only [execOp, Option.map_eq_some_iff] at h
    obtain ⟨⟨m', e⟩, -, rfl⟩ := h
    exact keep

lemma step_off (h : step flag ncpu lb s = some s') (hoff : Off s lb.cpu)
    (hop : ∀ op r, s.ops lb.cpu = op :: r → op ≠ iret ∧ op ≠ schedTop ∧ op.switches = false) : Off s' lb.cpu := by
  unfold step at h
  split_ifs at h
  split at h
  · simp [interrupt, hoff.1] at h
  · simp [interrupt, hoff.1] at h
  · split at h
    · simp at h
    · rename_i op r ho
      obtain ⟨h1, h2, h3⟩ := hop op r ho
      exact execOp_off h hoff h1 h2 h3

lemma keeps_off (hb : Beats b (settled (op :: r))) (hne : b ≠ .free) : op ≠ iret ∧ op ≠ schedTop ∧ op.switches = false := by
  cases op
  case iret | schedTop | scan | choose =>
    obtain ⟨b', hb', -⟩ := beats_cons hb (by simp)
    cases b <;> first | exact absurd rfl hne | simp [Op.beat, Op.parting] at hb'
  all_goals exact ⟨by simp, by simp, rfl⟩

lemma settled_of_ie (hi : Inv s emb) (hie : (s.cpu c).ie = true) : settled (s.ops c) = s.ops c := by
  obtain ⟨g, hok, -⟩ := hi.cpu c
  have ht := (hok.of_ie hie).2.2.2
  cases ho : s.ops c with
  | nil => rfl
  | cons op r =>
    rw [ho] at ht
    have h1 := ht.not_spinning
    have h2 := ht.not_atSched
    cases op <;> try rfl
    · simp [spinning] at h1
    · simp [atSched] at h2

/-- The thread of process `p`, which is on CPU `c`, is at the place `b`. -/
structure BeatAt (s : State) (c : CpuId) (p : Slot) (b : Beat) : Prop where
  beats : Beats b (settled (s.kstk p))
  off : b ≠ .free → Off s c

lemma BeatAt.step (hi : Inv s emb) (h : step flag ncpu lb s = some s') (hp : (s.cpu lb.cpu).proc = some p)
    (hat : atSched (s.kstk p) = false) (hb : BeatAt s lb.cpu p b) :
    (∃ r, s'.kstk p = Op.sched :: r ∧ Beats .free r) ∨
      (s'.cpu lb.cpu).proc = some p ∧ atSched (s'.kstk p) = false ∧
        ∃ b', BeatStep s lb.cpu p lb.action b b' s'.mem ∧ BeatAt s' lb.cpu p b' := by
  rw [← ops_of_proc hp] at hat
  have hbeats := hb.beats
  rw [← ops_of_proc hp] at hbeats
  have hie : (s.cpu lb.cpu).ie = true → b = .free ∧ settled (s.ops lb.cpu) = s.ops lb.cpu := by
    intro hie
    refine ⟨?_, (settled_of_ie hi hie)⟩
    by_contra hne
    have := (hb.off hne).1
    rw [hie] at this
    exact Bool.noConfusion this
  obtain hl | ⟨hat', b', hstep, hb'⟩ := moves_beats (step_moves hi h hp) hbeats hat (hi.state_of_cur hp hat) hie
  · exact Or.inl hl
  right
  have hk := (step_kind hi h).1
  refine ⟨?_, hat', b', hstep, hb', fun hne => ?_⟩
  · rw [hk.proc_self hat, hp]
    intro op r ho
    by_contra hsw
    rw [Bool.not_eq_false] at hsw
    have := hi.sched_none ho hsw
    rw [hp] at this
    simp at this
  · by_cases hfree : b = .free
    · subst hfree
      -- a timer interrupt
      generalize hact : lb.action = a at hstep
      generalize s'.mem = m' at hstep
      have : a = .timer := by
        cases hstep with
        | timer => rfl
        | stay | device => exact absurd rfl hne
      subst this
      unfold Os132.step at h
      split_ifs at h
      rw [hact] at h
      simp only [interrupt] at h
      split_ifs at h with hie'
      obtain rfl := Option.some.inj h
      obtain ⟨g, hok, -⟩ := hi.cpu lb.cpu
      refine ⟨by simp, fun hn => ?_⟩
      exact absurd (by simpa [State.setOps_self] using (hok.of_ie hie').2.1) hn
    · refine step_off h (hb.off hfree) fun op r ho => keeps_off (r := r) (b := b) ?_ hfree
      rwa [ho] at hbeats

/-- The threads of the processes that have been forked and have not ended: one that is off its CPU, or
about to leave it, is free. -/
def Beating (s : State) : Prop := ∀ p, (s.proc p).state.alive = true →
  Beats .free (settled (s.kstk p)) ∨
    ∃ c b, (s.cpu c).proc = some p ∧ atSched (s.kstk p) = false ∧ BeatAt s c p b

lemma Boot.beating (h : Boot s) : Beating s := by
  intro p hp
  left
  rw [h.kstk]
  split_ifs
  · simp [forkret, settled, Beats, Op.beat, Op.beats]
  · rfl

lemma Beating.at (hi : Inv s emb) (hb : Beating s) (hp : (s.cpu c).proc = some p) (hat : atSched (s.kstk p) = false) :
    ∃ b, BeatAt s c p b := by
  have hal : (s.proc p).state.alive = true := by
    rw [hi.state_of_cur hp (by rwa [ops_of_proc hp])]
    rfl
  obtain h | ⟨d, b, hd, -, h⟩ := hb p hal
  · exact ⟨.free, h, fun h => absurd rfl h⟩
  · exact ⟨b, hi.inj d c p hd hp ▸ h⟩

theorem Beating.step (hi : Inv s emb) (hb : Beating s) (h : step flag ncpu lb s = some s') : Beating s' := by
  obtain ⟨hk, -⟩ := step_kind hi h
  intro p hal
  by_cases hp : (s.cpu lb.cpu).proc = some p
  · cases hat : atSched (s.kstk p) with
    | false =>
      obtain ⟨b, hba⟩ := hb.at hi hp hat
      obtain ⟨r, hr, hf⟩ | ⟨hp', hat', b', -, hb'⟩ := hba.step hi h hp hat
      · exact Or.inl (hr ▸ hf)
      · exact Or.inr ⟨_, _, hp', hat', hb'⟩
    | true =>
      -- the process is on its way to the scheduler
      left
      have hm := step_moves hi h hp
      have hal' : (s.proc p).state.alive = true := by
        by_contra hno
        rw [Bool.not_eq_true] at hno
        rw [State.proc, mem_of_zombie hi hp hno hm] at hal
        rw [hno] at hal
        exact Bool.noConfusion hal
      have hf : Beats .free (settled (s.kstk p)) := by
        obtain h | ⟨d, b, -, hd, -⟩ := hb p hal'
        · exact h
        · rw [hat] at hd
          exact Bool.noConfusion hd
      have hops := ops_of_proc hp
      have hie := hi.ie_of_lock (hi.atSched_lock (c := lb.cpu) (hops ▸ hat))
      cases ho : s.ops lb.cpu with
      | nil => simp [← hops, ho, atSched] at hat
      | cons op r =>
        rw [← hops, ho] at hat hf
        cases op <;> simp only [atSched, Bool.false_eq_true] at hat
        obtain ⟨ch, hx⟩ := step_self h hie ho
        simp only [execOp, Option.some.injEq, (hi.schedStep ho hp).1] at hx
        subst hx
        simp only [State.setCpu_kstk, kstk_of_setOps hp]
        exact (show Beats .free r from hf).settled.symm ▸ hf
  · rw [kstk_other hi hk hp hal]
    rcases alive_origin hi hk hal with ha | ⟨he, hr⟩
    · obtain h | ⟨d, b, hd, hat, hba⟩ := hb p ha
      · exact Or.inl h
      · have hne : d ≠ lb.cpu := by
          rintro rfl
          exact hp hd
        have hcpu := hk.cpu_ne hne
        refine Or.inr ⟨d, b, by rw [hcpu]; exact hd, hat, by rw [kstk_other hi hk hp hal]; exact hba.beats, fun hb => ?_⟩
        exact off_of_eq (hba.off hb) (by rw [hcpu]) (by rw [hcpu]) (by rw [hcpu])
    · left
      rw [hr]
      simp [forkret, settled, Beats, Op.beat, Op.beats]

/-! ### The counter -/

/-- The decrement of `quanta` in front of a CPU, if any, does not wrap around. -/
def NoWrap (s : State) (lb : Label) : Prop := ∀ r p, s.ops lb.cpu = store .quantaDecr :: r →
  (s.cpu lb.cpu).proc = some p → -2 ^ 31 < (s.proc p).quanta

lemma int32_decr {q : Int} (h : -2 ^ 31 < q) (h' : q ≤ QUANTA) : int32 (q - 1) = q - 1 := by
  unfold int32 QUANTA at *
  rw [Int.bmod_eq_of_le] <;> omega

variable (flag) in
lemma visit_quanta (loc : SchedLocals) (tbl : Table) (j : Slot) :
    ((visit flag loc tbl).2.1 j).quanta = QUANTA ∨ ((visit flag loc tbl).2.1 j).quanta = (tbl j).quanta := by
  have hset (i : Slot) : (tbl.set i (fun p => { p with quanta := QUANTA }) j).quanta = QUANTA ∨
      (tbl.set i (fun p => { p with quanta := QUANTA }) j).quanta = (tbl j).quanta := by
    rw [Table.set_apply]
    split_ifs
    · exact Or.inl rfl
    · exact Or.inr rfl
  have hg (i : Slot) (l : SchedLocals) : ((grtCase i l tbl).2 j).quanta = (tbl j).quanta :=
    tbl.set_field i j _ Proc.quanta fun _ => rfl
  unfold visit
  dsimp only
  split_ifs
  · exact Or.inr rfl
  · cases flag
    case rr => exact hset _
    case frr => exact hset _
    case grt => exact Or.inr (hg _ _)
    case q3 =>
      dsimp only [q3Case]
      split_ifs
      · exact Or.inr (hg _ _)
      · exact hset _
      · exact hset _
      · exact Or.inr rfl

/-- The counter of a process is set by the scheduler while the process is `RUNNABLE`, and decremented by
the process itself. -/
theorem step_quanta (h : StepKind flag s c a s') (j : Slot) : (s'.proc j).quanta = (s.proc j).quanta ∨
    (s.proc j).state = .runnable ∧ (s'.proc j).quanta = QUANTA ∨
    ∃ r, s.ops c = store .quantaDecr :: r ∧ (s.cpu c).proc = some j ∧
      (s'.proc j).quanta = int32 ((s.proc j).quanta - 1) := by
  have hrec := step_rec h j
  generalize s'.proc j = p' at hrec
  have hv := visit_quanta flag (s.cpu c).loc s.proc j
  cases hrec with
  | same | leave | choose => exact Or.inl rfl
  | visit i r q v ho hj hr heq | visitRun i r q v ho hj hr hf heq =>
    rw [heq] at hv
    rcases hv with hv | hv
    · exact Or.inr (Or.inl ⟨hr, hv⟩)
    · exact Or.inl hv
  | act op r ch p' ho ha hst hc =>
    cases hc with
    | store f hf hs =>
      by_cases hd : f = .quantaDecr
      · subst hd
        exact Or.inr (Or.inr ⟨r, hf ▸ ho, hs, rfl⟩)
      · exact Or.inl (f.apply_quanta hd _ _)
    | np f => exact Or.inl (by unfold NpStore.apply; split <;> rfl)
    | late f => exact Or.inl (by unfold LateStore.apply; split <;> rfl)
    | same | leave | alloc | kstack | pgdir | freeKstack | free | parent | publish | wake | adopt | adoptWake |
      kill | reap | report | reapReport => exact Or.inl rfl

lemma quanta_le_step (hi : Inv s emb) (hq : ∀ j, (s.proc j).quanta ≤ QUANTA) (h : step flag ncpu lb s = some s')
    (hw : NoWrap s lb) (j : Slot) : (s'.proc j).quanta ≤ QUANTA := by
  rcases step_quanta (step_kind hi h).1 j with heq | ⟨-, heq⟩ | ⟨r, ho, hp, heq⟩
  · exact heq ▸ hq j
  · exact heq.le
  · have hle := hq j
    rw [heq, int32_decr (hw r j ho hp) hle]
    omega

/-- After `t` timer interrupts since the dispatch, with the counter at `q`. -/
def Tally (c : CpuId) (t : ℕ) (q : Int) (b : Beat) : Prop :=
  if c = 0 then
    match b with
    | .free => t + q ≤ QUANTA ∧ t < QUANTA
    | .due => t + q ≤ QUANTA + 1 ∧ t ≤ QUANTA
    | .test => t + q ≤ QUANTA ∧ t ≤ QUANTA
    | .away => t ≤ QUANTA
  else q ≤ 0 ∧ t ≤ if b = .free then 0 else 1

lemma Tally.le {t : ℕ} {q : Int} (h : Tally c t q b) : (t : Int) ≤ QUANTA := by
  by_cases hc : c = 0
  · cases b <;> simp only [Tally, if_pos hc, QUANTA] at h ⊢ <;> omega
  · have hle : t ≤ 1 := by
      have := h
      simp only [Tally, if_neg hc] at this
      split_ifs at this <;> omega
    unfold QUANTA
    omega

/-- A step of the process keeps the tally. -/
lemma Tally.step {t : ℕ} (h : Tally c t (s.proc p).quanta b) (hb : BeatStep s c p a b b' m')
    (hq : (s.proc p).quanta ≤ QUANTA) (hw : ∀ r, s.ops c = store .quantaDecr :: r → -2 ^ 31 < (s.proc p).quanta) :
    Tally c (t + if a = .timer then 1 else 0) (m'.proc p).quanta b' := by
  by_cases hc : c = 0
  · cases hb with
    | stay ch _ _ heq => simpa [heq] using h
    | device => simpa using h
    | skip ch hne => exact absurd hc hne
    | decr ch r _ ho heq =>
      rw [heq, int32_decr (hw r ho) hq]
      simp only [Tally, if_pos hc, reduceCtorEq, if_false, Nat.add_zero] at h ⊢
      omega
    | timer =>
      simp only [Tally, if_pos hc, if_true] at h ⊢
      push_cast
      change (t : Int) + 1 + (s.proc p).quanta ≤ _ ∧ _
      omega
    | pass | leave =>
      simp only [Tally, if_pos hc, reduceCtorEq, if_false, Nat.add_zero] at h ⊢
      first | exact h.2 | (change (t : Int) + (s.proc p).quanta ≤ _ ∧ _; omega)
  · simp only [Tally, if_neg hc] at h ⊢
    cases hb with
    | stay ch _ _ heq => simpa [heq] using h
    | device => simpa using h
    | decr ch r _ ho heq =>
      rw [heq, int32_decr (hw r ho) hq]
      simp only [reduceCtorEq, if_false, Nat.add_zero] at h ⊢
      omega
    | pass ch hpos => exact absurd h.1 (by omega)
    | timer | skip | leave =>
      simp only [reduceCtorEq, if_false, if_true, Nat.add_zero] at h ⊢
      exact ⟨h.1, by omega⟩

/-- From its dispatch at step `a` to step `b` process `p` is on CPU `c`. -/
structure Slice (r : KRun flag ncpu n) (c : CpuId) (p : Slot) (a b : ℕ) : Prop where
  lt : a < b
  le : b ≤ n
  start : ((r.state a).cpu c).proc ≠ some p
  stay : ∀ k, a < k → k ≤ b → ((r.state k).cpu c).proc = some p

/-- The timer interrupts that the process receives in the slice. -/
def Slice.timers (r : KRun flag ncpu n) (c : CpuId) (a b : ℕ) : ℕ :=
  Lts.Run.count (fun k => r.label k = ⟨c, .timer⟩) (a + 1) b

/-- The dispatch is on CPU 0, or finds the counter of the process used up and leaves it so. -/
def Bounded (flag : SchedFlag) (s : State) (c : CpuId) (p : Slot) : Prop :=
  c = 0 ∨ flag ≠ .rr ∧ (s.proc p).quanta ≤ 0

/-- How a process comes onto a CPU. -/
lemma dispatch_origin (hi : Inv s emb) (h : StepKind flag s d a s') (hs : (s.cpu c).proc ≠ some p)
    (hp : (s'.cpu c).proc = some p) : (s.proc p).state = .runnable ∧ (s'.proc p).state = .running ∧
      s'.kstk p = s.kstk p ∧ atSched (s'.kstk p) = false ∧
      (flag ≠ .rr → (s'.proc p).quanta = (s.proc p).quanta) := by
  obtain rfl : c = d := by
    by_contra hne
    exact hs (h.cpu_ne hne ▸ hp)
  have hk := h
  cases h with
  | act | leave | context => simp [State.setOps_self] at hp; exact absurd hp hs
  | thread _ l _ hts => exact absurd (hts.proc ▸ hp) hs
  | panic => exact absurd hp hs
  | sched q r ch ho => simp at hp
  | visit i r ch ho hpn | chooseNone r ch ho hpn =>
    simp [State.scanned, State.setOps_self, hpn] at hp
  | visitRun i r ch ho hpn hlt hv =>
    obtain ⟨hf, hrun⟩ := visit_switch hv
    obtain rfl : (s.cpu c).loc.slot = p := by simpa [State.dispatch] using hp
    obtain ⟨-, g, ht⟩ := hi.next_typed ho rfl hrun
    refine ⟨hrun, by simp [State.proc, State.dispatch], ?_, ?_, fun h => absurd hf h⟩
    · simp [State.dispatch, State.scanned, State.setOps_kstk, hpn]
    · simpa [State.dispatch, State.scanned, State.setOps_kstk, hpn] using ht.not_atSched
  | choose i r ch ho hpn hc =>
    obtain rfl : i = p := by simpa [State.dispatch] using hp
    have hrun := SchedLocals.chosen_runnable hc
    obtain ⟨-, g, ht⟩ := hi.next_typed ho rfl hrun
    refine ⟨hrun, by simp [State.proc, State.dispatch], ?_, ?_, fun _ => ?_⟩
    · simp [State.dispatch, State.scanned, State.setOps_kstk, hpn]
    · simpa [State.dispatch, State.scanned, State.setOps_kstk, hpn] using ht.not_atSched
    · exact State.dispatch_field _ _ _ _ Proc.quanta fun _ _ => rfl

/-- The state of a slice after `t` timer interrupts. -/
def InSlice (s : State) (c : CpuId) (p : Slot) (t : ℕ) : Prop :=
  (t : Int) ≤ QUANTA ∧ (atSched (s.kstk p) = false → ∃ b, BeatAt s c p b ∧ Tally c t (s.proc p).quanta b)

lemma InSlice.step {t : ℕ} (hi : Inv s emb) (hq : ∀ j, (s.proc j).quanta ≤ QUANTA) (h : step flag ncpu lb s = some s')
    (hw : NoWrap s lb) (hp : (s.cpu c).proc = some p) (hp' : (s'.cpu c).proc = some p) (hs : InSlice s c p t) :
    InSlice s' c p (t + if lb = ⟨c, .timer⟩ then 1 else 0) := by
  obtain ⟨hk, -⟩ := step_kind hi h
  by_cases hc : lb.cpu = c
  · have hlb : (if lb = ⟨c, .timer⟩ then 1 else 0) = if lb.action = .timer then 1 else 0 := by
      subst hc
      obtain ⟨d, a⟩ := lb
      simp
    rw [hlb]
    subst hc
    cases hat : atSched (s.kstk p) with
    | false =>
      obtain ⟨b, hb, ht⟩ := hs.2 hat
      obtain ⟨r, hr, hf⟩ | ⟨-, hat', b', hstep, hb'⟩ := hb.step hi h hp hat
      · refine ⟨?_, fun hno => by simp [hr, atSched] at hno⟩
        have hact : lb.action ≠ .timer := by
          intro hact
          have hm := step_moves hi h hp
          rw [hact, hr] at hm
          generalize hl : Op.sched :: r = l at hm
          generalize s'.mem = m' at hm
          cases hm with
          | timer => simp [trapTimer] at hl
        simpa [hact] using hs.1
      · have ht' := ht.step hstep (hq p) fun r ho => hw r p ho hp
        exact ⟨ht'.le, fun _ => ⟨b', hb', ht'⟩⟩
    | true =>
      have hops := ops_of_proc hp
      have hie := hi.ie_of_lock (hi.atSched_lock (c := lb.cpu) (hops ▸ hat))
      cases ho : s.ops lb.cpu with
      | nil => simp [← hops, ho, atSched] at hat
      | cons op r =>
        rw [← hops, ho] at hat
        cases op <;> simp only [atSched, Bool.false_eq_true] at hat
        obtain ⟨ch, hx⟩ := step_self h hie ho
        simp only [execOp, Option.some.injEq, (hi.schedStep ho hp).1] at hx
        simp [← hx] at hp'
  · have hne : c ≠ lb.cpu := Ne.symm hc
    have hcpu := hk.cpu_ne hne
    have hlb : lb ≠ ⟨c, .timer⟩ := by
      rintro rfl
      exact hc rfl
    rw [if_neg hlb, Nat.add_zero]
    have hpn : (s.cpu lb.cpu).proc ≠ some p := fun h => hne (hi.inj c _ p hp h)
    have hkstk : s'.kstk p = s.kstk p := by
      have := hk.ops_ne hi hne
      rwa [ops_of_proc hp', ops_of_proc hp] at this
    refine ⟨hs.1, fun hat => ?_⟩
    rw [hkstk] at hat
    obtain ⟨b, hb, ht⟩ := hs.2 hat
    have hrun := hi.state_of_cur hp (by rwa [ops_of_proc hp])
    have hquanta : (s'.proc p).quanta = (s.proc p).quanta := by
      rcases step_quanta hk p with h | ⟨h, -⟩ | ⟨r, -, h, -⟩
      · exact h
      · simp [hrun] at h
      · exact absurd h hpn
    refine ⟨b, ⟨by rw [hkstk]; exact hb.beats, fun hf => ?_⟩, by rw [hquanta]; exact ht⟩
    exact off_of_eq (hb.off hf) (by rw [hcpu]) (by rw [hcpu]) (by rw [hcpu])

theorem quantum_bounds_slice (r : KRun flag ncpu n) (hw : r.Meets NoWrap) {c : CpuId} {p : Slot} {a b : ℕ}
    (hs : Slice r c p a b) (hd : Bounded flag (r.state a) c p) : (Slice.timers r c a b : Int) ≤ QUANTA := by
  have hinv : ∀ k, k ≤ n → ((∃ emb, Inv (r.state k) emb) ∧ Beating (r.state k)) ∧
      ∀ j, ((r.state k).proc j).quanta ≤ QUANTA := by
    refine r.invariant_of hw (P := fun s => ((∃ emb, Inv s emb) ∧ Beating s) ∧ ∀ j, (s.proc j).quanta ≤ QUANTA) ?_ ?_
    · intro s hb
      refine ⟨⟨⟨_, hb.inv⟩, hb.beating⟩, fun j => ?_⟩
      rw [State.proc, hb.mem]
      unfold userinit QUANTA
      dsimp only
      split_ifs <;> decide
    · rintro s lb s' ⟨⟨⟨emb, hi⟩, hb⟩, hq⟩ hok hstep
      exact ⟨⟨⟨_, hi.step_inv hstep⟩, hb.step hi hstep⟩, quanta_le_step hi hq hstep hok⟩
  have hlt := hs.lt
  have hle := hs.le
  -- the dispatch
  have h0 : InSlice (r.state (a + 1)) c p 0 := by
    obtain ⟨⟨⟨emb, hi⟩, hb⟩, -⟩ := hinv a (by omega)
    have hq := (hinv (a + 1) (by omega)).2 p
    have hk := (step_kind hi (r.steps a (by omega))).1
    obtain ⟨hrun, -, hkstk, -, hkeep⟩ := dispatch_origin hi hk hs.start (hs.stay (a + 1) (by omega) (by omega))
    refine ⟨by decide, fun _ => ⟨.free, ⟨?_, fun h => absurd rfl h⟩, ?_⟩⟩
    · rw [hkstk]
      obtain h | ⟨d, -, hd, hat, -⟩ := hb p (by simp [hrun, ProcState.alive])
      · exact h
      · have := hi.state_of_cur hd (by rwa [ops_of_proc hd])
        simp [hrun] at this
    · by_cases hc : c = 0
      · rw [Tally, if_pos hc]
        exact ⟨by simpa using hq, by decide⟩
      · obtain ⟨hf, hz⟩ := hd.resolve_left hc
        rw [Tally, if_neg hc]
        exact ⟨(hkeep hf).trans_le hz, Nat.zero_le _⟩
  have h0' : InSlice (r.state (a + 1)) c p (Slice.timers r c a (a + 1)) := by
    rwa [Slice.timers, Lts.Run.count_self]
  have hrun := r.preserved (P := fun k s => InSlice s c p (Slice.timers r c a k)) hle h0'
    (fun k hak hkb hk hstep => ?_) b (by omega) le_rfl
  · exact hrun.1
  · obtain ⟨⟨⟨emb, hi⟩, -⟩, hq⟩ := hinv k (by omega)
    have := hk.step hi hq hstep (hw k (by omega)) (hs.stay k (by omega) (by omega)) (hs.stay (k + 1) (by omega) (by omega))
    unfold Slice.timers at this ⊢
    rwa [Lts.Run.count_succ (by omega)]

/-- The test of `NoWrap`. -/
def noWrap (s : State) (lb : Label) : Bool :=
  match s.ops lb.cpu, (s.cpu lb.cpu).proc with
  | store .quantaDecr :: _, some p => -2 ^ 31 < (s.proc p).quanta
  | _, _ => true

lemma noWrap_iff : noWrap s lb = true ↔ NoWrap s lb := by
  unfold noWrap NoWrap
  constructor
  · intro h r p ho hp
    simpa [ho, hp] using h
  · intro h
    split
    · exact decide_eq_true (h _ _ ‹_› ‹_›)
    · rfl

instance : Decidable (NoWrap s lb) := decidable_of_iff _ noWrap_iff

/-- `k` timer interrupts, with their handlers, on a CPU that runs user code. -/
def timers (c : CpuId) (handler k : ℕ) : List Label := (List.replicate k (timer c ++ go c handler)).flatten

/-- CPU 0 runs the first process for a tick. -/
theorem quantum_bounds_slice_tick : ∃ r : KRun .rr 1 28, r.label 12 = ⟨0, .timer⟩ ∧ r.Meets NoWrap ∧
    Slice r 0 initproc 7 28 ∧ (Slice.timers r 0 7 28 : Int) ≤ QUANTA := by
  obtain ⟨r, hr, hend⟩ := Lts.exists_run_of_check (step .rr 1) (go 0 12 ++ timers 0 15 1)
    (fun k s lb => NoWrap s lb ∧ (k = 12 → lb = ⟨0, .timer⟩) ∧ (k = 7 → (s.cpu 0).proc ≠ some initproc) ∧
      (7 < k → (s.cpu 0).proc = some initproc)) (fun s => (s.cpu 0).proc = some initproc)
    boot_bootState (by decide +kernel)
  have hq := fun k hk => of_decide_eq_true (hr k hk)
  have hw : r.Meets NoWrap := fun k hk => (hq k hk).1
  have hs : Slice r 0 initproc 7 28 := by
    refine ⟨by omega, le_rfl, (hq 7 (by decide)).2.2.1 rfl, fun k h1 h2 => ?_⟩
    rcases Nat.lt_or_eq_of_le h2 with h | rfl
    · exact (hq k h).2.2.2 h1
    · exact of_decide_eq_true hend
  exact ⟨r, (hq 12 (by decide)).2.1 rfl, hw, hs, quantum_bounds_slice r hw hs (Or.inl rfl)⟩

/-- CPU 1 never decrements the counter: the first process gets six timer interrupts there, and goes on. -/
theorem quantum_exceeded : ¬ ∀ (flag : SchedFlag) (ncpu n : ℕ) (r : KRun flag ncpu n) (c : CpuId) (p : Slot) (a b : ℕ),
    Slice r c p a b → (Slice.timers r c a b : Int) ≤ QUANTA := by
  intro h
  obtain ⟨r, hr, hend⟩ := Lts.exists_run_of_check (step .rr 2) (go 1 12 ++ timers 1 5 6)
    (fun k s lb => (k ∈ [12, 18, 24, 30, 36, 42] → lb = ⟨1, .timer⟩) ∧ (k = 7 → (s.cpu 1).proc ≠ some initproc) ∧
      (7 < k → (s.cpu 1).proc = some initproc)) (fun s => (s.cpu 1).proc = some initproc)
    boot_bootState (by decide +kernel)
  have hq := fun k hk => of_decide_eq_true (hr k hk)
  have hs : Slice r 1 initproc 7 48 := by
    refine ⟨by omega, le_rfl, (hq 7 (by decide)).2.1 rfl, fun k h1 h2 => ?_⟩
    rcases Nat.lt_or_eq_of_le h2 with h | rfl
    · exact (hq k h).2.2 h1
    · exact of_decide_eq_true hend
  have hsub : ({12, 18, 24, 30, 36, 42} : Finset ℕ) ⊆ (Finset.Ico 8 48).filter fun k => r.label k = ⟨1, .timer⟩ := by
    intro k hk
    simp only [Finset.mem_insert, Finset.mem_singleton] at hk
    have hlt : 8 ≤ k ∧ k < 48 := by omega
    exact Finset.mem_filter.mpr ⟨Finset.mem_Ico.mpr hlt, (hq k hlt.2).1 (by simp; omega)⟩
  have hcard := Finset.card_le_card hsub
  have hle := h _ _ _ r 1 initproc 7 48 hs
  have : 6 ≤ Slice.timers r 1 7 48 := hcard
  unfold QUANTA at hle
  omega

end Os132

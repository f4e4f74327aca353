import Os132.Kernel.Quantum

/-!
# The end of `fork`

`fork` makes the child `RUNNABLE` before it stores name, times, priority and queue stamp, and it holds no lock
then. A thread that has these stores ahead executes nothing but them and interrupt handlers, so that its child can
neither pass to another parent nor be reaped before.
-/

namespace Os132

open Op

variable {flag : SchedFlag} {ncpu n : ℕ} {s s' : State} {c d : CpuId} {lb : Label} {a : Action}
  {emb : Slot → Option (Slot × ℕ)} {op : Op} {r l e : List Op} {i p q : Slot} {f : LateStore} {ch : Choice} {m m' : Mem}

/-! ### Threads -/

/-- The operations of an interrupt handler in kernel code, and those of the end of `fork`. -/
def Op.brief : Op → Bool
  | acquire _ | spin _ | release _ | iret | Op.sched | ifKilledExit false | timerIrq | tick | ifYield | store _ |
    schedAs .runnable | yieldMedium | wakeup1 _ | kcodeNosleep _ | forkRunnable _ | late _ _ => true
  | _ => false

/-- Nothing of the end of `fork` is in the thread. -/
def Free (l : List Op) : Prop := ∀ op ∈ l, op.publishes = false

/-- What is in front of the end of `fork` is brief, and `fork` ends once. -/
def Orderly : List Op → Prop
  | [] => True
  | op :: r => (Free r ∨ op.brief = true ∧ ∀ i, op = forkRunnable i → ∀ j, forkRunnable j ∉ r) ∧ Orderly r

lemma Free.append (he : Free e) (hl : Free l) : Free (e ++ l) := by
  intro op ho
  rcases List.mem_append.1 ho with h | h
  · exact he op h
  · exact hl op h

lemma Free.of_all (h : l.all (fun op => !op.publishes) = true) : Free l := by
  intro op ho
  simpa using List.all_eq_true.1 h op ho

lemma Free.orderly (h : Free l) : Orderly l := by
  induction l with
  | nil => trivial
  | cons op r ih =>
    have hr : Free r := fun o ho => h o (List.mem_cons_of_mem _ ho)
    exact ⟨Or.inl hr, ih hr⟩

/-- An operation of an interrupt handler. -/
def Op.handles (op : Op) : Bool := op.brief && !op.publishes

lemma orderly_append (he : ∀ op ∈ e, op.handles = true) (hl : Orderly l) : Orderly (e ++ l) := by
  induction e with
  | nil => exact hl
  | cons op e ih =>
    have hop := he op (by simp)
    simp only [Op.handles, Bool.and_eq_true, Bool.not_eq_true'] at hop
    refine ⟨Or.inr ⟨hop.1, ?_⟩, ih fun o ho => he o (List.mem_cons_of_mem _ ho)⟩
    rintro i rfl
    simp [Op.publishes] at hop

lemma free_of_handles (he : ∀ op ∈ e, op.handles = true) : Free e := by
  intro op ho
  have hop := he op ho
  simp only [Op.handles, Bool.and_eq_true, Bool.not_eq_true'] at hop
  exact hop.2

lemma orderly_forkPublish (flag : SchedFlag) (i : Slot) (pid : ℤ) (hr : Free r) : Orderly (forkPublish flag i pid ++ r) := by
  have hlast := hr.orderly
  have hnot : ∀ j, forkRunnable j ∉ r := fun j hj => by simpa [Op.publishes] using hr _ hj
  cases flag <;> simp [forkPublish, Orderly, Op.brief, hlast, hnot]

lemma handles_kcode {h : Option ℕ} {b : Bool} (he : kcodeOps kcodeNosleep b h ch = some e) (hb : b = false) :
    ∀ op ∈ e, op.handles = true := by
  subst hb
  cases h <;> cases ch <;> simp [kcodeOps] at he <;> subst he <;> simp [Op.handles, Op.brief, Op.publishes, wakeup]

/-- A brief operation puts handlers in front of the thread. -/
lemma act_handles {self : Option Slot} (hop : op.brief = true) (ha : act flag c self ch m op = some (m', e)) :
    ∀ o ∈ e, o.handles = true := by
  cases op <;> simp only [Op.brief, Bool.false_eq_true] at hop
  case ifKilledExit u =>
    cases u
    · cases self <;> obtain ⟨-, rfl⟩ := Prod.mk.inj (Option.some.inj ha) <;> simp
    · simp at hop
  case timerIrq =>
    simp only [act, Option.some.injEq, Prod.mk.injEq] at ha
    rw [← ha.2]
    split_ifs <;> simp [timerOps, wakeup, Op.handles, Op.brief, Op.publishes]
  case ifYield =>
    cases self <;> simp only [act, Option.some.injEq, Prod.mk.injEq] at ha <;> rw [← ha.2]
    · simp
    · split_ifs <;> cases flag <;> simp [yield, stampQvalue, Op.handles, Op.brief, Op.publishes]
  case yieldMedium =>
    simp only [act, Option.map_eq_some_iff, Prod.mk.injEq] at ha
    obtain ⟨i, -, -, rfl⟩ := ha
    split_ifs <;> simp [stampQvalue, Op.handles, Op.brief, Op.publishes]
  case kcodeNosleep h =>
    simp only [act, Option.map_eq_some_iff, Prod.mk.injEq] at ha
    obtain ⟨e', he, -, rfl⟩ := ha
    exact handles_kcode he rfl
  case schedAs st =>
    simp only [act, Option.map_eq_some_iff, Prod.mk.injEq] at ha
    obtain ⟨i, -, -, rfl⟩ := ha
    simp [Op.handles, Op.brief, Op.publishes]
  case store g => cases self <;> obtain ⟨-, rfl⟩ := Prod.mk.inj (Option.some.inj ha) <;> simp
  case tick | forkRunnable | wakeup1 =>
    obtain ⟨-, rfl⟩ := Prod.mk.inj (Option.some.inj ha)
    simp
  case late j g =>
    simp only [act, Option.map_eq_some_iff, Prod.mk.injEq] at ha
    obtain ⟨i, -, -, rfl⟩ := ha
    simp
  all_goals simp [act] at ha

/-- An operation of another kind puts nothing of the end of `fork` in front of the thread, except for `forkPid`. -/
lemma act_publishes {self : Option Slot} (ha : act flag c self ch m op = some (m', e)) (hst : ∀ st, op ≠ schedAs st)
    (hop : op.brief = false) : Free e ∨ ∃ i pid, op = forkPid i ∧ e = forkPublish flag i pid := by
  by_cases hpid : ∃ i, op = forkPid i
  · obtain ⟨i, rfl⟩ := hpid
    obtain ⟨-, rfl⟩ := Prod.mk.inj (Option.some.inj ha)
    exact Or.inr ⟨i, _, rfl, rfl⟩
  · left
    intro o ho
    have ht : op ≠ timerIrq := by
      rintro rfl
      simp [Op.brief] at hop
    by_contra hp
    exact hpid ((act_emits ha hst ht o ho).2.2.1 (by simpa using hp))

/-- What a step does to the thread that its CPU runs: it puts other operations in front, executes the first
operation, or comes to the end of `fork`. -/
inductive Front (flag : SchedFlag) (a : Action) (l : List Op) : List Op → Prop
  | push (e : List Op) (he : Free e) (hl : ∀ ch i r, a = .exec ch → l ≠ forkRunnable i :: r) : Front flag a l (e ++ l)
  | pop (ch : Choice) (op : Op) (e r : List Op) (ha : a = .exec ch) (hl : l = op :: r) (he : Free e) : Front flag a l (e ++ r)
  | publish (i : Slot) (pid : ℤ) (r : List Op) (hl : l = forkPid i :: r) : Front flag a l (forkPublish flag i pid ++ r)

/-- The thread of a process after a step of its CPU. -/
lemma moves_front (hm : Moves flag s c p a l m') (he : Orderly (s.ops c)) : Front flag a (s.ops c) l ∧ Orderly l := by
  have htail : ∀ {op r}, s.ops c = op :: r → Orderly r := fun ho => by
    rw [ho] at he
    exact he.2
  have huser : ∀ {r}, s.ops c = user :: r → Free (s.ops c) := fun ho => by
    rw [ho] at he ⊢
    rcases he.1 with hr | hr
    · intro o h
      rcases List.mem_cons.1 h with rfl | h
      · rfl
      · exact hr o h
    · simp [Op.brief] at hr
  have htrap : ∀ {e : Bool → List Op}, (∀ u, Free (e u)) → (∀ o ∈ e false, o.handles = true) →
      Orderly (e ((s.ops c).head? == some user) ++ s.ops c) := by
    intro e hfree hhandles
    cases hu : (s.ops c).head? == some user with
    | false => exact orderly_append hhandles he
    | true =>
      simp only [beq_iff_eq, List.head?_eq_some_iff] at hu
      obtain ⟨r, ho⟩ := hu
      exact ((hfree true).append (huser ho)).orderly
  cases hm with
  | timer =>
    have hfree : ∀ u, Free (trapTimer u) := fun u => Free.of_all (by cases u <;> rfl)
    exact ⟨.push _ (hfree _) (by simp), htrap hfree (by simp [trapTimer, Op.handles, Op.brief, Op.publishes])⟩
  | device =>
    have hfree : ∀ u, Free (trapDevice u) := fun u => Free.of_all (by cases u <;> rfl)
    exact ⟨.push _ (hfree _) (by simp), htrap hfree (by simp [trapDevice, Op.handles, Op.brief, Op.publishes])⟩
  | acquire lk r ch ho =>
    have hh : ∀ o ∈ [spin lk], o.handles = true := by simp [Op.handles, Op.brief, Op.publishes]
    exact ⟨.pop ch _ [spin lk] r rfl ho (free_of_handles hh), orderly_append hh (htail ho)⟩
  | spin _ r ch ho => exact ⟨.pop ch _ [] _ rfl ho (.of_all rfl), htail ho⟩
  | plain _ r ch ho => exact ⟨.pop ch _ [] _ rfl ho (.of_all rfl), htail ho⟩
  | sched r ch ho => exact ⟨.pop ch _ [] _ rfl ho (.of_all rfl), htail ho⟩
  | syscall sc r ho =>
    have hfree : Free (trapSyscall sc) := .of_all rfl
    rw [← ho]
    exact ⟨.push _ hfree (by simp [ho]), (hfree.append (huser ho)).orderly⟩
  | fault r ho =>
    have hfree : Free trapFault := .of_all rfl
    rw [← ho]
    exact ⟨.push _ hfree (by simp [ho]), (hfree.append (huser ho)).orderly⟩
  | leave st r ch ho =>
    have hh : ∀ o ∈ [Op.sched], o.handles = true := by simp [Op.handles, Op.brief, Op.publishes]
    exact ⟨.pop ch _ [Op.sched] r rfl ho (free_of_handles hh), orderly_append hh (htail ho)⟩
  | act op r ch m' e ho hst ha =>
    cases hop : op.brief with
    | true =>
      have hh := act_handles hop ha
      exact ⟨.pop ch op e r rfl ho (free_of_handles hh), orderly_append hh (htail ho)⟩
    | false =>
      have hr : Free r := by
        rw [ho] at he
        exact he.1.resolve_right (by simp [hop])
      rcases act_publishes ha hst hop with hfree | ⟨i, pid, rfl, rfl⟩
      · exact ⟨.pop ch op e r rfl ho hfree, (hfree.append hr).orderly⟩
      · exact ⟨.publish i pid r ho, orderly_forkPublish flag i pid hr⟩
  | panic r ch msg ho => exact ⟨.push [] (.of_all rfl) (by simp [ho]), he⟩

/-- Another process loses its thread only where `allocproc` builds a new one. -/
lemma StepKind.kstk_other (h : StepKind flag s c a s') (hp : (s.cpu c).proc ≠ some p) :
    s'.kstk p = s.kstk p ∨ s'.kstk p = forkret := by
  cases h with
  | thread _ l _ hts => exact Or.inl (by rw [hts.kstk, if_neg hp])
  | panic => exact Or.inl rfl
  | act | leave | sched => exact Or.inl (by simp [State.setOps_kstk, hp])
  | visit _ _ _ _ hpn | visitRun _ _ _ _ hpn | chooseNone _ _ _ hpn | choose _ _ _ _ hpn =>
    exact Or.inl (by simp [State.scanned, State.dispatch, State.setOps_kstk, hpn])
  | context i =>
    by_cases hpi : p = i
    · exact Or.inr (by simp [hpi])
    · exact Or.inl (by simp [hpi, State.setOps_kstk, hp])

/-- What a step does to the thread of process `p`. -/
def ThreadMove (flag : SchedFlag) (s s' : State) (lb : Label) (p : Slot) : Prop :=
  (s.cpu lb.cpu).proc = some p ∧ Front flag lb.action (s.kstk p) (s'.kstk p) ∨
    (s.cpu lb.cpu).proc ≠ some p ∧ (s'.kstk p = s.kstk p ∨ s'.kstk p = forkret)

/-! ### The child -/

/-- The stores that `fork` makes to a child that is `RUNNABLE`. -/
def SchedFlag.stores : SchedFlag → LateStore → Bool
  | _, .name | _, .ctime | _, .rtime | .frr, .qvalueCtime | .grt, .qvalueZero | .q3, .priorityHigh | .q3, .qvalueZero => true
  | _, _ => false

/-- The fields by which a pass of `scheduler` prefers a `RUNNABLE` process to another. -/
def SchedFlag.reads : SchedFlag → LateStore → Bool
  | .rr, _ | _, .name => false
  | .frr, f => f = .qvalueCtime ∨ f = .qvalueZero
  | .grt, f => f ≠ .priorityHigh
  | .q3, _ => true

/-- Behind each of the late stores, or there, is one to a field that `scheduler` looks at. -/
def Closes (flag : SchedFlag) : List Op → Prop
  | [] => True
  | op :: r => (∀ i f, op = late i f → flag.reads f = true ∨ ∃ g, flag.reads g = true ∧ late i g ∈ r) ∧ Closes flag r

/-- The end of `fork` in the threads, and the children that it has made `RUNNABLE`. -/
structure Forking (flag : SchedFlag) (s : State) (emb : Slot → Option (Slot × ℕ)) : Prop where
  order : ∀ p, Orderly (s.kstk p)
  stores : ∀ p i f, late i f ∈ s.kstk p → flag.stores f = true
  closes : flag ≠ .rr → ∀ p, Closes flag (s.kstk p)
  before : ∀ p i, forkRunnable i ∈ s.kstk p → emb p = some (i, 5)
  after : ∀ p i f, late i f ∈ s.kstk p → forkRunnable i ∉ s.kstk p →
    (s.proc i).state.used = true ∧ (s.proc i).parent = some p

lemma Closes.append (he : Free e) (hl : Closes flag l) : Closes flag (e ++ l) := by
  induction e with
  | nil => exact hl
  | cons op e ih =>
    refine ⟨?_, ih fun o ho => he o (List.mem_cons_of_mem _ ho)⟩
    rintro i f rfl
    simpa [Op.publishes] using he _ List.mem_cons_self

lemma Free.closes (h : Free l) : Closes flag l := by
  have hnil : Closes flag [] := trivial
  simpa using hnil.append h

lemma closes_ahead (hf : flag.reads f = true) (he : ∀ j g, late j g ∈ e → j = i) (hr : Closes flag r) :
    Closes flag (e ++ late i f :: r) := by
  induction e with
  | nil => exact ⟨fun j g h => Or.inl (by cases h; exact hf), hr⟩
  | cons op e ih =>
    refine ⟨?_, ih fun j g h => he j g (List.mem_cons_of_mem _ h)⟩
    rintro j g rfl
    obtain rfl := he j g List.mem_cons_self
    exact Or.inr ⟨f, hf, by simp⟩

lemma closes_forkPublish (hrr : flag ≠ .rr) (i : Slot) (pid : ℤ) (hr : Closes flag r) :
    Closes flag (forkPublish flag i pid ++ r) := by
  have hend : Closes flag (store (.eax pid) :: r) := ⟨by simp, hr⟩
  have hstart : ∀ e, (∀ j g, late j g ∈ e → j = i) → ∀ j g, late j g ∈ [forkRunnable i, late i .name,
      acquire .tickslock, late i .ctime, release .tickslock, late i .rtime] ++ e → j = i := by
    intro e he j g hm
    rcases List.mem_append.1 hm with h | h
    · simp at h
      tauto
    · exact he j g h
  cases flag
  case rr => exact absurd rfl hrr
  case frr => exact closes_ahead (f := .qvalueCtime) rfl (hstart [] (by simp)) hend
  case grt => exact closes_ahead (f := .qvalueZero) rfl (hstart [] (by simp)) hend
  case q3 => exact closes_ahead (f := .qvalueZero) rfl (hstart [late i .priorityHigh] (by simp)) hend

lemma Closes.mem (h : Closes flag l) (hm : late i f ∈ l) : ∃ g, flag.reads g = true ∧ late i g ∈ l := by
  induction l with
  | nil => cases hm
  | cons op r ih =>
    rcases List.mem_cons.1 hm with rfl | hm
    · rcases h.1 i f rfl with hf | ⟨g, hg, hmem⟩
      · exact ⟨f, hf, hm⟩
      · exact ⟨g, hg, List.mem_cons_of_mem _ hmem⟩
    · obtain ⟨g, hg, hmem⟩ := ih h.2 hm
      exact ⟨g, hg, List.mem_cons_of_mem _ hmem⟩

lemma Inv.embryo (hi : Inv s emb) (ho : s.ops c = op :: r) (h1 : ∀ lk, op ≠ spin lk) (h2 : op ≠ Op.sched)
    (hg : ∀ g, op.pre g → ∃ k, g.emb = some (i, k)) : (s.proc i).state = .embryo := by
  obtain ⟨g, hok, hemb, -⟩ := hi.cpu c
  obtain ⟨k, hk⟩ := hg g (hok.typed ho h1 h2).1
  obtain ⟨q, -, he⟩ := Option.bind_eq_some_iff.mp (hemb ▸ hk)
  exact (hi.fork q i k he).state

/-- A process keeps its parent while that is in no call of `wait` or `exit`, and is not reaped. -/
lemma StepKind.child (hi : Inv s emb) (h : StepKind flag s c a s') (hu : (s.proc i).state.used = true)
    (hp : (s.proc i).parent = some p) (hb : (s.cpu c).proc = some p → ∀ op r, s.ops c = op :: r → op.brief = true) :
    (s'.proc i).state.used = true ∧ (s'.proc i).parent = some p := by
  have hwait : ∀ two r q, s.ops c = .wait two :: r → (s.cpu c).proc = some q → (s.proc i).parent ≠ some q := by
    rintro two r q ho hq hpar
    obtain rfl := Option.some.inj (hp.symm.trans hpar)
    simpa [Op.brief] using hb hq _ r ho
  have hembryo : (s.proc i).state ≠ .embryo := fun h => by simp [h, ProcState.used] at hu
  constructor
  · have hrec := step_rec h i
    generalize s'.proc i = p' at hrec
    cases hrec with
    | same => exact hu
    | visit _ _ _ _ _ _ hr => simp [hr, ProcState.used]
    | visitRun | choose => rfl
    | leave st r ho hc =>
      obtain ⟨g, hok, -⟩ := hi.cpu c
      have hmem : st ∈ [ProcState.runnable, .sleeping, .zombie] := (hok.typed ho (by simp) (by simp)).1.2.1
      simp only [List.mem_cons, List.not_mem_nil, or_false] at hmem
      rcases hmem with rfl | rfl | rfl <;> rfl
    | act op r ch p' ho ha hst hc =>
      cases hc with
      | leave st hop => exact absurd hop (hst st)
      | store | np | late => simpa using hu
      | same | kstack | pgdir | freeKstack | parent | adopt | report => exact hu
      | publish | wake | adoptWake => rfl
      | alloc _ hfind => simp [Table.find_unused hfind, ProcState.used] at hu
      | free hop =>
        subst hop
        exact absurd (hi.embryo ho (by simp) (by simp) fun _ hg => ⟨_, hg.2⟩) hembryo
      | kill =>
        unfold Proc.kill
        split_ifs
        · rfl
        · exact hu
      | reap two q hop hq hz =>
        subst hop
        exact absurd (Table.find_zombie hz).1 (hwait two r q ho hq)
      | reapReport hop hq hz =>
        subst hop
        exact absurd (Table.find_zombie hz).1 (hwait true r i ho hq)
  · cases step_parent h i with
    | same heq => exact heq.trans hp
    | fork r q ho => exact absurd (hi.embryo_of_forkParent ho) hembryo
    | adopt r q ho hq hpar =>
      obtain rfl := Option.some.inj (hp.symm.trans hpar)
      simpa [Op.brief] using hb hq _ r ho
    | reap two r q ho hq hz => exact absurd (Table.find_zombie hz).1 (hwait two r q ho hq)

lemma mem_forkPublish {pid : ℤ} : forkRunnable q ∈ forkPublish flag i pid ↔ q = i := by
  cases flag <;> simp [forkPublish]

lemma late_mem_forkPublish {pid : ℤ} (h : late q f ∈ forkPublish flag i pid) : q = i ∧ flag.stores f = true := by
  cases flag <;> simp [forkPublish] at h <;> rcases h with h | h | h | h | h <;> simp_all [SchedFlag.stores]

lemma Orderly.brief (h : Orderly (op :: r)) (hm : ∃ o ∈ r, o.publishes = true) :
    op.brief = true ∧ ∀ i, op = forkRunnable i → ∀ j, forkRunnable j ∉ r := by
  refine h.1.resolve_left fun hr => ?_
  obtain ⟨o, ho, hp⟩ := hm
  simp [hr o ho] at hp

lemma Free.not_late (h : Free l) : late i f ∉ l := fun hm => by simpa [Op.publishes] using h _ hm

lemma Free.not_forkRunnable (h : Free l) : forkRunnable i ∉ l := fun hm => by simpa [Op.publishes] using h _ hm

lemma Orderly.head_brief (h : Orderly (op :: r)) (hm : ∃ o ∈ op :: r, o.publishes = true) : op.brief = true := by
  obtain ⟨o, ho, hp⟩ := hm
  rcases List.mem_cons.1 ho with rfl | ho
  · cases o <;> simp [Op.publishes] at hp <;> rfl
  · exact (h.brief ⟨o, ho, hp⟩).1

lemma embAfter_brief {x : Option (Slot × ℕ)} (h : op.brief = true) (hne : ∀ i, op ≠ forkRunnable i) :
    op.embAfter m ch x = x := by
  cases op <;> first | rfl | exact absurd rfl (hne _) | simp [Op.brief] at h

/-- A `fork` that has yet to make its child `RUNNABLE` stays open. -/
lemma Forking.before_step (hi : Inv s emb) (hf : Forking flag s emb) (hfront : Front flag lb.action (s.kstk p) (s'.kstk p))
    (hp : (s.cpu lb.cpu).proc = some p) (hm : forkRunnable i ∈ s'.kstk p) : embStep s lb emb p = some (i, 5) := by
  have horder := hf.order p
  have hops := ops_of_proc hp
  generalize s'.kstk p = l at hfront hm
  have hpid : ∀ {j r}, s.kstk p = forkPid j :: r → emb p = some (j, 5) ∧ Free r := by
    intro j r ho
    obtain ⟨g, hok, hemb, -⟩ := hi.cpu lb.cpu
    have hpre := (hok.typed (hops.trans ho) (by simp) (by simp)).1.2
    rw [ho] at horder
    exact ⟨by simpa [hp, hpre, eq_comm] using hemb, horder.1.resolve_right (by simp [Op.brief])⟩
  have hold : forkRunnable i ∈ s.kstk p ∨ ∃ r, s.kstk p = forkPid i :: r := by
    cases hfront with
    | push e he => exact Or.inl ((List.mem_append.1 hm).resolve_left he.not_forkRunnable)
    | pop ch op e r ha hl he =>
      rw [hl]
      exact Or.inl (List.mem_cons_of_mem _ ((List.mem_append.1 hm).resolve_left he.not_forkRunnable))
    | publish j pid r hl =>
      rcases List.mem_append.1 hm with h | h
      · exact Or.inr ⟨r, by rw [hl, mem_forkPublish.1 h]⟩
      · exact absurd h (hpid hl).2.not_forkRunnable
  have hemb : emb p = some (i, 5) := by
    rcases hold with h | ⟨r, h⟩
    · exact hf.before p i h
    · exact (hpid h).1
  rcases embStep_cases s lb emb p with h | ⟨ch, op, r, ha, ho, -, h⟩
  · exact h.trans hemb
  rw [h, ← hemb]
  rw [hops] at ho
  rcases hold with hmem | ⟨r', h'⟩
  · rw [ho] at hmem horder
    refine embAfter_brief (horder.head_brief ⟨_, hmem, rfl⟩) ?_
    rintro j rfl
    have hnot : ∀ k, forkRunnable k ∉ r := by
      rcases horder.1 with hr | hr
      · exact fun k => hr.not_forkRunnable
      · exact hr.2 j rfl
    rw [ho] at hfront
    cases hfront with
    | push e he hl => exact hl ch j r ha rfl
    | pop ch op e r ha hl he =>
      obtain ⟨rfl, rfl⟩ := List.cons.inj hl
      exact (List.mem_append.1 hm).elim he.not_forkRunnable (hnot i)
    | publish j pid r hl => simp at hl
  · obtain ⟨rfl, -⟩ := List.cons.inj (ho.symm.trans h')
    rfl

/-- Where a thread comes from that has yet to store to a `RUNNABLE` child. -/
lemma Forking.origin (hf : Forking flag s emb)
    (hfront : ThreadMove flag s s' lb p)
    (hm : late i f ∈ s'.kstk p) (hn : forkRunnable i ∉ s'.kstk p) : late i f ∈ s.kstk p ∧ forkRunnable i ∉ s.kstk p ∨
      (s.cpu lb.cpu).proc = some p ∧ ∃ ch r, lb.action = .exec ch ∧ s.kstk p = forkRunnable i :: r := by
  rcases hfront with ⟨hp, hfront⟩ | ⟨-, heq | heq⟩
  · generalize s'.kstk p = l at hfront hm hn
    cases hfront with
    | push e he =>
      exact Or.inl ⟨(List.mem_append.1 hm).resolve_left he.not_late, fun h => hn (List.mem_append_right _ h)⟩
    | pop ch op e r ha hl he =>
      have hmr := (List.mem_append.1 hm).resolve_left he.not_late
      have hnr : forkRunnable i ∉ r := fun h => hn (List.mem_append_right _ h)
      by_cases hop : op = forkRunnable i
      · exact Or.inr ⟨hp, ch, r, ha, hop ▸ hl⟩
      · left
        rw [hl]
        exact ⟨List.mem_cons_of_mem _ hmr, fun h => (List.mem_cons.1 h).elim (fun h => hop h.symm) hnr⟩
    | publish j pid r hl =>
      have horder := hf.order p
      rw [hl] at horder
      have hr := horder.1.resolve_right (by simp [Op.brief])
      obtain ⟨rfl, -⟩ := late_mem_forkPublish ((List.mem_append.1 hm).resolve_right hr.not_late)
      exact absurd (List.mem_append_left _ (mem_forkPublish.2 rfl)) hn
  · exact Or.inl (heq ▸ ⟨hm, hn⟩)
  · rw [heq] at hm
    exact absurd hm (Free.of_all rfl).not_late

/-- A child that is `RUNNABLE` before its `fork` has ended stays a child of that process. -/
lemma Forking.after_step (hi : Inv s emb) (hf : Forking flag s emb) (h : step flag ncpu lb s = some s')
    (hfront : ThreadMove flag s s' lb p)
    (hm : late i f ∈ s'.kstk p) (hn : forkRunnable i ∉ s'.kstk p) :
    (s'.proc i).state.used = true ∧ (s'.proc i).parent = some p := by
  rcases hf.origin hfront hm hn with ⟨hm, hn⟩ | ⟨hp, ch, r, ha, hl⟩
  · obtain ⟨hu, hpar⟩ := hf.after p i f hm hn
    refine (step_kind hi h).1.child hi hu hpar fun hp op r ho => ?_
    rw [ops_of_proc hp] at ho
    have horder := hf.order p
    rw [ho] at horder hm
    exact horder.head_brief ⟨_, hm, rfl⟩
  · have hok := hi.fork p i 5 (hf.before p i (by rw [hl]; exact List.mem_cons_self))
    have hx := label_exec h (c := lb.cpu) (by rw [← ha]) ((ops_of_proc hp).trans hl)
    simp only [execOp, act, Option.map_some, Option.some.injEq] at hx
    rw [← hx]
    exact ⟨by simp [State.proc, ProcState.used], by simpa [State.proc] using hok.parent le_rfl⟩

lemma Forking.stores_step (hf : Forking flag s emb)
    (hfront : ThreadMove flag s s' lb p)
    (hm : late i f ∈ s'.kstk p) : flag.stores f = true := by
  rcases hfront with ⟨-, hfront⟩ | ⟨-, heq | heq⟩
  · generalize s'.kstk p = l at hfront hm
    cases hfront with
    | push e he => exact hf.stores p i f ((List.mem_append.1 hm).resolve_left he.not_late)
    | pop ch op e r ha hl he =>
      refine hf.stores p i f ?_
      rw [hl]
      exact List.mem_cons_of_mem _ ((List.mem_append.1 hm).resolve_left he.not_late)
    | publish j pid r hl =>
      rcases List.mem_append.1 hm with h | h
      · exact (late_mem_forkPublish h).2
      · exact hf.stores p i f (by rw [hl]; exact List.mem_cons_of_mem _ h)
  · exact hf.stores p i f (heq ▸ hm)
  · rw [heq] at hm
    exact absurd hm (Free.of_all rfl).not_late

/-- A property of threads that survives the end of `fork` and what the other operations put in front. -/
lemma ThreadMove.keeps {P : List Op → Prop} (h : ThreadMove flag s s' lb p) (hold : P (s.kstk p)) (hnew : P forkret)
    (hpush : ∀ e l, Free e → P l → P (e ++ l)) (hpop : ∀ op r, P (op :: r) → P r)
    (hpublish : ∀ i pid r, s.kstk p = forkPid i :: r → P r → P (forkPublish flag i pid ++ r)) : P (s'.kstk p) := by
  rcases h with ⟨-, hfront⟩ | ⟨-, heq | heq⟩
  · generalize s'.kstk p = l at hfront
    cases hfront with
    | push e he => exact hpush e _ he hold
    | pop ch op e r ha hl he =>
      rw [hl] at hold
      exact hpush e r he (hpop op r hold)
    | publish j pid r hl =>
      rw [hl] at hold
      exact hpublish j pid r hl (hpop _ r hold)
  · exact heq ▸ hold
  · exact heq ▸ hnew

lemma Forking.closes_step (hf : Forking flag s emb) (hrr : flag ≠ .rr)
    (hfront : ThreadMove flag s s' lb p) : Closes flag (s'.kstk p) :=
  hfront.keeps (hf.closes hrr p) (Free.of_all rfl).closes (fun _ _ he hl => hl.append he) (fun _ _ h => h.2)
    fun i pid _ _ hr => closes_forkPublish hrr i pid hr

lemma Forking.threadMove (hi : Inv s emb) (hf : Forking flag s emb) (h : step flag ncpu lb s = some s') (p : Slot) :
    ThreadMove flag s s' lb p := by
  by_cases hp : (s.cpu lb.cpu).proc = some p
  · left
    rw [← ops_of_proc hp]
    exact ⟨hp, (moves_front (step_moves hi h hp) (by rw [ops_of_proc hp]; exact hf.order p)).1⟩
  · exact Or.inr ⟨hp, (step_kind hi h).1.kstk_other hp⟩

theorem Forking.step (hi : Inv s emb) (hf : Forking flag s emb) (h : step flag ncpu lb s = some s') :
    Forking flag s' (embStep s lb emb) := by
  have hfront := hf.threadMove hi h
  constructor
  · intro p
    by_cases hp : (s.cpu lb.cpu).proc = some p
    · exact (moves_front (step_moves hi h hp) (by rw [ops_of_proc hp]; exact hf.order p)).2
    · rcases (step_kind hi h).1.kstk_other hp with heq | heq
      · exact heq ▸ hf.order p
      · rw [heq]
        exact (Free.of_all rfl).orderly
  · exact fun p i f => hf.stores_step (hfront p)
  · exact fun hrr p => hf.closes_step hrr (hfront p)
  · intro p i hm
    rcases hfront p with ⟨hp, hfr⟩ | ⟨hp, heq | heq⟩
    · exact hf.before_step hi hfr hp hm
    · rcases embStep_cases s lb emb p with h | ⟨-, -, -, -, -, h, -⟩
      · rw [h]
        exact hf.before p i (heq ▸ hm)
      · exact absurd h hp
    · rw [heq] at hm
      exact absurd hm (Free.of_all rfl).not_forkRunnable
  · exact fun p i f => hf.after_step hi h (hfront p)

lemma Boot.free (h : Boot s) (p : Slot) : Free (s.kstk p) := by
  rw [h.kstk]
  split_ifs <;> exact Free.of_all rfl

lemma Boot.forking (h : Boot s) : Forking flag s emb := by
  constructor
  · exact fun p => (h.free p).orderly
  · exact fun p _ _ hm => absurd hm (h.free p).not_late
  · exact fun _ p => (h.free p).closes
  · exact fun p i hm => absurd hm (h.free p).not_forkRunnable
  · exact fun p i f hm => absurd hm (h.free p).not_late

end Os132

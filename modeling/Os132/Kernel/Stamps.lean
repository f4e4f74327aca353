import Os132.Kernel.Family
import Os132.Kernel.Publish

/-!
# The stamps of `_FRR`

The handler of the timer keeps interrupts off from the store of `qvalue` in `yield` to the switch, so that on one
CPU the stamp is the tick at which the process becomes `RUNNABLE`. `fork` stores the tick to `ctime` of the child and
then `ctime` to its `qvalue`; `Stamps` keeps the order of the two in the threads.
-/

namespace Os132

open Op

variable {flag : SchedFlag} {ncpu : ℕ} {s s' : State} {c : CpuId} {lb : Label} {a : Action}
  {emb : Slot → Option (Slot × ℕ)} {ph : Slot → Phase} {op : Op} {r l e : List Op} {p q i j : Slot} {f : LateStore}
  {m m' : Mem} {b : Bool} {ch : Choice}

/-! ### The stamp of `yield` -/

/-- The thread is not on its way out of `yield`. -/
def NoYield (l : List Op) : Prop := schedAs .runnable ∉ l

/-- The thread is in `yield`, before the store of the stamp or behind it. -/
inductive Leaving : Bool → List Op → Prop
  | enter (r : List Op) (hr : NoYield r) : Leaving false (yield .frr ++ r)
  | wait (r : List Op) (hr : NoYield r) : Leaving false
      (spin .tickslock :: store .qvalueTicks :: release .tickslock :: acquire .ptable :: schedAs .runnable :: r)
  | stamp (r : List Op) (hr : NoYield r) : Leaving false
      (store .qvalueTicks :: release .tickslock :: acquire .ptable :: schedAs .runnable :: r)
  | stamped (r : List Op) (hr : NoYield r) : Leaving true (release .tickslock :: acquire .ptable :: schedAs .runnable :: r)
  | lock (r : List Op) (hr : NoYield r) : Leaving true (acquire .ptable :: schedAs .runnable :: r)
  | spin (r : List Op) (hr : NoYield r) : Leaving true (spin .ptable :: schedAs .runnable :: r)
  | leave (r : List Op) (hr : NoYield r) : Leaving true (schedAs .runnable :: r)

lemma NoYield.append (he : NoYield e) (hl : NoYield l) : NoYield (e ++ l) :=
  fun h => (List.mem_append.1 h).elim he hl

lemma NoYield.of_cons (h : NoYield (op :: r)) : NoYield r := fun hm => h (List.mem_cons_of_mem _ hm)

/-- Only `ifYield` starts a `yield`. -/
lemma NoYield.moves (h : NoYield (s.ops c)) (hm : Moves flag s c p a l m') :
    NoYield l ∨ ∃ r, s.ops c = ifYield :: r ∧ NoYield r ∧ l = yield flag ++ r ∧ m' = s.mem := by
  have htail : ∀ {op r}, s.ops c = op :: r → NoYield r := fun ho => by
    rw [ho] at h
    exact h.of_cons
  cases hm with
  | timer => exact Or.inl (NoYield.append (by simp [NoYield, trapTimer]) h)
  | device => exact Or.inl (NoYield.append (by simp [NoYield, trapDevice]) h)
  | acquire lk r ch ho => exact Or.inl (NoYield.append (e := [Op.spin lk]) (by simp [NoYield]) (htail ho))
  | spin _ r ch ho => exact Or.inl (htail ho)
  | plain _ r ch ho => exact Or.inl (htail ho)
  | sched r ch ho => exact Or.inl (htail ho)
  | syscall sc r ho => exact Or.inl (ho ▸ NoYield.append (by simp [NoYield, trapSyscall]) h)
  | fault r ho => exact Or.inl (ho ▸ NoYield.append (by simp [NoYield, trapFault]) h)
  | leave st r ch ho => exact Or.inl (NoYield.append (e := [Op.sched]) (by simp [NoYield]) (htail ho))
  | panic => exact Or.inl h
  | act op r ch m' e ho hst ha =>
    by_cases hy : op = ifYield
    · subst hy
      obtain ⟨rfl, rfl⟩ := Prod.mk.inj (Option.some.inj ha)
      split_ifs
      · exact Or.inr ⟨r, ho, htail ho, rfl, rfl⟩
      · exact Or.inl (htail ho)
    · left
      refine NoYield.append (fun hmem => ?_) (htail ho)
      by_cases ht : op = timerIrq
      · subst ht
        obtain ⟨rfl, rfl⟩ := Prod.mk.inj (Option.some.inj ha)
        split_ifs at hmem <;> simp [timerOps, wakeup] at hmem
      · exact hy ((act_emits ha hst ht _ hmem).2.2.2 rfl)

/-- With interrupts off a thread goes on to its next operation. -/
lemma Moves.next (hm : Moves flag s c p a l m') (hie : (s.cpu c).ie = false) (ho : s.ops c = op :: r) :
    match op with
    | Op.acquire lk => l = Op.spin lk :: r ∧ m' = s.mem
    | Op.spin _ | Op.release _ => l = r ∧ m' = s.mem
    | Op.schedAs _ => l = Op.sched :: r
    | Op.store f => l = r ∧ m' = { s.mem with proc := s.mem.proc.set p fun x => f.apply s.mem.ticks x }
    | _ => True := by
  cases hm with
  | timer h | device h => simp [hie] at h
  | acquire lk r' ch ho' | spin lk r' ch ho' =>
    obtain ⟨rfl, rfl⟩ := List.cons.inj (ho.symm.trans ho')
    exact ⟨rfl, rfl⟩
  | leave st r' ch ho' =>
    obtain ⟨rfl, rfl⟩ := List.cons.inj (ho.symm.trans ho')
    rfl
  | sched r' ch ho' | syscall sc r' ho' | fault r' ho' | panic r' ch msg ho' =>
    obtain ⟨rfl, rfl⟩ := List.cons.inj (ho.symm.trans ho')
    trivial
  | plain op' r' ch ho' hop =>
    obtain ⟨rfl, rfl⟩ := List.cons.inj (ho.symm.trans ho')
    cases op <;> trivial
  | act op' r' ch m' e ho' hst ha =>
    obtain ⟨rfl, rfl⟩ := List.cons.inj (ho.symm.trans ho')
    cases op <;> try trivial
    case store f =>
      obtain ⟨rfl, rfl⟩ := Prod.mk.inj (Option.some.inj ha)
      exact ⟨rfl, rfl⟩
    case schedAs st => exact absurd rfl (hst st)

/-- On the way out of `yield` the stamp is stored and kept. -/
lemma Leaving.moves (h : Leaving b (s.ops c)) (hie : (s.cpu c).ie = false) (hm : Moves flag s c p a l m')
    (hq : b = true → (s.proc p).qvalue = s.mem.ticks) :
    NoYield l ∨ ∃ b', Leaving b' l ∧ (b' = true → (m'.proc p).qvalue = m'.ticks) := by
  generalize ho : s.ops c = l₀ at h
  cases h with
  | enter r hr =>
    obtain ⟨rfl, rfl⟩ := hm.next hie ho
    exact Or.inr ⟨_, .wait (release .ptable :: r) (NoYield.append (e := [release .ptable]) (by simp [NoYield]) hr), by simp⟩
  | wait r hr =>
    obtain ⟨rfl, rfl⟩ := hm.next hie ho
    exact Or.inr ⟨_, .stamp r hr, by simp⟩
  | stamp r hr =>
    obtain ⟨rfl, rfl⟩ := hm.next hie ho
    exact Or.inr ⟨_, .stamped r hr, fun _ => by simp [Store.apply]⟩
  | stamped r hr =>
    obtain ⟨rfl, rfl⟩ := hm.next hie ho
    exact Or.inr ⟨_, .lock r hr, hq⟩
  | lock r hr =>
    obtain ⟨rfl, rfl⟩ := hm.next hie ho
    exact Or.inr ⟨_, .spin r hr, hq⟩
  | spin r hr =>
    obtain ⟨rfl, rfl⟩ := hm.next hie ho
    exact Or.inr ⟨_, .leave r hr, hq⟩
  | leave r hr =>
    obtain rfl := hm.next hie ho
    exact Or.inl (NoYield.append (e := [Op.sched]) (by simp [NoYield]) hr)

lemma Leaving.keeps_off (h : Leaving b (op :: r)) : op ≠ iret ∧ op ≠ schedTop ∧ op.switches = false := by
  generalize hl : op :: r = l at h
  cases h <;> obtain ⟨rfl, -⟩ := List.cons.inj hl <;> simp [Op.switches]

lemma Leaving.not_atSched (h : Leaving b l) : atSched l = false := by
  cases h <;> rfl

/-- A thread in `yield` is that of the process on the CPU, with interrupts off; behind the store it has the stamp of
the present tick. -/
def Stamping (s : State) : Prop := ∀ p, NoYield (s.kstk p) ∨
  (s.cpu 0).proc = some p ∧ Off s 0 ∧ ∃ b, Leaving b (s.kstk p) ∧ (b = true → (s.proc p).qvalue = s.mem.ticks)

lemma Boot.stamping (h : Boot s) : Stamping s := by
  intro p
  left
  rw [h.kstk]
  split_ifs <;> simp [NoYield, forkret]

theorem Stamping.step (hi : Inv s emb) (h : Os132.step .frr 1 lb s = some s') (hs : Stamping s) : Stamping s' := by
  intro p
  obtain ⟨hk, -, hcpu⟩ := step_kind hi h
  have hc : lb.cpu = 0 := Nat.lt_one_iff.1 hcpu
  by_cases hp : (s.cpu lb.cpu).proc = some p
  swap
  · rcases hs p with hst | ⟨hcur, -⟩
    · left
      rcases hk.kstk_other hp with heq | heq
      · exact heq ▸ hst
      · simp [heq, NoYield, forkret]
    · exact absurd (hc ▸ hcur) hp
  have hm := step_moves hi h hp
  have hstay : atSched (s.ops lb.cpu) = false → (∀ op r, s.ops lb.cpu = op :: r → op.switches = false) →
      (s'.cpu 0).proc = some p := by
    intro h0 hsw
    rw [← hc, hk.proc_self h0 hsw, hp]
  rcases hs p with hst | ⟨-, hoff, b, hl, hq⟩
  · rw [← ops_of_proc hp] at hst
    rcases hst.moves hm with hst | ⟨r, ho, hr, hl, -⟩
    · exact Or.inl hst
    · obtain ⟨g, hok, -⟩ := hi.cpu lb.cpu
      have hpre := (hok.typed ho (by simp) (by simp)).1
      have hn := hok.ncli_eq ho (by simp)
      have h0 : (s.cpu lb.cpu).ncli = 0 := by simpa [hpre.1] using hn
      have hoff : Off s lb.cpu := ⟨(hok.on h0).trans hpre.2, fun hne => absurd h0 hne⟩
      have hoff' : Off s' lb.cpu := step_off h hoff fun op r' ho' => by
        obtain ⟨rfl, -⟩ := List.cons.inj (ho.symm.trans ho')
        simp [Op.switches]
      refine Or.inr ⟨hstay (by rw [ho]; rfl) fun op r' ho' => ?_, hc ▸ hoff', false, ?_, by simp⟩
      · obtain ⟨rfl, -⟩ := List.cons.inj (ho.symm.trans ho')
        rfl
      · rw [hl]
        exact .enter r hr
  · rw [← ops_of_proc hp] at hl
    have hop : ∀ op r, s.ops lb.cpu = op :: r → op ≠ iret ∧ op ≠ schedTop ∧ op.switches = false := fun op r ho => by
      rw [ho] at hl
      exact hl.keeps_off
    rw [← hc] at hoff
    rcases hl.moves hoff.1 hm hq with hst | ⟨b', hl', hq'⟩
    · exact Or.inl hst
    · exact Or.inr ⟨hstay hl.not_atSched fun op r ho => (hop op r ho).2.2, hc ▸ step_off h hoff hop, b', hl', hq'⟩

lemma Stamping.stamped (hs : Stamping s) (hp : (s.cpu 0).proc = some p) (ho : s.ops 0 = schedAs .runnable :: r) :
    (s.proc p).qvalue = s.mem.ticks := by
  rw [ops_of_proc hp] at ho
  rcases hs p with hst | ⟨-, -, b, hl, hq⟩
  · exact absurd (by rw [ho]; exact List.mem_cons_self) hst
  · rw [ho] at hl
    cases b with
    | false => cases hl
    | true => exact hq rfl

/-! ### The stamp of `fork` -/

/-- Behind the store that makes a child `RUNNABLE` come those to its `ctime` and its `qvalue`, and behind the one to
`qvalue` none to `ctime`. -/
def Stamps : List Op → Prop
  | [] => True
  | op :: r => (∀ i, op = forkRunnable i → late i .ctime ∈ r ∧ late i .qvalueCtime ∈ r) ∧
    (∀ i, op = late i .qvalueCtime → late i .ctime ∉ r) ∧ Stamps r

lemma Stamps.append (he : Free e) (hl : Stamps l) : Stamps (e ++ l) := by
  induction e with
  | nil => exact hl
  | cons op e ih =>
    have hop := he op List.mem_cons_self
    refine ⟨?_, ?_, ih fun o ho => he o (List.mem_cons_of_mem _ ho)⟩ <;>
    · rintro i rfl
      simp [Op.publishes] at hop

lemma Free.stamps (h : Free l) : Stamps l := by
  have hnil : Stamps [] := trivial
  simpa using hnil.append h

lemma stamps_forkPublish (i : Slot) (pid : ℤ) (hr : Free r) : Stamps (forkPublish .frr i pid ++ r) := by
  have hlate : ∀ j, late j .ctime ∉ store (.eax pid) :: r := fun j => by simpa using hr.not_late
  simp [forkPublish, Stamps, hlate, hr.stamps, hr.not_late]

/-- The stores of `fork` are in order in every thread. -/
lemma Forking.stamps_step (hi : Inv s emb) (hf : Forking .frr s emb) (hs : ∀ p, Stamps (s.kstk p))
    (h : Os132.step .frr ncpu lb s = some s') (p : Slot) : Stamps (s'.kstk p) := by
  refine (hf.threadMove hi h p).keeps (hs p) (Free.of_all rfl).stamps (fun _ _ he hl => hl.append he) (fun _ _ h => h.2.2)
    fun i pid r hl _ => ?_
  have horder := hf.order p
  rw [hl] at horder
  exact stamps_forkPublish i pid (horder.1.resolve_right (by simp [Op.brief]))

/-- A store that is owed stays so until it is made. -/
lemma Owes.step (hi : Inv s emb) (hfam : Fam s ph) (hf : Forking .frr s emb) (h : Os132.step .frr ncpu lb s = some s')
    (ho : Owes s i f) : Owes s' i f ∨
      ∃ r p ch, s.ops lb.cpu = late i f :: r ∧ (s.cpu lb.cpu).proc = some p ∧ lb.action = .exec ch := by
  obtain ⟨p, hm, hn⟩ := ho
  rcases hf.threadMove hi h p with ⟨hp, hfront⟩ | ⟨hp, -⟩
  · rw [ops_of_proc hp]
    suffices hl : (late i f ∈ s'.kstk p ∧ forkRunnable i ∉ s'.kstk p) ∨
        ∃ r ch, s.kstk p = late i f :: r ∧ lb.action = .exec ch from
      hl.imp (fun hl => ⟨p, hl⟩) fun ⟨r, ch, hl, ha⟩ => ⟨r, p, ch, hl, hp, ha⟩
    generalize s'.kstk p = l at hfront
    cases hfront with
    | push e he =>
      exact Or.inl ⟨List.mem_append_right _ hm, fun h => (List.mem_append.1 h).elim he.not_forkRunnable hn⟩
    | pop ch op e r ha hl he =>
      rw [hl] at hm hn
      rcases List.mem_cons.1 hm with rfl | hm
      · exact Or.inr ⟨r, ch, hl, ha⟩
      · exact Or.inl ⟨List.mem_append_right _ hm, fun h =>
          (List.mem_append.1 h).elim he.not_forkRunnable fun h => hn (List.mem_cons_of_mem _ h)⟩
    | publish j pid r hl =>
      have horder := hf.order p
      rw [hl] at horder hm
      have hr : Free r := horder.1.resolve_right (by simp [Op.brief])
      exact absurd ((List.mem_cons.1 hm).resolve_left (by simp)) hr.not_late
  · -- the parent is alive, so `allocproc` builds no other thread in its slot
    obtain ⟨-, hpar⟩ := hf.after p i f hm hn
    have halive := (hfam.parent i p hpar).1
    have hne : (s.proc p).state ≠ .embryo := by
      intro he
      simp [he, ProcState.alive] at halive
    have heq := ((step_kind hi h).1.kstk_ne hi hp hne).1
    exact Or.inl ⟨p, heq ▸ hm, heq ▸ hn⟩

lemma Forking.owes_of_front (hi : Inv s emb) (hf : Forking .frr s emb) (hp : (s.cpu c).proc = some p)
    (ho : s.ops c = late i f :: r) (hr : (s.proc i).state ≠ .embryo) : late i f ∈ s.kstk p ∧ forkRunnable i ∉ s.kstk p := by
  rw [ops_of_proc hp] at ho
  refine ⟨by simp [ho], fun hm => ?_⟩
  exact hr (hi.fork p i 5 (hf.before p i hm)).state

lemma Forking.ctime_first (hi : Inv s emb) (hf : Forking .frr s emb) (hs : ∀ p, Stamps (s.kstk p))
    (hp : (s.cpu c).proc = some p) (ho : s.ops c = late i .qvalueCtime :: r) (hr : (s.proc i).state ≠ .embryo) :
    ¬ Owes s i .ctime := by
  rintro ⟨q, hm, hn⟩
  obtain ⟨hm', hn'⟩ := hf.owes_of_front hi hp ho hr
  obtain rfl : q = p := Option.some.inj ((hf.after q i _ hm hn).2.symm.trans (hf.after p i _ hm' hn').2)
  rw [ops_of_proc hp] at ho
  have hst := hs q
  rw [ho] at hst hm
  exact hst.2.1 i rfl ((List.mem_cons.1 hm).resolve_left (by simp))

/-- A child that has just become `RUNNABLE` is owed the stores to `ctime` and `qvalue`. -/
lemma Forking.owes_published (hf : Forking .frr s emb) (hs : ∀ p, Stamps (s.kstk p))
    (h : Os132.step .frr ncpu lb s = some s') (hp : (s.cpu lb.cpu).proc = some p) (ha : lb.action = .exec ch)
    (ho : s.ops lb.cpu = forkRunnable i :: r) : Owes s' i .ctime ∧ Owes s' i .qvalueCtime := by
  have horder := hf.order p
  have hst := hs p
  rw [ops_of_proc hp] at ho
  rw [ho] at horder hst
  obtain ⟨h1, h2⟩ := hst.1 i rfl
  have hn : forkRunnable i ∉ r := by
    rcases horder.1 with hfree | ⟨-, honce⟩
    · exact hfree.not_forkRunnable
    · exact honce i rfl i
  have hk : s'.kstk p = r := by
    have hx := label_exec h (c := lb.cpu) (by rw [← ha]) ((ops_of_proc hp).trans ho)
    simp only [execOp, act, Option.map_some, Option.some.injEq] at hx
    rw [← hx]
    simp [State.setOps_kstk, hp]
  exact ⟨⟨p, hk ▸ h1, hk ▸ hn⟩, p, hk ▸ h2, hk ▸ hn⟩

/-! ### What writes the stamps -/

lemma searched_frr {tbl : Table} : tbl.searched .frr p = true ↔ (tbl p).state = .runnable := by
  simp [Table.searched]

lemma act_ticks {self : Option Slot} (ha : act flag c self ch m op = some (m', e)) :
    m'.ticks = m.ticks ∨ op = tick ∧ m'.ticks = uint32 (m.ticks + 1) := by
  cases op <;> try (simp [act] at ha; done)
  all_goals simp only [act, Option.some.injEq, Prod.mk.injEq, Option.map_eq_some_iff] at ha
  case tick =>
    obtain ⟨rfl, -⟩ := ha
    exact Or.inr ⟨rfl, rfl⟩
  all_goals left
  case syscall | timerIrq | forkretFirst | sleepTicks0 | sleepTest | forkPid | freeKstack | forkUnused | forkRunnable | wakeup1 =>
    obtain ⟨rfl, -⟩ := ha
    rfl
  case kcode | kcodeNosleep | exit | nice | yieldMedium | sleepKilled | schedAs | np | forkParent | late | wakeupParent | reparent =>
    obtain ⟨_, _, rfl, -⟩ := ha
    rfl
  case ifKilledExit | ifYield | store =>
    cases self <;> obtain ⟨rfl, -⟩ := Prod.mk.inj (Option.some.inj ha) <;> rfl
  case allocKstack i | copyuvm i =>
    cases ch <;> simp only [reduceCtorEq] at ha
    case page n =>
      split_ifs at ha
      obtain ⟨rfl, -⟩ := Prod.mk.inj (Option.some.inj ha)
      rfl
    case noPage =>
      obtain ⟨rfl, -⟩ := Prod.mk.inj (Option.some.inj ha)
      rfl
  case allocproc | kill =>
    split at ha <;> obtain ⟨rfl, -⟩ := Prod.mk.inj (Option.some.inj ha) <;> rfl
  case wait =>
    obtain ⟨i, -, ha⟩ := ha
    split at ha
    · obtain ⟨rfl, -⟩ := Prod.mk.inj ha
      rfl
    · split_ifs at ha <;> obtain ⟨rfl, -⟩ := Prod.mk.inj ha <;> rfl

lemma LateStore.apply_qvalue (t : ℕ) (x y : Proc) (h : f ≠ .qvalueCtime) (h' : f ≠ .qvalueZero) :
    (f.apply t x y).qvalue = y.qvalue := by
  unfold LateStore.apply
  split <;> first | exact absurd rfl h | exact absurd rfl h' | rfl

lemma LateStore.apply_ctime_ne (t : ℕ) (x y : Proc) (h : f ≠ .ctime) : (f.apply t x y).ctime = y.ctime := by
  unfold LateStore.apply
  split <;> first | exact absurd rfl h | rfl

lemma Store.apply_qvalue (g : Store) (t : ℕ) (x : Proc) (h : g ≠ .qvalueTicks) : (g.apply t x).qvalue = x.qvalue := by
  unfold Store.apply
  split <;> first | exact absurd rfl h | rfl

/-- The ticks count on in `tick` only. -/
lemma step_ticks (h : StepKind flag s c a s') : s'.mem.ticks = s.mem.ticks ∨
    (∃ r, s.ops c = tick :: r) ∧ s'.mem.ticks = uint32 (s.mem.ticks + 1) := by
  cases h with
  | act op r ch m' e ho hst ha =>
    rcases act_ticks ha with h | ⟨rfl, h⟩
    · exact Or.inl h
    · exact Or.inr ⟨⟨r, ho⟩, h⟩
  | thread _ l _ hts hm => exact Or.inl (by rw [hm])
  | panic => exact Or.inl rfl
  | leave | context | sched | visit | visitRun | chooseNone | choose =>
    exact Or.inl (by simp [State.scanned, State.dispatch])

/-- Only `fork` writes `ctime`. -/
lemma step_ctime (h : StepKind flag s c a s') (j : Slot) : (s'.proc j).ctime = (s.proc j).ctime ∨
    ∃ r p, s.ops c = late j .ctime :: r ∧ (s.cpu c).proc = some p ∧ (s'.proc j).ctime = int32 s.mem.ticks := by
  have hrec := step_rec h j
  generalize s'.proc j = x at hrec
  cases hrec with
  | same | leave | visit | visitRun | choose => exact Or.inl rfl
  | act op r ch p' ho ha hst hc =>
    cases hc with
    | late f q hop hq =>
      by_cases hf : f = .ctime
      · subst hf
        exact Or.inr ⟨r, q, hop ▸ ho, hq, by simp only [LateStore.apply]⟩
      · exact Or.inl (LateStore.apply_ctime_ne _ _ _ hf)
    | store f => exact Or.inl (Store.apply_ctime _ _ f)
    | np f => exact Or.inl (by cases f <;> rfl)
    | same | leave | alloc | kstack | pgdir | freeKstack | free | parent | publish | wake | adopt | adoptWake | kill |
      reap | report | reapReport => exact Or.inl rfl

/-- The stamp is written by the process itself and by `fork`. -/
lemma Forking.step_qvalue (hf : Forking .frr s emb) (h : StepKind .frr s c a s') (j : Slot) :
    (s'.proc j).qvalue = (s.proc j).qvalue ∨
      (∃ r, s.ops c = store .qvalueTicks :: r ∧ (s.cpu c).proc = some j ∧ (s'.proc j).qvalue = s.mem.ticks) ∨
      ∃ r p, s.ops c = late j .qvalueCtime :: r ∧ (s.cpu c).proc = some p ∧ (s'.proc j).qvalue = (s.proc j).ctime := by
  have hrec := step_rec h j
  generalize s'.proc j = x at hrec
  cases hrec with
  | same | leave | choose => exact Or.inl rfl
  | visit i r x v ho hj hr hv =>
    left
    have := visit_qvalue (l := (s.cpu c).loc) (Or.inl rfl) (searched_frr.2 hr)
    rw [hv] at this
    exact this
  | visitRun _ _ _ _ _ _ _ hrr => cases hrr
  | act op r ch p' ho ha hst hc =>
    cases hc with
    | late f q hop hq =>
      subst hop
      have hm : late j f ∈ s.kstk q := by
        rw [← ops_of_proc hq, ho]
        exact List.mem_cons_self
      have hstores := hf.stores q j f hm
      by_cases hc : f = .qvalueCtime
      · subst hc
        exact Or.inr (Or.inr ⟨r, q, ho, hq, rfl⟩)
      · refine Or.inl (LateStore.apply_qvalue _ _ _ hc ?_)
        rintro rfl
        cases hstores
    | store f hop hs =>
      by_cases hf : f = .qvalueTicks
      · subst hf
        exact Or.inr (Or.inl ⟨r, hop ▸ ho, hs, by simp only [Store.apply]⟩)
      · exact Or.inl (Store.apply_qvalue _ _ _ hf)
    | np f => exact Or.inl (by cases f <;> rfl)
    | same | leave | alloc | kstack | pgdir | freeKstack | free | parent | publish | wake | adopt | adoptWake | kill |
      reap | report | reapReport => exact Or.inl rfl

/-- How a process becomes `RUNNABLE`: it is woken, `fork` comes to its end, or it is in `yield`. -/
lemma StepKind.becomes_runnable (hi : Inv s emb) (h : StepKind flag s c a s') (h0 : (s.proc j).state ≠ .runnable)
    (h1 : (s'.proc j).state = .runnable) : (s.proc j).state = .sleeping ∨
      (∃ r p ch, a = .exec ch ∧ s.ops c = forkRunnable j :: r ∧ (s.cpu c).proc = some p) ∨
      ∃ r, s.ops c = schedAs .runnable :: r ∧ (s.cpu c).proc = some j ∧ (s'.proc j).qvalue = (s.proc j).qvalue := by
  have hrec := step_rec h j
  generalize s'.proc j = x at hrec h1
  cases hrec with
  | same => exact absurd h1 h0
  | visit _ _ _ _ _ _ hr => exact absurd hr h0
  | visitRun | choose => cases h1
  | leave st r ho hj => exact Or.inr (Or.inr ⟨r, (show st = .runnable from h1) ▸ ho, hj, rfl⟩)
  | act op r ch p' ho ha hst hc =>
    cases hc with
    | publish hop =>
      subst hop
      obtain ⟨g, hok, hemb, -⟩ := hi.cpu c
      have hpre := (hok.typed ho (by simp) (by simp)).1.2
      obtain ⟨p, hp, -⟩ := Option.bind_eq_some_iff.1 (hemb ▸ hpre)
      exact Or.inr (Or.inl ⟨r, p, ch, ha, ho, hp⟩)
    | wake hop hs | adoptWake hop hp hs' hs => exact Or.inl hs
    | kill pid =>
      left
      by_contra hs
      simp only [Proc.kill, if_neg hs] at h1
      exact h0 h1
    | leave st hop => exact absurd hop (hst st)
    | store f => exact absurd ((Store.apply_state _ _ f).symm.trans h1) h0
    | np f => exact absurd ((NpStore.apply_state _ _ f).symm.trans h1) h0
    | late f => exact absurd ((LateStore.apply_state _ _ _ f).symm.trans h1) h0
    | same | kstack | pgdir | freeKstack | parent | adopt | report => exact absurd h1 h0
    | alloc | free | reap | reapReport => cases h1

lemma Owes.origin (hi : Inv s emb) (hf : Forking flag s emb) (h : Os132.step flag ncpu lb s = some s') (ho : Owes s' i f) :
    Owes s i f ∨ ∃ r p ch, s.ops lb.cpu = forkRunnable i :: r ∧ (s.cpu lb.cpu).proc = some p ∧ lb.action = .exec ch ∧
      (s.proc i).state = .embryo := by
  obtain ⟨p, hm, hn⟩ := ho
  rcases hf.origin (hf.threadMove hi h p) hm hn with ⟨hm, hn⟩ | ⟨hp, ch, r, ha, hl⟩
  · exact Or.inl ⟨p, hm, hn⟩
  · have hok := hi.fork p i 5 (hf.before p i (by rw [hl]; exact List.mem_cons_self))
    exact Or.inr ⟨r, p, ch, (ops_of_proc hp).trans hl, hp, ha, hok.state⟩

lemma late_exec (h : Os132.step flag ncpu lb s = some s') (hp : (s.cpu lb.cpu).proc = some p) (ha : lb.action = .exec ch)
    (ho : s.ops lb.cpu = late i f :: r) : s'.proc i = f.apply s.mem.ticks (s.proc p) (s.proc i) := by
  have hx := label_exec h (c := lb.cpu) (by rw [← ha]) ho
  simp only [execOp, act, hp, Option.map_some, Option.some.injEq] at hx
  rw [← hx]
  simp [State.proc]

end Os132

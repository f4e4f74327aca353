import Os132.Kernel.Record

/-!
# The pages of a process

The kernel stack of every slot, and the page directory of every slot that holds a process, is a
page that `kalloc` has handed out, and no two of them are the same page. The field `pgdir` of a
slot keeps its value when the process is reaped, so it counts only while the slot is `Live`.
-/

namespace Os132

open Op

variable {flag : SchedFlag} {ncpu : ℕ} {s s' : State} {c : CpuId} {lb : Label} {a : Action}
  {emb : Slot → Option (Slot × ℕ)} {op : Op} {r : List Op} {j : Slot}

/-- The slot holds a process, or one that `fork` has given its page directory. -/
def Live (s : State) (emb : Slot → Option (Slot × ℕ)) (j : Slot) : Prop :=
  (s.proc j).state.used = true ∨ ∃ p k, emb p = some (j, k) ∧ 4 ≤ k

/-- Slot `x.1` owns a page as its kernel stack, or as its page directory. -/
def Owns (s : State) (emb : Slot → Option (Slot × ℕ)) : Slot × Bool → ℕ → Prop
  | (j, true), n => (s.proc j).kstack = some n
  | (j, false), n => Live s emb j ∧ (s.proc j).pgdir = some n

structure Pages (s : State) (emb : Slot → Option (Slot × ℕ)) : Prop where
  allocated : ∀ x n, Owns s emb x n → s.mem.kmem n = true
  single : ∀ x y n, Owns s emb x n → Owns s emb y n → x = y
  used : ∀ j, (s.proc j).state.used = true → (s.proc j).kstack ≠ none ∧ (s.proc j).pgdir ≠ none

/-- What a step does to pages: `kalloc` of a kernel stack or of a page directory, which may fail,
and `kfree` in `fork` and in `wait`. -/
inductive PageStep (s : State) (c : CpuId) (m' : Mem) : Prop
  | same (hm : m'.kmem = s.mem.kmem) (hk : ∀ j, (m'.proc j).kstack = (s.proc j).kstack)
      (hp : ∀ j, (m'.proc j).pgdir = (s.proc j).pgdir)
  | kstack (i : Slot) (v : Option ℕ) (r : List Op) (ho : s.ops c = allocKstack i :: r)
      (hv : ∀ n, v = some n → s.mem.kmem n = false) (hm : ∀ n, m'.kmem n = (s.mem.kmem n || decide (v = some n)))
      (hk : ∀ j, (m'.proc j).kstack = if j = i then v else (s.proc j).kstack)
      (hp : ∀ j, (m'.proc j).pgdir = (s.proc j).pgdir)
  | pgdir (i : Slot) (v : Option ℕ) (r : List Op) (ho : s.ops c = copyuvm i :: r)
      (hv : ∀ n, v = some n → s.mem.kmem n = false) (hm : ∀ n, m'.kmem n = (s.mem.kmem n || decide (v = some n)))
      (hk : ∀ j, (m'.proc j).kstack = (s.proc j).kstack)
      (hp : ∀ j, (m'.proc j).pgdir = if j = i then v else (s.proc j).pgdir)
  | free (i : Slot) (r : List Op) (ho : s.ops c = freeKstack i :: r)
      (hm : ∀ n, m'.kmem n = if (s.proc i).kstack = some n then false else s.mem.kmem n)
      (hk : ∀ j, (m'.proc j).kstack = if j = i then none else (s.proc j).kstack)
      (hp : ∀ j, (m'.proc j).pgdir = (s.proc j).pgdir)
  | reap (two : Bool) (r : List Op) (i z : Slot) (ho : s.ops c = .wait two :: r) (hc : (s.cpu c).proc = some i)
      (hz : s.proc.find (Proc.isZombieOf i) = some z)
      (hm : ∀ n, m'.kmem n = if (s.proc z).kstack = some n ∨ (s.proc z).pgdir = some n then false else s.mem.kmem n)
      (hk : ∀ j, (m'.proc j).kstack = if j = z then none else (s.proc j).kstack)
      (hp : ∀ j, (m'.proc j).pgdir = (s.proc j).pgdir) (hs : (m'.proc z).state = .unused)

lemma kstack_change {m : Mem} {self : Option Slot} {ch : Choice} {p p' : Proc} (h : ProcChange m self ch op j p p')
    (h1 : op ≠ allocKstack j) (h2 : op ≠ freeKstack j) (h3 : ∀ two, op ≠ .wait two) : p'.kstack = p.kstack := by
  cases h with
  | kstack _ ho => exact absurd ho h1
  | freeKstack ho => exact absurd ho h2
  | reap two _ ho => exact absurd ho (h3 two)
  | reapReport ho => exact absurd ho (h3 true)
  | store | np | late => simp
  | same | leave | alloc | pgdir | free | parent | publish | wake | adopt | adoptWake | kill | report => rfl

lemma pgdir_change {m : Mem} {self : Option Slot} {ch : Choice} {p p' : Proc} (h : ProcChange m self ch op j p p')
    (h1 : op ≠ copyuvm j) : p'.pgdir = p.pgdir := by
  cases h with
  | pgdir _ ho => exact absurd ho h1
  | store | np | late => simp
  | same | leave | alloc | kstack | freeKstack | reap | reapReport | free | parent | publish | wake | adopt |
    adoptWake | kill | report => rfl

lemma act_kmem {m m' : Mem} {self : Option Slot} {ch : Choice} {e : List Op} (h : act flag c self ch m op = some (m', e))
    (h1 : ∀ i, op ≠ allocKstack i ∧ op ≠ copyuvm i ∧ op ≠ freeKstack i) (h2 : ∀ two, op ≠ .wait two) :
    m'.kmem = m.kmem := by
  cases op <;> try (simp [act] at h; done)
  case wait two => exact absurd rfl (h2 two)
  case allocKstack i => exact absurd rfl (h1 i).1
  case copyuvm i => exact absurd rfl (h1 i).2.1
  case freeKstack i => exact absurd rfl (h1 i).2.2
  all_goals simp only [act, Option.some.injEq, Prod.mk.injEq, Option.map_eq_some_iff] at h
  case syscall | timerIrq | tick | forkretFirst | sleepTicks0 | sleepTest | forkPid | forkUnused | forkRunnable | wakeup1 =>
    rw [← h.1]
  case kcode | kcodeNosleep | exit | nice | yieldMedium | sleepKilled | np | late | forkParent | schedAs |
      wakeupParent | reparent =>
    obtain ⟨_, _, rfl, -⟩ := h
    rfl
  case allocproc | kill | ifKilledExit | ifYield | store =>
    split at h <;> obtain ⟨rfl, -⟩ := Prod.mk.inj (Option.some.inj h) <;> rfl

lemma act_pages {ch : Choice} {m' : Mem} {e : List Op} (ho : s.ops c = op :: r)
    (h : act flag c (s.cpu c).proc ch s.mem op = some (m', e)) : PageStep s c m' := by
  have hrec : ∀ j, ProcChange s.mem (s.cpu c).proc ch op j (s.proc j) (m'.proc j) := fun j => act_proc h j
  by_cases h1 : ∃ i, op = allocKstack i
  · obtain ⟨i, rfl⟩ := h1
    have hp : ∀ j, (m'.proc j).pgdir = (s.proc j).pgdir := fun j => pgdir_change (hrec j) (by simp)
    cases ch <;> simp only [act, reduceCtorEq] at h
    case page n =>
      split_ifs at h with hn
      obtain ⟨rfl, -⟩ := Prod.mk.inj (Option.some.inj h)
      refine .kstack i (some n) r ho (by rintro k hk; rw [← Option.some.inj hk]; simpa using hn) (fun k => ?_)
        (fun j => ?_) hp
      · by_cases hk : k = n
        · simp [hk]
        · simp [hk, Ne.symm hk]
      · by_cases hj : j = i <;> simp [hj, State.proc, Table.set_apply]
    case noPage =>
      obtain ⟨rfl, -⟩ := Prod.mk.inj (Option.some.inj h)
      refine .kstack i none r ho (by simp) (by simp) (fun j => ?_) hp
      by_cases hj : j = i <;> simp [hj, State.proc, Table.set_apply]
  by_cases h2 : ∃ i, op = copyuvm i
  · obtain ⟨i, rfl⟩ := h2
    have hk : ∀ j, (m'.proc j).kstack = (s.proc j).kstack := fun j => kstack_change (hrec j) (by simp) (by simp) (by simp)
    cases ch <;> simp only [act, reduceCtorEq] at h
    case page n =>
      split_ifs at h with hn
      obtain ⟨rfl, -⟩ := Prod.mk.inj (Option.some.inj h)
      refine .pgdir i (some n) r ho (by rintro k hk; rw [← Option.some.inj hk]; simpa using hn) (fun k => ?_) hk fun j => ?_
      · by_cases hk : k = n
        · simp [hk]
        · simp [hk, Ne.symm hk]
      · by_cases hj : j = i <;> simp [hj, State.proc, Table.set_apply]
    case noPage =>
      obtain ⟨rfl, -⟩ := Prod.mk.inj (Option.some.inj h)
      refine .pgdir i none r ho (by simp) (by simp) hk fun j => ?_
      by_cases hj : j = i <;> simp [hj, State.proc, Table.set_apply]
  by_cases h3 : ∃ i, op = freeKstack i
  · obtain ⟨i, rfl⟩ := h3
    have hp : ∀ j, (m'.proc j).pgdir = (s.proc j).pgdir := fun j => pgdir_change (hrec j) (by simp)
    simp only [act, Option.some.injEq, Prod.mk.injEq] at h
    obtain ⟨rfl, -⟩ := h
    refine .free i r ho (fun n => rfl) (fun j => ?_) hp
    by_cases hj : j = i <;> simp [hj, State.proc, Table.set_apply]
  by_cases h4 : ∃ two, op = .wait two
  · obtain ⟨two, rfl⟩ := h4
    have hp : ∀ j, (m'.proc j).pgdir = (s.proc j).pgdir := fun j => pgdir_change (hrec j) (by simp)
    simp only [act, Option.map_eq_some_iff] at h
    obtain ⟨i, hi, h⟩ := h
    split at h
    · rename_i z hz
      obtain ⟨rfl, -⟩ := Prod.mk.inj h
      refine .reap two r i z ho hi hz (fun n => rfl) (fun j => ?_) hp ?_
      · cases two <;> by_cases hj : j = z <;> by_cases hji : j = i <;>
          simp_all [State.proc, Table.set_apply, Proc.reap, Proc.report]
      · cases two <;> by_cases hji : z = i <;> simp_all [State.proc, Table.set_apply, Proc.reap, Proc.report]
    · have heq : m' = s.mem := by split_ifs at h <;> exact (Prod.mk.inj h).1.symm
      subst heq
      exact .same rfl (fun _ => rfl) fun _ => rfl
  · push Not at h1 h2 h3 h4
    exact .same (act_kmem h (fun i => ⟨h1 i, h2 i, h3 i⟩) h4) (fun j => kstack_change (hrec j) (h1 j) (h3 j) h4)
      fun j => pgdir_change (hrec j) (h2 j)

theorem step_pages (h : StepKind flag s c a s') : PageStep s c s'.mem := by
  cases h with
  | act op r ch m' e ho hst ha => exact act_pages ho ha
  | leave st r p ch ho hp =>
    exact .same rfl (fun j => Table.set_field _ _ _ _ Proc.kstack fun _ => rfl)
      fun j => Table.set_field _ _ _ _ Proc.pgdir fun _ => rfl
  | thread _ l _ hts hm =>
    rw [hm]
    exact .same rfl (fun _ => rfl) fun _ => rfl
  | context | sched =>
    simp only [State.setCpu_mem, State.setOps_mem]
    exact .same rfl (fun _ => rfl) fun _ => rfl
  | chooseNone | panic => exact .same rfl (fun _ => rfl) fun _ => rfl
  | visit i r ch ho hp hi hv =>
    exact .same rfl (fun j => visit_field flag _ _ j Proc.kstack fun _ _ _ => rfl)
      fun j => visit_field flag _ _ j Proc.pgdir fun _ _ _ => rfl
  | visitRun i r ch ho hp hi hv =>
    refine .same rfl (fun j => ?_) fun j => ?_
    · exact (State.dispatch_field _ _ _ _ Proc.kstack fun _ _ => rfl).trans
        (visit_field flag _ _ j Proc.kstack fun _ _ _ => rfl)
    · exact (State.dispatch_field _ _ _ _ Proc.pgdir fun _ _ => rfl).trans
        (visit_field flag _ _ j Proc.pgdir fun _ _ _ => rfl)
  | choose i r ch ho hp hc =>
    exact .same rfl (fun j => State.dispatch_field _ _ _ _ Proc.kstack fun _ _ => rfl)
      fun j => State.dispatch_field _ _ _ _ Proc.pgdir fun _ _ => rfl

lemma Inv.emb_of_ops (hi : Inv s emb) (ho : s.ops c = op :: r) {i : Slot} {k : ℕ}
    (hop : ∀ g : Sig, op.pre g → g.emb = some (i, k)) (h1 : ∀ lk, op ≠ spin lk) (h2 : op ≠ Op.sched) :
    ∃ p, (s.cpu c).proc = some p ∧ emb p = some (i, k) := by
  obtain ⟨g, hok, hemb, -⟩ := hi.cpu c
  exact Option.bind_eq_some_iff.mp (hemb ▸ hop g (hok.typed ho h1 h2).1)

lemma live_origin (hi : Inv s emb) (h : step flag ncpu lb s = some s') (hj : Live s' (embStep s lb emb) j) :
    Live s emb j ∨ ∃ n r, lb = ⟨lb.cpu, .exec (.page n)⟩ ∧ s.ops lb.cpu = copyuvm j :: r := by
  obtain ⟨hk, -⟩ := step_kind hi h
  rcases hj with hj | ⟨p, k, hp, hk4⟩
  · rcases used_origin hi hk hj with hu | ⟨r, ho⟩
    · exact Or.inl (Or.inl hu)
    · obtain ⟨p, -, he⟩ := hi.emb_of_ops ho (fun _ hg => hg.2) (by simp) (by simp)
      exact Or.inl (Or.inr ⟨p, 5, he, by omega⟩)
  · rcases embStep_cases s lb emb p with heq | ⟨ch, op, r, hact, ho, -, heq⟩ <;> rw [heq] at hp
    · exact Or.inl (Or.inr ⟨p, k, hp, hk4⟩)
    cases op <;> simp only [Op.embAfter, Option.map_eq_some_iff, Option.some.injEq, Prod.mk.injEq, reduceCtorEq] at hp
    case allocproc =>
      obtain ⟨-, -, -, rfl⟩ := hp
      omega
    case allocKstack i =>
      cases ch <;> simp only [Option.some.injEq, Prod.mk.injEq] at hp <;> omega
    case copyuvm i =>
      cases ch <;> simp only [Option.some.injEq, Prod.mk.injEq] at hp <;> try omega
      case page n => exact Or.inr ⟨n, r, by rw [← hact], by rw [ho, hp.1]⟩
    case freeKstack i | allocContext i => omega
    case forkParent i =>
      obtain ⟨q, -, he⟩ := hi.emb_of_ops ho (fun _ hg => hg.2) (by simp) (by simp)
      exact Or.inl (Or.inr ⟨q, 4, hp.1 ▸ he, le_rfl⟩)
    all_goals exact Or.inl (Or.inr ⟨p, k, hp, hk4⟩)

/-- A step owns what was owned before, but for the page it has allocated to `x₀`. -/
lemma Pages.take (hg : Pages s emb) {emb' : Slot → Option (Slot × ℕ)} (x₀ : Slot × Bool)
    (ho : ∀ x n, Owns s' emb' x n → Owns s emb x n ∨ x = x₀ ∧ s.mem.kmem n = false ∧ s'.mem.kmem n = true)
    (hm : ∀ n, s.mem.kmem n = true → s'.mem.kmem n = true)
    (hu : ∀ j, (s'.proc j).state.used = true → (s'.proc j).kstack ≠ none ∧ (s'.proc j).pgdir ≠ none) :
    Pages s' emb' := by
  refine ⟨fun x n hx => ?_, fun x y n hx hy => ?_, hu⟩
  · rcases ho x n hx with h | ⟨-, -, h⟩
    · exact hm n (hg.allocated x n h)
    · exact h
  · have hfree : ∀ z, Owns s emb z n → s.mem.kmem n = false → False := by
      intro z hz hn
      rw [hg.allocated z n hz] at hn
      exact Bool.noConfusion hn
    rcases ho x n hx with h1 | ⟨h1, hn, -⟩ <;> rcases ho y n hy with h2 | ⟨h2, hn', -⟩
    · exact hg.single x y n h1 h2
    · exact (hfree x h1 hn').elim
    · exact (hfree y h2 hn).elim
    · rw [h1, h2]

lemma Pages.give (hg : Pages s emb) {emb' : Slot → Option (Slot × ℕ)} (freed : Slot × Bool → Prop)
    (ho : ∀ x n, Owns s' emb' x n → Owns s emb x n ∧ ¬ freed x)
    (hm : ∀ n, s.mem.kmem n = true → s'.mem.kmem n = true ∨ ∃ x, freed x ∧ Owns s emb x n)
    (hu : ∀ j, (s'.proc j).state.used = true → (s'.proc j).kstack ≠ none ∧ (s'.proc j).pgdir ≠ none) :
    Pages s' emb' := by
  refine ⟨fun x n hx => ?_, fun x y n hx hy => hg.single x y n (ho x n hx).1 (ho y n hy).1, hu⟩
  obtain ⟨h1, h2⟩ := ho x n hx
  rcases hm n (hg.allocated x n h1) with h | ⟨y, hy, hyn⟩
  · exact h
  · exact absurd (hg.single y x n hyn h1 ▸ hy) h2

/-- Every step keeps the pages apart. -/
theorem Pages.step (hi : Inv s emb) (hg : Pages s emb) (h : step flag ncpu lb s = some s') :
    Pages s' (embStep s lb emb) := by
  obtain ⟨hk, -⟩ := step_kind hi h
  have hlive := fun j => @live_origin flag ncpu s s' lb emb j hi h
  have hused : ∀ j, (s'.proc j).state.used = true → (s.proc j).kstack ≠ none ∧ (s.proc j).pgdir ≠ none := by
    intro j hj
    rcases used_origin hi hk hj with hu | ⟨r, ho⟩
    · exact hg.used j hu
    · obtain ⟨p, -, he⟩ := hi.emb_of_ops ho (fun _ hg => hg.2) (by simp) (by simp)
      have hok := hi.fork p j 5 he
      exact ⟨hok.kstack (by omega), hok.pgdir (by omega)⟩
  have hembryo : ∀ i r, (s.ops lb.cpu = allocKstack i :: r ∨ s.ops lb.cpu = copyuvm i :: r ∨
      s.ops lb.cpu = freeKstack i :: r) → ∀ j, (s'.proc j).state.used = true → j ≠ i := by
    rintro i r ho j hj rfl
    have hst : (s.proc j).state = .embryo := by
      rcases ho with ho | ho | ho <;>
        obtain ⟨p, -, he⟩ := hi.emb_of_ops ho (fun _ hg => hg.2) (by simp) (by simp) <;>
        exact (hi.fork p j _ he).state
    rcases used_origin hi hk hj with hu | ⟨r', ho'⟩
    · simp [hst, ProcState.used] at hu
    · simp [ho'] at ho
  have hnew : (∀ j r, s.ops lb.cpu ≠ copyuvm j :: r) → ∀ j, Live s' (embStep s lb emb) j → Live s emb j := by
    intro hno j hj
    rcases hlive j hj with h | ⟨n, r, -, ho⟩
    · exact h
    · exact absurd ho (hno j r)
  cases step_pages hk with
  | same hm hks hpg =>
    refine hg.give (fun _ => False) (fun x n hx => ⟨?_, id⟩) (fun n hn => Or.inl (hm ▸ hn)) fun j hj => ?_
    · obtain ⟨j, b⟩ := x
      cases b with
      | true => exact (hks j).symm.trans hx
      | false =>
        refine ⟨?_, (hpg j).symm.trans hx.2⟩
        rcases hlive j hx.1 with h | ⟨k, r, hl, ho⟩
        · exact h
        · have hexec := label_exec h hl ho
          simp only [execOp, act] at hexec
          split_ifs at hexec with hk
          · simp at hexec
          · simp only [Option.map_some, Option.some.injEq] at hexec
            have := congrFun hm k
            rw [← hexec] at this
            simp at this
            exact absurd this.symm (by simpa using hk)
    · show (s'.mem.proc j).kstack ≠ none ∧ (s'.mem.proc j).pgdir ≠ none
      rw [hks, hpg]
      exact hused j hj
  | kstack i v r ho hv hm hks hpg =>
    refine hg.take (i, true) (fun x n hx => ?_) (fun n hn => by simp [hm, hn]) fun j hj => ?_
    · obtain ⟨j, b⟩ := x
      cases b with
      | true =>
        have hx' := (hks j).symm.trans hx
        split_ifs at hx' with hj
        · exact Or.inr ⟨by rw [hj], hv n hx', by simp [hm, hx']⟩
        · exact Or.inl hx'
      | false => exact Or.inl ⟨hnew (by simp [ho]) j hx.1, (hpg j).symm.trans hx.2⟩
    · show (s'.mem.proc j).kstack ≠ none ∧ (s'.mem.proc j).pgdir ≠ none
      rw [hks, hpg, if_neg (hembryo i r (Or.inl ho) j hj)]
      exact hused j hj
  | pgdir i v r ho hv hm hks hpg =>
    refine hg.take (i, false) (fun x n hx => ?_) (fun n hn => by simp [hm, hn]) fun j hj => ?_
    · obtain ⟨j, b⟩ := x
      cases b with
      | true => exact Or.inl ((hks j).symm.trans hx)
      | false =>
        have hx' := (hpg j).symm.trans hx.2
        split_ifs at hx' with hj
        · exact Or.inr ⟨by rw [hj], hv n hx', by simp [hm, hx']⟩
        · refine Or.inl ⟨?_, hx'⟩
          rcases hlive j hx.1 with h | ⟨k, r', -, ho'⟩
          · exact h
          · exact absurd (by simpa [ho] using ho') (fun h : i = j ∧ _ => hj h.1.symm)
    · show (s'.mem.proc j).kstack ≠ none ∧ (s'.mem.proc j).pgdir ≠ none
      rw [hks, hpg, if_neg (hembryo i r (Or.inr (Or.inl ho)) j hj)]
      exact hused j hj
  | free i r ho hm hks hpg =>
    refine hg.give (fun x => x = (i, true)) (fun x n hx => ?_) (fun n hn => ?_) fun j hj => ?_
    · obtain ⟨j, b⟩ := x
      cases b with
      | true =>
        have hx' := (hks j).symm.trans hx
        split_ifs at hx' with hj
        exact ⟨hx', by simpa using hj⟩
      | false => exact ⟨⟨hnew (by simp [ho]) j hx.1, (hpg j).symm.trans hx.2⟩, by simp⟩
    · rw [hm]
      split_ifs with hkn
      · exact Or.inr ⟨_, rfl, hkn⟩
      · exact Or.inl hn
    · show (s'.mem.proc j).kstack ≠ none ∧ (s'.mem.proc j).pgdir ≠ none
      rw [hks, hpg, if_neg (hembryo i r (Or.inr (Or.inr ho)) j hj)]
      exact hused j hj
  | reap two r i z ho hc hz hm hks hpg hst =>
    have hzu : (s.proc z).state.used = true := by simp [(Table.find_zombie hz).2, ProcState.used]
    have hdead : ¬ Live s' (embStep s lb emb) z := by
      rintro (hu | ⟨p, k, he, -⟩)
      · rw [State.proc, hst] at hu
        simp [ProcState.used] at hu
      · have := ((hi.step_inv h).fork p z k he).state
        rw [State.proc, hst] at this
        simp at this
    refine hg.give (fun x => x.1 = z) (fun x n hx => ?_) (fun n hn => ?_) fun j hj => ?_
    · obtain ⟨j, b⟩ := x
      cases b with
      | true =>
        have hx' := (hks j).symm.trans hx
        split_ifs at hx' with hj
        exact ⟨hx', hj⟩
      | false => exact ⟨⟨hnew (by simp [ho]) j hx.1, (hpg j).symm.trans hx.2⟩, fun hj => hdead (hj ▸ hx.1)⟩
    · rw [hm]
      split_ifs with hkn
      · rcases hkn with hkn | hkn
        · exact Or.inr ⟨(z, true), rfl, hkn⟩
        · exact Or.inr ⟨(z, false), rfl, Or.inl hzu, hkn⟩
      · exact Or.inl hn
    · have hjz : j ≠ z := by
        rintro rfl
        rw [State.proc, hst] at hj
        simp [ProcState.used] at hj
      show (s'.mem.proc j).kstack ≠ none ∧ (s'.mem.proc j).pgdir ≠ none
      rw [hks, hpg, if_neg hjz]
      exact hused j hj

lemma Boot.owns (h : Boot s) {x : Slot × Bool} {n : ℕ} (hx : Owns s (fun _ => none) x n) :
    x.1 = initproc ∧ n = if x.2 then 0 else 1 := by
  obtain ⟨j, b⟩ := x
  cases b <;> simp only [Owns, State.proc, h.mem, userinit] at hx
  · obtain ⟨-, hx⟩ := hx
    split_ifs at hx with hj
    exact ⟨hj, (Option.some.inj hx).symm⟩
  · split_ifs at hx with hj
    exact ⟨hj, (Option.some.inj hx).symm⟩

lemma Boot.pages (h : Boot s) : Pages s fun _ => none where
  allocated x n hx := by
    obtain ⟨-, rfl⟩ := h.owns hx
    rw [h.mem, userinit]
    dsimp only
    split_ifs <;> rfl
  single x y n hx hy := by
    obtain ⟨hx1, hx2⟩ := h.owns hx
    obtain ⟨hy1, hy2⟩ := h.owns hy
    refine Prod.ext (hx1.trans hy1.symm) ?_
    rw [hx2] at hy2
    split_ifs at hy2 <;> simp_all
  used j hj := by
    rw [State.proc, h.mem, userinit] at hj ⊢
    dsimp only at hj ⊢
    split_ifs at hj ⊢ <;> simp_all [ProcState.used]

end Os132

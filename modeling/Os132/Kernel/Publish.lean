import Os132.Kernel.Births
import Os132.Kernel.Minimum

/-!
# Children of an unfinished `fork`

`Owes` says which stores are still to come to a child that is `RUNNABLE`. Other CPUs see the record as the slot's
last process left it, and a store that comes late undoes what the child, the timer or `scheduler` has written.
-/

namespace Os132

open Op

variable {flag : SchedFlag} {ncpu n : ℕ} {s s' : State} {c d : CpuId} {lb : Label} {a : Action}
  {emb : Slot → Option (Slot × ℕ)} {op : Op} {r : List Op} {i : Slot} {f : LateStore} {ch : Choice}

/-- `fork` has made slot `i` `RUNNABLE` and has yet to make the store. -/
def Owes (s : State) (i : Slot) (f : LateStore) : Prop := ∃ p, late i f ∈ s.kstk p ∧ forkRunnable i ∉ s.kstk p

/-- A late store to slot `i`. -/
def Op.storesTo (i : Slot) : Op → Bool
  | late j _ => j = i
  | _ => false

/-- `fork` has made slot `i` `RUNNABLE` and not come to its end. -/
def Unfinished (s : State) (i : Slot) : Prop := ∃ p, (∃ op ∈ s.kstk p, op.storesTo i = true) ∧ forkRunnable i ∉ s.kstk p

instance : Decidable (Owes s i f) := inferInstanceAs (Decidable (∃ _ : Slot, _))

instance : Decidable (Unfinished s i) := inferInstanceAs (Decidable (∃ _ : Slot, _))

lemma Owes.unfinished (h : Owes s i f) : Unfinished s i := by
  obtain ⟨p, hm, hn⟩ := h
  exact ⟨p, ⟨_, hm, by simp [Op.storesTo]⟩, hn⟩

/-- The field of the store has the same value. -/
def LateStore.Same (p q : Proc) : LateStore → Prop
  | .name => p.name = q.name
  | .ctime => p.ctime = q.ctime
  | .rtime => p.rtime = q.rtime
  | .qvalueCtime | .qvalueZero => p.qvalue = q.qvalue
  | .priorityHigh => p.priority = q.priority

/-- What a run guarantees about the children that `fork` has made `RUNNABLE`. -/
structure Published (r : KRun flag ncpu n) : Prop where
  /-- A field that `fork` has yet to store is not written before: no store of `fork` undoes an update. -/
  kept : ∀ k i f, k < n → Owes (r.state k) i f → f.Same ((r.state k).proc i) ((r.state (k + 1)).proc i) ∨
    ∃ g rest, (r.state k).ops (r.label k).cpu = late i g :: rest
  /-- A pass looks at no field that `fork` has yet to store. -/
  visited : ∀ k c ch j rest f, k < n → r.label k = ⟨c, .exec ch⟩ → (r.state k).ops c = scan j :: rest → j < NPROC →
    ((r.state k).proc ((r.state k).cpu c).loc.slot).state = .runnable → flag.reads f = true →
    ¬ Owes (r.state k) ((r.state k).cpu c).loc.slot f
  /-- Nor is a process dispatched that has such a field. -/
  chosen : ∀ k c ch rest i f, k < n → r.label k = ⟨c, .exec ch⟩ → (r.state k).ops c = choose :: rest →
    ((r.state k).cpu c).loc.chosen flag (r.state k).proc = some i → flag.reads f = true → ¬ Owes (r.state k) i f

/-- No pass of `scheduler` finds or dispatches a child before the last store of `fork`; under `_RR`, where it looks
at no field, no tick is charged to a child before its `rtime` is stored. -/
def Undisturbed (flag : SchedFlag) (s : State) (lb : Label) : Prop :=
  (match lb.action, s.ops lb.cpu with
    | .exec _, scan j :: _ => decide (flag ≠ .rr → j < NPROC → (s.proc (s.cpu lb.cpu).loc.slot).state = .runnable →
        ¬ Unfinished s (s.cpu lb.cpu).loc.slot)
    | .exec _, choose :: _ => decide (∀ i, (s.cpu lb.cpu).loc.chosen flag s.proc = some i → ¬ Unfinished s i)
    | .exec _, store .rtimeIncr :: _ => decide (flag = .rr → ∀ i, (s.cpu lb.cpu).proc = some i → ¬ Owes s i .rtime)
    | _, _ => true) = true

instance : Decidable (Undisturbed flag s lb) := inferInstanceAs (Decidable (_ = true))

lemma Undisturbed.scan {j : ℕ} (h : Undisturbed flag s lb) (ha : lb.action = .exec ch) (ho : s.ops lb.cpu = scan j :: r)
    (hf : flag ≠ .rr) (hj : j < NPROC) (hr : (s.proc (s.cpu lb.cpu).loc.slot).state = .runnable) :
    ¬ Unfinished s (s.cpu lb.cpu).loc.slot := by
  simp only [Undisturbed, ha, ho, decide_eq_true_eq] at h
  exact h hf hj hr

lemma Undisturbed.choose (h : Undisturbed flag s lb) (ha : lb.action = .exec ch) (ho : s.ops lb.cpu = Op.choose :: r)
    (hc : (s.cpu lb.cpu).loc.chosen flag s.proc = some i) : ¬ Unfinished s i := by
  simp only [Undisturbed, ha, ho, decide_eq_true_eq] at h
  exact h i hc

lemma Undisturbed.tick (h : Undisturbed flag s lb) (ha : lb.action = .exec ch) (ho : s.ops lb.cpu = store .rtimeIncr :: r)
    (hf : flag = .rr) (hp : (s.cpu lb.cpu).proc = some i) : ¬ Owes s i .rtime := by
  simp only [Undisturbed, ha, ho, decide_eq_true_eq] at h
  exact h hf i hp

/-- The scan visits slots up to the end of the table only. -/
lemma StepKind.scan {j : ℕ} (h : StepKind flag s c a s') (ho : s.ops c = Op.scan j :: r) :
    (∃ ch, a = .exec ch ∧ j < NPROC) ∨ s'.mem = s.mem := by
  cases h with
  | act op r' ch m' e ho' hst ha =>
    obtain ⟨rfl, -⟩ := List.cons.inj (ho.symm.trans ho')
    simp [Os132.act] at ha
  | thread _ l _ hts hm => exact Or.inr hm
  | panic | chooseNone => exact Or.inr rfl
  | context | sched => exact Or.inr (by simp)
  | visit j' r' ch ho' hp hj | visitRun j' r' ch ho' hp hj =>
    obtain ⟨h, -⟩ := List.cons.inj (ho.symm.trans ho')
    exact Or.inl ⟨ch, rfl, Op.scan.inj h ▸ hj⟩
  | leave st r' p ch ho' => simp [ho] at ho'
  | choose i r' ch ho' => simp [ho] at ho'

lemma Store.apply_rtime (t : ℕ) (x : Proc) (g : Store) (h : g ≠ .rtimeIncr) : (g.apply t x).rtime = x.rtime := by
  unfold Store.apply
  split <;> first | rfl | exact absurd rfl h

lemma Store.same_rr (t : ℕ) (x : Proc) (g : Store) (hs : SchedFlag.rr.stores f = true) (h : f.Same x (g.apply t x) → False) :
    g = .rtimeIncr ∧ f = .rtime := by
  cases f <;> simp only [SchedFlag.stores, Bool.false_eq_true] at hs
  case name => exact (h (Store.apply_name t x g).symm).elim
  case ctime => exact (h (Store.apply_ctime t x g).symm).elim
  case rtime =>
    by_cases hg : g = .rtimeIncr
    · exact ⟨hg, rfl⟩
    · exact (h (Store.apply_rtime t x g hg).symm).elim

/-- The steps that write a field which `fork` has yet to store. -/
lemma Forking.owed (hf : Forking flag s emb) (h : StepKind flag s c a s') (ho : Owes s i f) :
    f.Same (s.proc i) (s'.proc i) ∨ (∃ g r, s.ops c = late i g :: r) ∨
      (∃ g r ch, a = .exec ch ∧ s.ops c = store g :: r ∧ (s.cpu c).proc = some i ∧ (flag = .rr → g = .rtimeIncr ∧ f = .rtime)) ∨
      ∃ j r ch, a = .exec ch ∧ s.ops c = scan j :: r ∧ j < NPROC ∧ i = (s.cpu c).loc.slot ∧ (s.proc i).state = .runnable ∧
        flag ≠ .rr := by
  obtain ⟨p, hm, hn⟩ := ho
  have hpar := (hf.after p i f hm hn).2
  have hstores := hf.stores p i f hm
  -- the child is not reaped: its parent is in `fork`
  have hwait : ∀ two r q, s.ops c = .wait two :: r → (s.cpu c).proc = some q → (s.proc i).parent ≠ some q := by
    rintro two r q ho hq hpar'
    obtain rfl := Option.some.inj (hpar.symm.trans hpar')
    have horder := hf.order p
    rw [← ops_of_proc hq, ho] at horder hm
    simpa [Op.brief] using horder.head_brief ⟨_, hm, rfl⟩
  have hscan : ∀ j r, s.ops c = scan j :: r → (∃ ch, a = .exec ch ∧ j < NPROC) ∨ f.Same (s.proc i) (s'.proc i) := by
    intro j r ho
    refine (h.scan ho).imp_right fun hmem => ?_
    rw [State.proc, State.proc, hmem]
    cases f <;> rfl
  have hrec := step_rec h i
  generalize s'.proc i = p' at hrec hscan ⊢
  cases hrec with
  | same | leave | choose => exact Or.inl (by cases f <;> rfl)
  | visit j r x v ho hj hr =>
    by_cases hrr : flag = .rr
    · subst hrr
      left
      cases f <;> first | rfl | simp [SchedFlag.stores] at hstores
    · rcases hscan j r ho with ⟨ch, ha, hlt⟩ | hsame
      · exact Or.inr (Or.inr (Or.inr ⟨j, r, ch, ha, ho, hlt, hj, hr, hrr⟩))
      · exact Or.inl hsame
  | visitRun _ _ _ _ _ _ _ hrr =>
    subst hrr
    left
    cases f <;> first | rfl | simp [SchedFlag.stores] at hstores
  | act op r ch p' ho ha hst hc =>
    cases hc with
    | late g q hop => exact Or.inr (Or.inl ⟨g, r, hop ▸ ho⟩)
    | store g hop hs =>
      by_cases hsame : f.Same (s.proc i) (g.apply s.mem.ticks (s.proc i))
      · exact Or.inl hsame
      · refine Or.inr (Or.inr (Or.inl ⟨g, r, ch, ha, hop ▸ ho, hs, fun hrr => ?_⟩))
        subst hrr
        exact Store.same_rr _ _ g hstores hsame
    | np g => exact Or.inl (by cases g <;> cases f <;> rfl)
    | reap two q hop hq hz =>
      subst hop
      exact absurd (Table.find_zombie hz).1 (hwait two r q ho hq)
    | reapReport hop hq hz =>
      subst hop
      exact absurd (Table.find_zombie hz).1 (hwait true r i ho hq)
    | same | leave | alloc | kstack | pgdir | freeKstack | free | parent | publish | wake | adopt | adoptWake | kill |
      report => exact Or.inl (by cases f <;> rfl)

/-- A child is on no CPU before its `fork` has ended. -/
def OffCpu (s : State) : Prop := ∀ i f, Owes s i f → (s.proc i).state = .runnable ∧ ∀ d, (s.cpu d).proc ≠ some i

lemma StepKind.not_current (h : StepKind flag s c a s') (hn : ∀ d, (s.cpu d).proc ≠ some i) (hf : flag ≠ .rr)
    (hc : ∀ ch r, a = .exec ch → s.ops c = Op.choose :: r → (s.cpu c).loc.chosen flag s.proc ≠ some i) :
    ∀ d, (s'.cpu d).proc ≠ some i := by
  intro d
  by_cases hd : d = c
  swap
  · rw [h.cpu_ne hd]
    exact hn d
  subst hd
  cases h with
  | thread _ l _ hts => exact hts.proc ▸ hn d
  | panic => exact hn d
  | act | leave | context => simpa [State.setOps_self] using hn d
  | sched => simp
  | visit | chooseNone => simpa [State.scanned, State.setOps_self] using hn d
  | visitRun j r ch ho hp hlt hv => exact absurd (visit_switch hv).1 hf
  | choose j r ch ho hp hj =>
    have hji : j ≠ i := by
      rintro rfl
      exact hc ch r rfl ho hj
    simpa [State.dispatch] using hji

lemma OffCpu.step (hi : Inv s emb) (hf : Forking flag s emb) (hd : OffCpu s) (hrr : flag ≠ .rr)
    (hu : ∀ ch r i, lb.action = .exec ch → s.ops lb.cpu = Op.choose :: r → (s.cpu lb.cpu).loc.chosen flag s.proc = some i →
      ¬ Unfinished s i) (h : step flag ncpu lb s = some s') : OffCpu s' := by
  rintro i f ⟨p, hm, hn⟩
  obtain ⟨hk, -⟩ := step_kind hi h
  rcases hf.origin (hf.threadMove hi h p) hm hn with ⟨hm, hn⟩ | ⟨hp, ch, r, ha, hl⟩
  · have ho : Owes s i f := ⟨p, hm, hn⟩
    obtain ⟨hr, hcur⟩ := hd i f ho
    have hcur' := hk.not_current hcur hrr fun ch r ha hch hc => hu ch r i ha hch hc ho.unfinished
    refine ⟨?_, hcur'⟩
    rcases hk.state_other hi (hcur lb.cpu) with hsh | ⟨-, -, hc⟩
    · rw [hr] at hsh
      generalize (s'.proc i).state = y at hsh
      cases hsh
      rfl
    · exact absurd hc (hcur' lb.cpu)
  · -- `fork` has just made the child `RUNNABLE`
    have hok := hi.fork p i 5 (hf.before p i (by rw [hl]; exact List.mem_cons_self))
    have hcur : ∀ d, (s.cpu d).proc ≠ some i := by
      intro d hc
      have := hi.cur d i hc
      rw [hok.state] at this
      split_ifs at this
      simp at this
    have hops := (ops_of_proc hp).trans hl
    refine ⟨?_, hk.not_current hcur hrr fun ch r _ hch => by simp [hops] at hch⟩
    have hx := label_exec h (c := lb.cpu) (by rw [← ha]) hops
    simp only [execOp, act, Option.map_some, Option.some.injEq] at hx
    rw [← hx]
    simp [State.proc]

lemma published_of_undisturbed (r : KRun flag ncpu n) (hu : r.Meets (Undisturbed flag)) : Published r := by
  have hinv : ∀ k, k ≤ n → ∃ emb, Inv (r.state k) emb ∧ Forking flag (r.state k) emb ∧ (flag ≠ .rr → OffCpu (r.state k)) := by
    refine r.invariant_of hu (P := fun s => ∃ emb, Inv s emb ∧ Forking flag s emb ∧ (flag ≠ .rr → OffCpu s))
      (fun s hb => ⟨_, hb.inv, hb.forking, fun _ i f ho => ?_⟩) ?_
    · obtain ⟨p, hm, -⟩ := ho
      exact absurd hm (hb.free p).not_late
    · rintro s l s' ⟨emb, hi, hf, hd⟩ hok h
      exact ⟨_, hi.step_inv h, hf.step hi h, fun hrr => (hd hrr).step hi hf hrr (fun _ _ _ => hok.choose) h⟩
  constructor
  · intro k i f hk ho
    obtain ⟨emb, hi, hf, hd⟩ := hinv k hk.le
    have hok := hu k hk
    rcases hf.owed (step_kind hi (r.steps k hk)).1 ho with h | h | ⟨g, rest, ch, ha, hops, hp, hrr⟩ |
      ⟨j, rest, ch, ha, hops, hj, rfl, hr, hrr⟩
    · exact Or.inl h
    · exact Or.inr h
    · by_cases hflag : flag = .rr
      · obtain ⟨rfl, rfl⟩ := hrr hflag
        exact absurd ho (hok.tick ha hops hflag hp)
      · exact absurd hp ((hd hflag i f ho).2 _)
    · exact absurd ho.unfinished (hok.scan ha hops hrr hj hr)
  · intro k c ch j rest f hk hl hops hj hr hreads ho
    have hok := hu k hk
    rw [show c = (r.label k).cpu by rw [hl]] at hops hr ho
    refine hok.scan (by rw [hl]) hops ?_ hj hr ho.unfinished
    rintro rfl
    simp [SchedFlag.reads] at hreads
  · intro k c ch rest i f hk hl hops hc hreads ho
    rw [show c = (r.label k).cpu by rw [hl]] at hops hc
    exact (hu k hk).choose (by rw [hl]) hops hc ho.unfinished

lemma Unfinished.owes (hf : Forking flag s emb) (hrr : flag ≠ .rr) (h : Unfinished s i) :
    ∃ f, flag.reads f = true ∧ Owes s i f := by
  obtain ⟨p, ⟨op, hm, hop⟩, hn⟩ := h
  cases op <;> simp only [Op.storesTo, Bool.false_eq_true, decide_eq_true_eq] at hop
  subst hop
  obtain ⟨f, hf, hmem⟩ := (hf.closes hrr p).mem hm
  exact ⟨f, hf, p, hmem, hn⟩

lemma int32_succ_ne (x : ℤ) : x ≠ int32 (x + 1) := by
  unfold int32
  rw [Int.bmod_def]
  split_ifs <;> omega

lemma undisturbed_of_published (r : KRun flag ncpu n) (hp : Published r) : r.Meets (Undisturbed flag) := by
  intro k hk
  have hforking : ∀ k, k ≤ n → ∃ emb, Inv (r.state k) emb ∧ Forking flag (r.state k) emb :=
    r.invariant (P := fun s => ∃ emb, Inv s emb ∧ Forking flag s emb) (fun s hb => ⟨_, hb.inv, hb.forking⟩)
      fun s l s' ⟨emb, hi, hf⟩ h => ⟨_, hi.step_inv h, hf.step hi h⟩
  obtain ⟨emb, hi, hf⟩ := hforking k hk.le
  have hlabel : ∀ ch, (r.label k).action = .exec ch → r.label k = ⟨(r.label k).cpu, .exec ch⟩ := by
    intro ch ha
    rw [← ha]
  unfold Undisturbed
  split
  · rename_i ch j rest ha ho
    rw [decide_eq_true_eq]
    intro hrr hj hr hun
    obtain ⟨f, hreads, howes⟩ := hun.owes hf hrr
    exact hp.visited k _ ch j rest f hk (hlabel ch ha) ho hj hr hreads howes
  · rename_i ch rest ha ho
    rw [decide_eq_true_eq]
    intro i hc hun
    have hrr : flag ≠ .rr := by
      rintro rfl
      simp [SchedLocals.chosen] at hc
    obtain ⟨f, hreads, howes⟩ := hun.owes hf hrr
    exact hp.chosen k _ ch rest i f hk (hlabel ch ha) ho hc hreads howes
  · rename_i ch rest ha ho
    rw [decide_eq_true_eq]
    intro hrr i hself howes
    rcases hp.kept k i .rtime hk howes with hsame | ⟨g, rest', ho'⟩
    · have hx := label_exec (r.steps k hk) (hlabel ch ha) ho
      simp only [execOp, act, hself, Option.map_some, Option.some.injEq] at hx
      rw [← hx] at hsame
      simp only [LateStore.Same, State.proc, Table.set_self, Store.apply] at hsame
      exact int32_succ_ne _ hsame
    · simp [ho] at ho'
  · rfl

/-- No store of `fork` undoes an update and no choice rests on what the slot held before, exactly if no pass finds or
dispatches a child before the last store of `fork`, or under `_RR` no tick is charged to it before that of `rtime`. -/
theorem published_iff (r : KRun flag ncpu n) : Published r ↔ r.Meets (Undisturbed flag) :=
  ⟨undisturbed_of_published r, published_of_undisturbed r⟩

/-- Under `_RR` a child runs on CPU 0 before `fork` on CPU 1 has ended, and a tick is charged to it that the store of
`rtime` then undoes. -/
theorem tick_undone : ¬ ∀ (flag : SchedFlag) (ncpu n : ℕ) (r : KRun flag ncpu n), Published r := by
  intro h
  obtain ⟨r, hq, hend⟩ := Lts.exists_run_of_check (step .rr 2)
    (go 1 12 ++ exec 1 (.syscall .fork) ++ go 1 6 ++ exec 1 (.page 2) ++ go 1 1 ++ exec 1 (.page 3) ++ go 1 6 ++ go 0 12 ++
      timer 0 ++ go 0 5)
    (fun k s lb => k ≠ 45 ∨ lb.cpu = 0 ∧ (s.ops 0).head? = some (store .rtimeIncr) ∧ Owes s secondproc .rtime ∧
      (s.proc secondproc).rtime = 0)
    (fun s => (s.proc secondproc).rtime = 1) boot_bootState (by decide +kernel)
  obtain ⟨hcpu, hhead, howes, h0⟩ := (of_decide_eq_true (hq 45 (by decide))).resolve_left (by decide)
  rcases (h _ _ _ r).kept 45 secondproc .rtime (by decide) howes with hsame | ⟨g, rest, ho⟩
  · have h1 := of_decide_eq_true hend
    exact absurd (h0.symm.trans (hsame.trans h1)) (by decide)
  · rw [hcpu] at ho
    simp [ho] at hhead

end Os132

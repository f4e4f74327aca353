import Os132.Kernel.Step
import Os132.Lib.WaitsFor

/-!
# Circular waits on spin locks

`ptable.lock` is taken inside `tickslock` by the timer branch of `trap` and by the `sleep` of
`sys_sleep`, and `tickslock` inside `ptable.lock` by `exit`. No other pair of locks is nested in
both orders, so a circular wait needs these two sections on two CPUs.
-/

namespace Os132

open Op

/-- The lock that a CPU spins on. -/
def State.wants (s : State) (c : CpuId) : Option Lock :=
  match s.ops c with
  | spin lk :: _ => some lk
  | _ => none

abbrev State.CircularWait (s : State) : Prop := Locks.CircularWait s.lock s.wants

/-- A CPU holds `ptable.lock` and spins on `tickslock`, which another one holds that spins on
`ptable.lock`. -/
def State.Crossed (s : State) (c d : CpuId) : Prop :=
  s.lock .ptable = some c ∧ s.wants c = some .tickslock ∧
    s.lock .tickslock = some d ∧ s.wants d = some .ptable

/-- The next step of the thread is in `acquire(&tickslock)`. -/
def atTickslock : List Op → Bool
  | acquire .tickslock :: _ | spin .tickslock :: _ => true
  | _ => false

/-- The thread takes `ptable.lock` before it drops `tickslock`. -/
def entersPtable : List Op → Bool
  | acquire .ptable :: _ | spin .ptable :: _ => true
  | release .tickslock :: _ => false
  | _ :: r => entersPtable r
  | [] => false

/-- No CPU is at `acquire(&tickslock)` under `ptable.lock`, as `exit` is before it stamps `etime`,
while the holder of `tickslock` is on its way to `ptable.lock`. -/
def Ordered (s : State) (_ : Label) : Prop :=
  ∀ c d, s.lock .ptable = some c → atTickslock (s.ops c) = true → s.lock .tickslock = some d →
    entersPtable (s.ops d) = false

/-- The order in which the locks are nested outside `exit`. -/
def Lock.rank : Lock → ℕ
  | .other _ => 0
  | .tickslock => 1
  | .ptable => 2

variable {flag : SchedFlag} {ncpu n : ℕ} {s s' : State} {lb : Label} {emb : Slot → Option (Slot × ℕ)} {c d : CpuId}
  {lk : Lock}

lemma wants_eq_some : s.wants c = some lk ↔ ∃ r, s.ops c = spin lk :: r := by
  unfold State.wants
  split
  · rename_i ho
    simp [ho]
  · rename_i hno
    refine iff_of_false (by simp) ?_
    rintro ⟨r, ho⟩
    exact hno _ _ ho

lemma State.Crossed.circularWait (h : s.Crossed c d) : s.CircularWait :=
  Locks.circularWait_of_two ⟨_, h.2.1, h.2.2.1⟩ ⟨_, h.2.2.2, h.1⟩

lemma Inv.allowed (hi : Inv s emb) (hw : s.wants c = some lk) :
    ∃ held, (∀ l, l ∈ held ↔ s.lock l = some c) ∧ lk.allowed held := by
  obtain ⟨g, hok, -, -⟩ := hi.cpu c
  obtain ⟨r, ho⟩ := wants_eq_some.mp hw
  have ht : Typed g (acquire lk :: r) := by simpa [ho, ThreadOk] using hok.thread
  exact ⟨g.held, hok.held, ht.1⟩

/-- Every circular wait is the crossing of `tickslock` and `ptable.lock`. -/
theorem Inv.crossed (hi : Inv s emb) (h : s.CircularWait) : ∃ c d, s.Crossed c d := by
  obtain ⟨c, d, l, l', l'', hl, hc, hr, hl', hd⟩ := Locks.exists_inversion Lock.rank h
  obtain ⟨held, hheld, hal⟩ := hi.allowed hc
  have hmem : l ∈ held := (hheld l).mpr hl
  obtain ⟨rfl, rfl⟩ : l = .ptable ∧ l' = .tickslock := by
    cases l' with
    | ptable =>
      have : l ≠ .ptable := fun hp => hal (hp ▸ hmem)
      cases l <;> simp_all [Lock.rank]
    | tickslock =>
      rcases hal with rfl | rfl
      · simp at hmem
      · exact ⟨by simpa using hmem, rfl⟩
    | other n =>
      have : held = [] := hal
      simp [this] at hmem
  obtain ⟨held', hheld', hal'⟩ := hi.allowed hd
  have hmem' : Lock.tickslock ∈ held' := (hheld' _).mpr hl'
  refine ⟨c, d, hl, hc, hl', ?_⟩
  cases l'' with
  | ptable => exact hd
  | tickslock => rcases hal' with rfl | rfl <;> simp at hmem'
  | other n =>
    have : held' = [] := hal'
    simp [this] at hmem'

/-- A CPU that spins after a step was at the same lock before it, and held the same locks. -/
lemma wants_before (hi : Inv s emb) (h : step flag ncpu lb s = some s') (hw : s'.wants c = some lk) :
    (∃ r, s.ops c = acquire lk :: r ∨ s.ops c = spin lk :: r) ∧
      ∀ l, s'.lock l = some c → s.lock l = some c := by
  obtain ⟨hk, -⟩ := step_kind hi h
  obtain ⟨r, ho⟩ := wants_eq_some.mp hw
  by_cases hc : c = lb.cpu
  · subst hc
    obtain ⟨ho', hl⟩ := hk.spin_origin hi ho
    exact ⟨⟨r, Or.inl ho'⟩, fun l hl' => hl ▸ hl'⟩
  · rw [hk.ops_ne hi hc] at ho
    exact ⟨⟨r, Or.inr ho⟩, fun l => (hk.lock_ne hc l).mp⟩

theorem step_not_crossed (hi : Inv s emb) (ho : Ordered s lb) (h : step flag ncpu lb s = some s') :
    ¬ s'.Crossed c d := by
  rintro ⟨hpt, hc, htk, hd⟩
  obtain ⟨⟨r, hrc⟩, hlc⟩ := wants_before hi h hc
  obtain ⟨⟨r', hrd⟩, hld⟩ := wants_before hi h hd
  have h1 : atTickslock (s.ops c) = true := by rcases hrc with hr | hr <;> rw [hr] <;> rfl
  have h2 : entersPtable (s.ops d) = true := by rcases hrd with hr | hr <;> rw [hr] <;> rfl
  have := ho c d (hlc _ hpt) h1 (hld _ htk)
  rw [h2] at this
  exact Bool.noConfusion this

lemma Boot.not_crossed (h : Boot s) : ¬ s.Crossed c d := by
  rintro ⟨hl, -⟩
  rw [h.lock] at hl
  simp at hl

/-- In a run that keeps the two sections apart no state is a circular wait. -/
theorem no_circularWait_of_ordered (r : KRun flag ncpu n) (ho : r.Meets Ordered) :
    ∀ k, k ≤ n → ¬ (r.state k).CircularWait ∧ ∀ c d, ¬ (r.state k).Crossed c d := by
  have hcross : ∀ k, k ≤ n → (∃ emb, Inv (r.state k) emb) ∧ ∀ c d, ¬ (r.state k).Crossed c d :=
    r.invariant_of ho (P := fun s => (∃ emb, Inv s emb) ∧ ∀ c d, ¬ s.Crossed c d)
      (fun s hb => ⟨⟨_, hb.inv⟩, fun c d => hb.not_crossed⟩)
      fun s l s' ⟨⟨emb, hi⟩, _⟩ hok hs => ⟨⟨_, hi.step_inv hs⟩, fun c d => step_not_crossed hi hok hs⟩
  intro k hk
  obtain ⟨⟨emb, hi⟩, hno⟩ := hcross k hk
  refine ⟨fun hw => ?_, hno⟩
  obtain ⟨c, d, hcd⟩ := hi.crossed hw
  exact hno c d hcd

/-- `Ordered` for the holders of the two locks. -/
def State.keepsApart (s : State) : Bool :=
  match s.lock .ptable, s.lock .tickslock with
  | some c, some d => !(atTickslock (s.ops c) && entersPtable (s.ops d))
  | _, _ => true

lemma ordered_of_keepsApart (h : s.keepsApart = true) : Ordered s lb := by
  intro c d hc hat hd
  unfold State.keepsApart at h
  rw [hc, hd] at h
  simpa [hat] using h

/-- The steps up to the end of `fork`, and those of the child on CPU 1 up to `acquire(&tickslock)`. -/
def childExits : List Label :=
  go 0 12 ++ exec 0 (.syscall .fork) ++ go 0 6 ++ exec 0 (.page 2) ++ go 0 1 ++ exec 0 (.page 3) ++ go 0 15 ++
  go 1 12 ++ exec 1 (.syscall .exit) ++ go 1 9

/-- The child stamps its `etime` under both locks; then the timer branch on CPU 0 waits for `ptable.lock` with
`tickslock` taken until the scan of CPU 1 is over. -/
def inTurn : List Label := childExits ++ go 1 6 ++ timer 0 ++ go 0 7 ++ go 1 65 ++ go 0 4

theorem no_circularWait_of_ordered_inTurn : ∃ r : KRun .rr 2 inTurn.length, r.Meets Ordered ∧
    ((r.state 61).lock .ptable = some 1 ∧ (r.state 61).lock .tickslock = some 1) ∧
    ((r.state 73).lock .tickslock = some 0 ∧ (r.state 73).wants 0 = some .ptable ∧ (r.state 73).lock .ptable = some 1) ∧
    (r.state 139).lock .ptable = some 0 ∧
    ∀ k, k ≤ inTurn.length → ¬ (r.state k).CircularWait ∧ ∀ c d, ¬ (r.state k).Crossed c d := by
  obtain ⟨r, hr, -⟩ := Lts.exists_run_of_check (step .rr 2) inTurn
    (fun k s _ => s.keepsApart &&
      (k ≠ 61 || s.lock .ptable = some 1 && s.lock .tickslock = some 1) &&
      (k ≠ 73 || s.lock .tickslock = some 0 && s.wants 0 = some .ptable && s.lock .ptable = some 1) &&
      (k ≠ 139 || s.lock .ptable = some 0))
    (fun _ => true) boot_bootState (by decide +kernel)
  have ho : r.Meets Ordered := fun k hk => ordered_of_keepsApart (by have := hr k hk; simp_all)
  have hlen : 139 < inTurn.length := by decide +kernel
  have h61 := hr 61 (by omega)
  have h73 := hr 73 (by omega)
  have h139 := hr 139 hlen
  simp at h61 h73 h139
  exact ⟨r, ho, h61.2, ⟨h73.2.1.1, h73.2.1.2, h73.2.2⟩, h139.2, no_circularWait_of_ordered r ho⟩

instance : Decidable (s.Crossed c d) := inferInstanceAs (Decidable (_ ∧ _ ∧ _ ∧ _))

/-- A process forks a child that calls `exit` on CPU 1; a timer interrupt arrives on CPU 0. -/
def crossing : List Label := childExits ++ timer 0 ++ go 0 7 ++ go 1 1

theorem circularWait_reachable : ¬ ∀ (flag : SchedFlag) (ncpu n : ℕ) (r : KRun flag ncpu n) (k : ℕ),
    k ≤ n → ¬ (r.state k).CircularWait := by
  intro h
  obtain ⟨r, -, hr⟩ := Lts.exists_run_of_check (step .rr 2) crossing (fun _ _ _ => true)
    (fun s => s.Crossed 1 0) boot_bootState (by decide +kernel)
  exact h _ _ _ r _ le_rfl (of_decide_eq_true hr).circularWait

end Os132

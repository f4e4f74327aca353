import Os132.Kernel.Record

/-!
# No wakeup is lost

A process that calls `sleep(chan, lk)` keeps `lk` until it holds `ptable.lock`, and keeps
`ptable.lock` until it is `SLEEPING` on `chan` and has left its CPU. A wakeup of `chan` under
`ptable.lock` therefore finds it off CPU, unless the waker held `lk` before the sleeper did.
-/

namespace Os132

open Op

/-- A scheduler has switched to process `p` in the step from `s` to `s'`. -/
def Dispatched (s s' : State) (p : Slot) : Prop :=
  (∀ c, (s.cpu c).proc ≠ some p) ∧ ∃ c, (s'.cpu c).proc = some p

/-- What a process has left to execute when it holds `ptable.lock` in `sleep(chan, lk)` and has
dropped `lk`. -/
def sleepRest (chan : Chan) (t : List Op) : List Op :=
  store (.chan (some chan)) :: schedAs .sleeping :: t

/-- The process is in `sleep(chan, lk)` and holds `lk`. -/
inductive Entering (s : State) (p : Slot) (chan : Chan) (lk : Lock) (t : List Op) : Prop
  | call (c : CpuId) (hp : (s.cpu c).proc = some p) (hne : lk ≠ .ptable) (hlk : s.lock lk = some c)
      (ho : s.ops c = acquire .ptable :: release lk :: sleepRest chan t)
  | spin (c : CpuId) (hp : (s.cpu c).proc = some p) (hne : lk ≠ .ptable) (hlk : s.lock lk = some c)
      (ho : s.ops c = spin .ptable :: release lk :: sleepRest chan t)

/-- The process is in `sleep(chan, lk)`, from where it holds `ptable.lock` until it is dispatched. -/
inductive Asleep (s : State) (p : Slot) (chan : Chan) (lk : Lock) (t : List Op) : Prop
  | drop (c : CpuId) (hp : (s.cpu c).proc = some p) (hl : s.lock .ptable = some c) (hne : lk ≠ .ptable)
      (ho : s.ops c = release lk :: sleepRest chan t)
  | mark (c : CpuId) (hp : (s.cpu c).proc = some p) (hl : s.lock .ptable = some c) (ho : s.ops c = sleepRest chan t)
  | leave (c : CpuId) (hp : (s.cpu c).proc = some p) (hl : s.lock .ptable = some c)
      (ho : s.ops c = schedAs .sleeping :: t) (hc : (s.proc p).chan = some chan)
  | switch (c : CpuId) (hp : (s.cpu c).proc = some p) (hl : s.lock .ptable = some c) (ho : s.ops c = Op.sched :: t)
      (hc : (s.proc p).chan = some chan) (hs : (s.proc p).state = .sleeping)
  | off (hp : ∀ d, (s.cpu d).proc ≠ some p)
      (hs : (s.proc p).state = .sleeping ∧ (s.proc p).chan = some chan ∨ (s.proc p).state = .runnable)

variable {flag : SchedFlag} {ncpu n : ℕ} {s s' : State} {c d : CpuId} {lb : Label} {emb : Slot → Option (Slot × ℕ)}
  {p : Slot} {chan : Chan} {lk : Lock} {t : List Op}

/-- A step of another CPU leaves a process on its CPU, its thread and its channel in place, and
also its state if its CPU holds `ptable.lock`. -/
lemma frame_current (hi : Inv s emb) (h : step flag ncpu lb s = some s') (hp : (s.cpu c).proc = some p)
    (hc : c ≠ lb.cpu) : (s'.cpu c).proc = some p ∧ s'.ops c = s.ops c ∧ (∀ l, s'.lock l = some c ↔ s.lock l = some c) ∧
      (s'.proc p).chan = (s.proc p).chan ∧ (s.lock .ptable = some c → (s'.proc p).state = (s.proc p).state) := by
  obtain ⟨hk, -⟩ := step_kind hi h
  have hother : (s.cpu lb.cpu).proc ≠ some p := fun hq => hc (hi.inj c lb.cpu p hp hq)
  refine ⟨by rw [hk.cpu_ne hc, hp], hk.ops_ne hi hc, hk.lock_ne hc, step_chan hk hother, fun hl => ?_⟩
  have hfree : s.lock .ptable ≠ some lb.cpu := by
    rw [hl]
    exact fun heq => hc (Option.some.inj heq)
  have hcur := hi.cur c p hp
  rcases hk.state_other hi hother with hsh | ⟨h1, -, h2⟩
  · generalize (s.proc p).state = x at hsh hcur
    generalize (s'.proc p).state = y at hsh
    cases hsh with
    | same => rfl
    | wake h | reap h => exact absurd h hfree
    | alloc | free | publish =>
      split_ifs at hcur
      simp at hcur
  · have hi' := hi.step_inv h
    exact absurd (hi'.inj c lb.cpu p (by rw [hk.cpu_ne hc, hp]) h2) hc

/-- A process in front of `ptable.lock` in `sleep` spins, or comes to hold the lock. -/
theorem Entering.step (hi : Inv s emb) (he : Entering s p chan lk t) (h : step flag ncpu lb s = some s') :
    Entering s' p chan lk t ∨ Asleep s' p chan lk t := by
  cases he with
  | call c hp hne hlk ho =>
    by_cases hc : c = lb.cpu
    · subst hc
      obtain ⟨g, hok, -⟩ := hi.cpu lb.cpu
      obtain ⟨ch, hx⟩ := step_self h (hi.ie_of_lock hlk) ho
      rw [execOp, if_neg (cpuOk_acquire hok ho).1] at hx
      obtain rfl := Option.some.inj hx
      have hts := threadStep_setCpu s lb.cpu (Op.spin .ptable :: release lk :: sleepRest chan t) Cpu.pushcli
        (fun _ => rfl) (fun _ => rfl)
      exact Or.inl (.spin lb.cpu (hts.proc.trans hp) hne (by simpa using hlk) hts.ops)
    · obtain ⟨hp', ho', hl', -, -⟩ := frame_current hi h hp hc
      exact Or.inl (.call c hp' hne ((hl' lk).mpr hlk) (ho'.trans ho))
  | spin c hp hne hlk ho =>
    by_cases hc : c = lb.cpu
    · subst hc
      obtain ⟨ch, hx⟩ := step_self h (hi.ie_of_lock hlk) ho
      simp only [execOp] at hx
      split_ifs at hx with hfree
      obtain rfl := Option.some.inj hx
      have hts := threadStep_setOps s lb.cpu (release lk :: sleepRest chan t) s.mem
      exact Or.inr (.drop lb.cpu (hts.proc.trans hp) (by simp) hne hts.ops)
    · obtain ⟨hp', ho', hl', -, -⟩ := frame_current hi h hp hc
      exact Or.inl (.spin c hp' hne ((hl' lk).mpr hlk) (ho'.trans ho))

/-- From there on the process reaches `SLEEPING` on `chan` with its CPU given up, where only a
wakeup, a `kill` or a dispatch moves it. -/
theorem Asleep.step (hi : Inv s emb) (ha : Asleep s p chan lk t) (h : step flag ncpu lb s = some s') :
    Asleep s' p chan lk t ∨ Dispatched s s' p := by
  cases ha with
  | drop c hp hl hne ho =>
    left
    by_cases hc : c = lb.cpu
    · subst hc
      obtain ⟨g, hok, -⟩ := hi.cpu lb.cpu
      obtain ⟨ch, hx⟩ := step_self h (hi.ie_of_lock hl) ho
      obtain ⟨hlk, heq, -⟩ := cpuOk_release hok ho
      rw [execOp, heq] at hx
      obtain rfl := Option.some.inj hx
      have hts := threadStep_unlock s lb.cpu lk (sleepRest chan t) (s.cpu lb.cpu).popped hlk
      exact .mark lb.cpu (hts.proc.trans hp) (by simp [State.unlock, Ne.symm hne, hl]) hts.ops
    · obtain ⟨hp', ho', hl', -, -⟩ := frame_current hi h hp hc
      exact .drop c hp' ((hl' _).mpr hl) hne (ho'.trans ho)
  | mark c hp hl ho =>
    left
    by_cases hc : c = lb.cpu
    · subst hc
      obtain ⟨ch, hx⟩ := step_self h (hi.ie_of_lock hl) ho
      simp only [execOp, act, hp, Option.map_some, Option.some.injEq, List.nil_append] at hx
      subst hx
      have hts := threadStep_setOps s lb.cpu (schedAs .sleeping :: t)
        { s.mem with proc := s.mem.proc.set p fun q => (Store.chan (some chan)).apply s.mem.ticks q }
      exact .leave lb.cpu (hts.proc.trans hp) (by simpa using hl) hts.ops (by simp [State.proc, Store.apply])
    · obtain ⟨hp', ho', hl', -, -⟩ := frame_current hi h hp hc
      exact .mark c hp' ((hl' _).mpr hl) (ho'.trans ho)
  | leave c hp hl ho hch =>
    left
    by_cases hc : c = lb.cpu
    · subst hc
      obtain ⟨ch, hx⟩ := step_self h (hi.ie_of_lock hl) ho
      simp only [execOp, act, hp, Option.map_some, Option.some.injEq] at hx
      subst hx
      have hts := threadStep_setOps s lb.cpu (Op.sched :: t)
        { s.mem with proc := s.mem.proc.set p fun q => { q with state := .sleeping } }
      exact .switch lb.cpu (hts.proc.trans hp) (by simpa using hl) hts.ops (by simpa [State.proc] using hch)
        (by simp [State.proc])
    · obtain ⟨hp', ho', hl', hch', -⟩ := frame_current hi h hp hc
      exact .leave c hp' ((hl' _).mpr hl) (ho'.trans ho) (hch'.trans hch)
  | switch c hp hl ho hch hs =>
    left
    by_cases hc : c = lb.cpu
    · subst hc
      obtain ⟨ch, hx⟩ := step_self h (hi.ie_of_lock hl) ho
      rw [execOp, (hi.schedStep ho hp).1] at hx
      obtain rfl := Option.some.inj hx
      refine .off (fun d hd => ?_) (Or.inl ⟨by simpa [State.proc] using hs, by simpa [State.proc] using hch⟩)
      by_cases hdc : d = lb.cpu
      · subst hdc
        simp at hd
      · rw [show (State.cpu _ d) = s.cpu d from
          (State.setCpu_ne _ _ _ hdc).trans (State.setOps_ne _ _ _ hdc)] at hd
        exact hdc (hi.inj d lb.cpu p hd hp)
    · obtain ⟨hp', ho', hl', hch', hs'⟩ := frame_current hi h hp hc
      exact .switch c hp' ((hl' _).mpr hl) (ho'.trans ho) (hch'.trans hch) ((hs' hl).trans hs)
  | off hp hs =>
    obtain ⟨hk, -⟩ := step_kind hi h
    by_cases hd : ∃ c, (s'.cpu c).proc = some p
    · exact Or.inr ⟨hp, hd⟩
    left
    push Not at hd
    refine .off hd ?_
    have hch := step_chan hk (hp lb.cpu)
    rcases hk.state_other hi (hp lb.cpu) with hsh | ⟨-, -, h2⟩
    · rw [hch]
      generalize (s.proc p).state = x at hsh hs
      generalize (s'.proc p).state = y at hsh
      cases hsh with
      | same => exact hs
      | wake => exact Or.inr rfl
      | reap | alloc | free | publish => simp at hs
    · exact absurd h2 (hd _)

lemma Entering.holds (he : Entering s p chan lk t) : ∃ c, (s.cpu c).proc = some p ∧ s.lock lk = some c := by
  cases he with
  | call c hp _ hlk | spin c hp _ hlk => exact ⟨c, hp, hlk⟩

lemma Asleep.off_of_lock (ha : Asleep s p chan lk t) (hl : s.lock .ptable = some d) (hd : (s.cpu d).proc ≠ some p) :
    (∀ c, (s.cpu c).proc ≠ some p) ∧
      ((s.proc p).state = .sleeping ∧ (s.proc p).chan = some chan ∨ (s.proc p).state = .runnable) := by
  cases ha with
  | drop c hp hl' | mark c hp hl' | leave c hp hl' | switch c hp hl' =>
    rw [hl'] at hl
    exact absurd (Option.some.inj hl ▸ hp) hd
  | off hp hs => exact ⟨hp, hs⟩

/-- The next step of CPU `d` is a `wakeup1(chan)`, on its own or as a part of `exit`. -/
def Wakes (s : State) (d : CpuId) (chan : Chan) : Prop :=
  ∃ op r, s.ops d = op :: r ∧ (op = wakeup1 chan ∨ ∃ q, (s.cpu d).proc = some q ∧
    (op = wakeupParent ∧ (∃ i, (s.proc q).parent = some i ∧ chan = .proc i) ∨
      op = reparent ∧ (s.proc.find (Proc.isZombieOf q)).isSome ∧ chan = .proc initproc))

/-- The process waits for a CPU. -/
structure Ready (s : State) (p : Slot) : Prop where
  off : ∀ d, (s.cpu d).proc ≠ some p
  state : (s.proc p).state = .runnable

theorem Ready.step (hi : Inv s emb) (hr : Ready s p) (h : step flag ncpu lb s = some s') :
    Ready s' p ∨ Dispatched s s' p := by
  obtain ⟨hk, -⟩ := step_kind hi h
  by_cases hd : ∃ c, (s'.cpu c).proc = some p
  · exact Or.inr ⟨hr.off, hd⟩
  push Not at hd
  refine Or.inl ⟨hd, ?_⟩
  have hst := hr.state
  rcases hk.state_other hi (hr.off lb.cpu) with hsh | ⟨-, -, h2⟩
  · generalize (s.proc p).state = x at hsh hst
    generalize (s'.proc p).state = y at hsh
    cases hsh with
    | same => exact hst
    | wake | reap | alloc | free | publish => simp at hst
  · exact absurd h2 (hd _)

/-- A process off CPU that sleeps on `chan` is `RUNNABLE` after `wakeup1(chan)`. -/
theorem Wakes.step (hw : Wakes s d chan) (hi : Inv s emb) (h : step flag ncpu lb s = some s') (hd : lb.cpu = d)
    (hl : s.lock .ptable = some d) (hoff : ∀ c, (s.cpu c).proc ≠ some p)
    (hs : (s.proc p).state = .sleeping ∧ (s.proc p).chan = some chan ∨ (s.proc p).state = .runnable) :
    Ready s' p := by
  subst hd
  obtain ⟨op, r, ho, hop⟩ := hw
  obtain ⟨ch, hx⟩ := step_self h (hi.ie_of_lock hl) ho
  have hwake : ∀ {tbl : Table}, tbl p = s.proc p → (tbl.wakeup1 (some chan) p).state = .runnable := by
    intro tbl ht
    unfold Table.wakeup1
    rw [ht]
    rcases hs with ⟨h1, h2⟩ | h1
    · simp [h1, h2]
    · simp [h1]
  have hcpu : ∀ m c, (({ s.setOps lb.cpu r with mem := m } : State).cpu c).proc ≠ some p := by
    intro m c
    rw [(threadStep_setOps s lb.cpu r m).proc_eq]
    exact hoff c
  rcases hop with rfl | ⟨q, hq, ⟨rfl, i, hpar, rfl⟩ | ⟨rfl, hz, rfl⟩⟩
  · simp only [execOp, act, Option.map_some, Option.some.injEq, List.nil_append] at hx
    subst hx
    exact ⟨hcpu _, hwake rfl⟩
  · simp only [execOp, act, hq, Option.map_some, Option.some.injEq, List.nil_append] at hx
    subst hx
    refine ⟨hcpu _, ?_⟩
    rw [show (s.mem.proc q).parent = some i from hpar]
    exact hwake rfl
  · simp only [execOp, act, hq, Option.map_some, Option.some.injEq, List.nil_append, if_pos hz] at hx
    subst hx
    refine ⟨hcpu _, ?_⟩
    change ((s.mem.proc.adopt q).wakeup1 (some (.proc initproc)) p).state = .runnable
    by_cases hpq : (s.proc p).parent = some q
    · have heq : s.mem.proc.adopt q p = { s.proc p with parent := some initproc } := if_pos hpq
      unfold Table.wakeup1
      rw [heq]
      rcases hs with ⟨h1, h2⟩ | h1
      · simp [h1, h2]
      · simp [h1]
    · exact hwake (if_neg hpq)

/-- CPU `d` calls `wakeup(chan)` at time `j` with `lk` held, and the call has returned at time
`k`. Under `ptable.lock` itself the call is one of `wakeup1`. -/
inductive Wakeup (r : KRun flag ncpu n) (d : CpuId) (chan : Chan) : Lock → ℕ → ℕ → Prop
  | call (lk : Lock) (j k : ℕ) (rest : List Op) (hlk : (r.state j).lock lk = some d)
      (hcall : (r.state j).ops d = wakeup chan ++ rest) (hjk : j ≤ k) (hret : (r.state k).ops d = rest)
      (hfirst : ∀ x, j ≤ x → x < k → (r.state x).ops d ≠ rest) : Wakeup r d chan lk j k
  | locked (j : ℕ) (hlk : (r.state j).lock .ptable = some d) (hcall : Wakes (r.state j) d chan)
      (hstep : (r.label j).cpu = d) : Wakeup r d chan .ptable j (j + 1)

/-- The process has been dispatched between times `i` and `k`. -/
def Ran (r : KRun flag ncpu n) (p : Slot) (i k : ℕ) : Prop :=
  ∃ x, i ≤ x ∧ x < k ∧ Dispatched (r.state x) (r.state (x + 1)) p

lemma Ran.mono {r : KRun flag ncpu n} {i k k' : ℕ} (h : Ran r p i k) (hk : k ≤ k') : Ran r p i k' := by
  obtain ⟨x, h1, h2, h3⟩ := h
  exact ⟨x, h1, by omega, h3⟩

/-- From its call of `sleep` until it is dispatched again a process goes through the phases. -/
theorem run_sleep (r : KRun flag ncpu n) {i j : ℕ} (hj : j ≤ n)
    (he : Entering (r.state i) p chan lk t ∨ Asleep (r.state i) p chan lk t) :
    ∀ k, i ≤ k → k ≤ j → Entering (r.state k) p chan lk t ∨ Asleep (r.state k) p chan lk t ∨ Ran r p i k := by
  refine r.preserved (P := fun k s => Entering s p chan lk t ∨ Asleep s p chan lk t ∨ Ran r p i k) hj
    (he.imp_right Or.inl) fun k hik hkj hP hstep => ?_
  obtain ⟨emb, hi⟩ := run_inv r k (by omega)
  rcases hP with hP | hP | hP
  · exact (hP.step hi hstep).imp_right Or.inl
  · exact Or.inr ((hP.step hi hstep).imp_right fun hd => ⟨k, hik, by omega, hd⟩)
  · exact Or.inr (Or.inr (hP.mono (by omega)))

/-- Where the thread of the waker is during a call of `wakeup`, with the sleeper's state. -/
inductive Waking (s : State) (d : CpuId) (p : Slot) (chan : Chan) (lk : Lock) (t rest : List Op) : Prop
  | before (ha : Asleep s p chan lk t) (hd : (s.cpu d).proc ≠ some p) (hlk : s.lock lk = some d)
      (ho : s.ops d = wakeup chan ++ rest ∨ s.ops d = spin .ptable :: wakeup1 chan :: release .ptable :: rest)
  | locked (ha : Asleep s p chan lk t) (hd : (s.cpu d).proc ≠ some p) (hl : s.lock .ptable = some d)
      (ho : s.ops d = wakeup1 chan :: release .ptable :: rest)
  | woken (hr : Ready s p) (hl : s.lock .ptable = some d) (ho : s.ops d = release .ptable :: rest)
  | returned (hr : Ready s p) (ho : s.ops d = rest)

theorem Waking.step {rest : List Op} (hi : Inv s emb) (hw : Waking s d p chan lk t rest)
    (hret : s.ops d ≠ rest) (h : step flag ncpu lb s = some s') :
    Waking s' d p chan lk t rest ∨ Dispatched s s' p := by
  obtain ⟨hk, -⟩ := step_kind hi h
  have hcpu : lb.cpu ≠ d → s'.cpu d = s.cpu d := fun hc => hk.cpu_ne (Ne.symm hc)
  have hops : lb.cpu ≠ d → s'.ops d = s.ops d := fun hc => hk.ops_ne hi (Ne.symm hc)
  have hlock : lb.cpu ≠ d → ∀ l, s'.lock l = some d ↔ s.lock l = some d := fun hc l => hk.lock_ne (Ne.symm hc) l
  cases hw with
  | before ha hd hlk ho =>
    refine (ha.step hi h).imp_left fun ha' => ?_
    by_cases hc : lb.cpu = d
    · subst hc
      have hie := hi.ie_of_lock hlk
      rcases ho with ho | ho
      · have ho' : s.ops lb.cpu = acquire .ptable :: wakeup1 chan :: release .ptable :: rest := ho
        obtain ⟨g, hok, -⟩ := hi.cpu lb.cpu
        obtain ⟨ch, hx⟩ := step_self h hie ho'
        rw [execOp, if_neg (cpuOk_acquire hok ho').1] at hx
        obtain rfl := Option.some.inj hx
        have hts := threadStep_setCpu s lb.cpu (spin .ptable :: wakeup1 chan :: release .ptable :: rest) Cpu.pushcli
          (fun _ => rfl) (fun _ => rfl)
        exact .before ha' (by rw [hts.proc]; exact hd) (by simpa using hlk) (Or.inr hts.ops)
      · obtain ⟨ch, hx⟩ := step_self h hie ho
        simp only [execOp] at hx
        split_ifs at hx with hfree
        obtain rfl := Option.some.inj hx
        have hts := threadStep_setOps s lb.cpu (wakeup1 chan :: release .ptable :: rest) s.mem
        exact .locked ha' (by rw [hts.proc_eq]; exact hd) (by simp) hts.ops
    · exact .before ha' (by rw [hcpu hc]; exact hd) ((hlock hc lk).mpr hlk) (by rw [hops hc]; exact ho)
  | locked ha hd hl ho =>
    by_cases hc : lb.cpu = d
    · left
      obtain ⟨hoff, hs⟩ := ha.off_of_lock hl hd
      have hr := Wakes.step ⟨_, _, ho, Or.inl rfl⟩ hi h hc hl hoff hs
      subst hc
      obtain ⟨ch, hx⟩ := step_self h (hi.ie_of_lock hl) ho
      simp only [execOp, act, Option.map_some, Option.some.injEq, List.nil_append] at hx
      subst hx
      exact .woken hr (by simpa using hl) (threadStep_setOps s lb.cpu (release .ptable :: rest) _).ops
    · exact (ha.step hi h).imp_left fun ha' =>
        .locked ha' (by rw [hcpu hc]; exact hd) ((hlock hc _).mpr hl) (by rw [hops hc]; exact ho)
  | woken hr hl ho =>
    refine (hr.step hi h).imp_left fun hr' => ?_
    by_cases hc : lb.cpu = d
    · subst hc
      obtain ⟨g, hok, -⟩ := hi.cpu lb.cpu
      obtain ⟨ch, hx⟩ := step_self h (hi.ie_of_lock hl) ho
      obtain ⟨-, heq, -⟩ := cpuOk_release hok ho
      rw [execOp, heq] at hx
      obtain rfl := Option.some.inj hx
      exact .returned hr' (threadStep_unlock s lb.cpu .ptable rest (s.cpu lb.cpu).popped hl).ops
    · exact .woken hr' ((hlock hc _).mpr hl) (by rw [hops hc]; exact ho)
  | returned _ ho => exact absurd ho hret

/-- A process that calls `sleep(chan, lk)` is in the first phase, or past it when `lk` is
`ptable.lock`. -/
lemma sleep_entering (hi : Inv s emb) (hp : (s.cpu c).proc = some p) {rest : List Op}
    (ho : s.ops c = sleep chan lk ++ rest) :
    ∃ t, Entering s p chan lk t ∨ Asleep s p chan lk t := by
  obtain ⟨g, hok, -⟩ := hi.cpu c
  by_cases hlk : lk = .ptable
  · subst hlk
    have ho' : s.ops c = sleepRest chan (store (.chan none) :: rest) := ho
    have ht := hok.typed ho' (by simp) (by simp)
    have hheld : g.held = [.ptable] := ht.1
    exact ⟨_, Or.inr (.mark c hp ((hok.held _).mp (by simp [hheld])) ho')⟩
  · have ho' : s.ops c = acquire .ptable :: release lk ::
        sleepRest chan (store (.chan none) :: release .ptable :: acquire lk :: rest) := by
      simpa [sleep, hlk, sleepRest] using ho
    have ht := typed_cons (hok.typed ho' (by simp) (by simp)) (by simp)
    have hmem : lk ∈ Lock.ptable :: g.held := ht.2.1
    have hheld : lk ∈ g.held := by simpa [hlk] using hmem
    exact ⟨_, Or.inl (.call c hp hlk ((hok.held _).mp hheld) ho')⟩

/-- No lost wakeup: the process that called `sleep(chan, lk)` at time `i` is `RUNNABLE`, or has
run again, when a call of `wakeup(chan)` returns that was made later with `lk` held. -/
theorem no_lost_wakeup (r : KRun flag ncpu n) {i j k : ℕ} {rest : List Op} (hij : i ≤ j) (hk : k ≤ n)
    (hp : ((r.state i).cpu c).proc = some p) (hsleep : (r.state i).ops c = sleep chan lk ++ rest)
    (hother : ((r.state j).cpu d).proc ≠ some p) (hw : Wakeup r d chan lk j k) :
    ((r.state k).proc p).state = .runnable ∨ Ran r p i k := by
  have hjk : j ≤ k := by
    cases hw with
    | call _ _ _ _ _ _ hjk => exact hjk
    | locked => exact Nat.le_succ j
  obtain ⟨emb, hi⟩ := run_inv r i (by omega)
  obtain ⟨emb', hi'⟩ := run_inv r j (by omega)
  obtain ⟨t, he⟩ := sleep_entering hi hp hsleep
  have hlk : (r.state j).lock lk = some d := by cases hw <;> assumption
  obtain ha | hran : Asleep (r.state j) p chan lk t ∨ Ran r p i j := by
    rcases run_sleep r (by omega : j ≤ n) he j hij le_rfl with he' | h
    · obtain ⟨c', hc', hl'⟩ := he'.holds
      rw [hlk] at hl'
      exact absurd (Option.some.inj hl' ▸ hc') hother
    · exact h
  swap
  · exact Or.inr (hran.mono hjk)
  cases hw with
  | locked _ hl hcall hstep =>
    obtain ⟨hoff, hs⟩ := ha.off_of_lock hl hother
    exact Or.inl (hcall.step hi' (r.steps j (by omega)) hstep hl hoff hs).state
  | call _ _ _ rest' hlk hcall hjk hret hfirst =>
    have hwaking : ∀ x, j ≤ x → x ≤ k → Waking (r.state x) d p chan lk t rest' ∨ Ran r p i x := by
      refine r.preserved (P := fun x s => Waking s d p chan lk t rest' ∨ Ran r p i x) hk
        (Or.inl (.before ha hother hlk (Or.inl hcall))) fun x hjx hxk hP hstep => ?_
      obtain ⟨emb'', hi''⟩ := run_inv r x (by omega)
      rcases hP with hP | hP
      · exact (hP.step hi'' (hfirst x hjx hxk) hstep).imp_right fun hd => ⟨x, by omega, by omega, hd⟩
      · exact Or.inr (hP.mono (by omega))
    have hlen : ∀ l : List Op, l ++ rest' = rest' → l = [] := fun l h => by simpa using h
    rcases hwaking k hjk le_rfl with hP | hP
    · cases hP with
      | before _ _ _ ho =>
        rw [hret] at ho
        rcases ho with ho | ho
        · exact absurd (hlen _ ho.symm) (by simp [wakeup])
        · exact absurd (hlen [spin .ptable, wakeup1 chan, release .ptable] ho.symm) (by simp)
      | locked _ _ _ ho =>
        rw [hret] at ho
        exact absurd (hlen [wakeup1 chan, release .ptable] ho.symm) (by simp)
      | woken hr _ ho =>
        rw [hret] at ho
        exact absurd (hlen [release .ptable] ho.symm) (by simp)
      | returned hr => exact Or.inl hr.state
    · exact Or.inr hP

/-- The first process calls `sleep(1)` and a timer interrupt arrives. -/
def napping : List Label :=
  go 0 12 ++ exec 0 (.syscall (.sleep 1)) ++ go 0 80 ++ timer 0 ++ go 0 10

theorem no_lost_wakeup_napping : ∃ r : KRun .rr 1 104,
    ((r.state 104).proc initproc).state = .runnable ∨ Ran r initproc 20 104 := by
  obtain ⟨r, hr, hend⟩ := Lts.exists_run_of_check (step .rr 1) napping
    (fun x s _ =>
      (x ≠ 20 ∨ (s.cpu 0).proc = some initproc ∧
        s.ops 0 = sleep .ticks .tickslock ++ [sleepTest 1 0, ifKilledExit true, iret, user]) ∧
      (x ≠ 100 ∨ (s.cpu 0).proc ≠ some initproc ∧ s.lock .tickslock = some 0 ∧
        s.ops 0 = wakeup .ticks ++ release .tickslock :: (trapTimer false).tail ++ schedPass) ∧
      (x < 100 ∨ s.ops 0 ≠ release .tickslock :: (trapTimer false).tail ++ schedPass))
    (fun s => s.ops 0 = release .tickslock :: (trapTimer false).tail ++ schedPass) boot_bootState
    (by decide +kernel)
  have hq := fun x hx => of_decide_eq_true (hr x hx)
  have h20 := (hq 20 (by decide)).1.resolve_left (by decide)
  have h100 := (hq 100 (by decide)).2.1.resolve_left (by decide)
  refine ⟨r, no_lost_wakeup r (by decide : 20 ≤ 100) le_rfl h20.1 h20.2 h100.1 (.call .tickslock 100 104 _
    h100.2.1 h100.2.2 (by decide) (of_decide_eq_true hend) fun x h1 h2 => ?_)⟩
  exact (hq x h2).2.2.resolve_left (by omega)

end Os132

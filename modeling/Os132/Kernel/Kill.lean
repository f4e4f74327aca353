import Os132.Kernel.Record

/-!
# `kill` and the flag `killed`

`kill` looks for a pid in all slots, also in the `UNUSED` ones, whose pid is zero or left over
from a `fork` that failed; `allocproc` does not clear `killed`. As long as no `kill` finds an
`UNUSED` slot and no `fork` gives back a slot that has been killed, the flag of every `UNUSED`
slot is clear, and so is that of every new process.
-/

namespace Os132

open Op

variable {flag : SchedFlag} {ncpu n : ℕ} {s s' : State} {c : CpuId} {lb : Label} {emb : Slot → Option (Slot × ℕ)}
  {a : Action} {op : Op} {r : List Op} {j : Slot}

/-- If the step is a `kill`, the first slot with the pid is in use; if it gives back a slot in
`fork`, the slot is not killed. -/
def KillOk (s : State) (lb : Label) : Prop :=
  (match lb.action, s.ops lb.cpu with
    | .exec _, .kill pid :: _ => (s.proc.find fun p => p.pid = pid).all fun j => (s.proc j).state ≠ .unused
    | .exec _, forkUnused j :: _ => !(s.proc j).killed
    | _, _ => true) = true

instance : Decidable (KillOk s lb) := inferInstanceAs (Decidable (_ = true))

lemma KillOk.kill (h : KillOk s lb) {ch : Choice} {pid : Int} (ha : lb.action = .exec ch)
    (ho : s.ops lb.cpu = .kill pid :: r) (hj : s.proc.find (fun p => p.pid = pid) = some j) :
    (s.proc j).state ≠ .unused := by
  simpa [KillOk, ha, ho, hj] using h

lemma KillOk.forkUnused (h : KillOk s lb) {ch : Choice} (ha : lb.action = .exec ch)
    (ho : s.ops lb.cpu = .forkUnused j :: r) : (s.proc j).killed = false := by
  simpa [KillOk, ha, ho] using h

/-- The next step of a CPU sets `killed` of slot `j`: `kill` finds it, or its process faults. -/
def SetsKilled (s : State) (c : CpuId) (j : Slot) : Prop :=
  ∃ op r, s.ops c = op :: r ∧
    ((∃ pid, op = .kill pid ∧ s.proc.find (fun p => p.pid = pid) = some j) ∨
      op = store .killed ∧ (s.cpu c).proc = some j)

lemma Store.apply_killed (t : ℕ) (p : Proc) (f : Store) (h : f ≠ .killed) : (f.apply t p).killed = p.killed := by
  unfold Store.apply
  split <;> first | rfl | exact absurd rfl h

/-- Every change of the flag: a step sets it on purpose, or reaps the slot. -/
lemma step_killed (h : StepKind flag s c a s') (j : Slot) : (s'.proc j).killed = (s.proc j).killed ∨
    SetsKilled s c j ∨ (s'.proc j).killed = false := by
  have hrec := step_rec h j
  generalize s'.proc j = p' at hrec
  cases hrec with
  | same | visit | visitRun | choose | leave => exact Or.inl rfl
  | act op r ch p' ho ha hst hc =>
    generalize s.proc j = p at hc
    cases hc with
    | store f hop hs =>
      by_cases hf : f = .killed
      · subst hf
        exact Or.inr (Or.inl ⟨op, r, ho, Or.inr ⟨hop, hs⟩⟩)
      · exact Or.inl (Store.apply_killed _ _ _ hf)
    | kill pid hop hfind => exact Or.inr (Or.inl ⟨op, r, ho, Or.inl ⟨pid, hop, hfind⟩⟩)
    | reap | reapReport => exact Or.inr (Or.inr rfl)
    | np | late => exact Or.inl (by simp)
    | same | leave | alloc | kstack | pgdir | freeKstack | free | parent | publish | wake | adopt | adoptWake |
      report => exact Or.inl rfl

/-- The flag is clear in every `UNUSED` slot. -/
def Clear (s : State) : Prop := ∀ j, (s.proc j).state = .unused → (s.proc j).killed = false

lemma Boot.clear (h : Boot s) : Clear s := by
  intro j _
  rw [State.proc, h.mem, userinit]
  dsimp only
  split_ifs <;> rfl

/-- A step that takes a slot out of use leaves its flag clear. -/
theorem Clear.step (hc : Clear s) (hi : Inv s emb) (hok : KillOk s lb) (h : step flag ncpu lb s = some s') :
    Clear s' := by
  intro j hu
  obtain ⟨hk, -⟩ := step_kind hi h
  have hrec := step_rec hk j
  have hst := hc j
  generalize s'.proc j = p' at hrec hu
  cases hrec with
  | same => exact hst hu
  | visit _ _ _ _ _ _ hr => exact absurd (hr.symm.trans hu) (by simp)
  | visitRun | choose => simp at hu
  | leave st r ho hp =>
    obtain ⟨g, hcpu, -⟩ := hi.cpu lb.cpu
    have ht := (hcpu.typed ho (by simp) (by simp)).1
    have hmem : st ∈ [ProcState.runnable, .sleeping, .zombie] := ht.2.1
    simp only at hu
    simp [hu] at hmem
  | act op r ch p' ho ha hstep hpc =>
    generalize hp : s.proc j = p at hpc hst
    cases hpc with
    | store f hop hs =>
      have hrun := hi.state_of_cur hs (by rw [ho, hop]; rfl)
      rw [hp] at hrun
      simp [hrun] at hu
    | kill pid hop hfind =>
      subst hop
      have := hok.kill ha ho hfind
      unfold Proc.kill at hu
      rw [hp] at this
      split_ifs at hu
      exact absurd hu this
    | free hop =>
      subst hop
      exact hp ▸ hok.forkUnused ha ho
    | reap | reapReport => rfl
    | np | late => simpa using hst (by simpa using hu)
    | alloc | publish | wake | adoptWake => simp at hu
    | leave st hop => exact absurd hop (hstep st)
    | same | kstack | pgdir | freeKstack | parent | adopt | report => exact hst hu

/-- What callers may expect of `kill` in a run. -/
structure KillSound (r : KRun flag ncpu n) : Prop where
  /-- A call that returns zero has found a process in use with the pid, and has changed no other. -/
  zero : ∀ k c ch pid rest, k < n → r.label k = ⟨c, .exec ch⟩ → (r.state k).ops c = .kill pid :: rest →
    (r.state (k + 1)).ops c = release .ptable :: store (.eax 0) :: rest →
    ∃ j, ((r.state k).proc j).pid = pid ∧ ((r.state k).proc j).state ≠ .unused ∧
      ∀ i, i ≠ j → (r.state (k + 1)).proc i = (r.state k).proc i
  /-- A call that fails changes nothing. -/
  fail : ∀ k c ch pid rest, k < n → r.label k = ⟨c, .exec ch⟩ → (r.state k).ops c = .kill pid :: rest →
    (r.state (k + 1)).ops c ≠ release .ptable :: store (.eax 0) :: rest → (r.state (k + 1)).mem = (r.state k).mem
  /-- A slot that `allocproc` gives a pid is not killed. -/
  fresh : ∀ k c ch rest j, k < n → r.label k = ⟨c, .exec ch⟩ → (r.state k).ops c = allocproc :: rest →
    (r.state k).proc.find Proc.isUnused = some j → ((r.state (k + 1)).proc j).killed = false
  /-- A process is killed only after it got its pid. -/
  later : ∀ a b c ch rest j, a < b → b ≤ n → r.label a = ⟨c, .exec ch⟩ → (r.state a).ops c = allocproc :: rest →
    (r.state a).proc.find Proc.isUnused = some j → ((r.state b).proc j).killed = true →
    ∃ x, a < x ∧ x < b ∧ SetsKilled (r.state x) (r.label x).cpu j

theorem killSound_of_killOk (r : KRun flag ncpu n) (hok : r.Meets KillOk) : KillSound r := by
  have hclear : ∀ k, k ≤ n → (∃ emb, Inv (r.state k) emb) ∧ Clear (r.state k) :=
    r.invariant_of hok (P := fun s => (∃ emb, Inv s emb) ∧ Clear s) (fun s hb => ⟨⟨_, hb.inv⟩, hb.clear⟩)
      fun s l s' ⟨⟨emb, hi⟩, hc⟩ hk hs => ⟨⟨_, hi.step_inv hs⟩, hc.step hi hk hs⟩
  have hfresh : ∀ k c ch rest j, k < n → r.label k = ⟨c, .exec ch⟩ → (r.state k).ops c = allocproc :: rest →
      (r.state k).proc.find Proc.isUnused = some j → ((r.state (k + 1)).proc j).killed = false := by
    intro k c ch rest j hk hl ho hj
    have hx := label_exec (r.steps k hk) hl ho
    simp only [execOp, act, hj, Option.map_some, Option.some.injEq] at hx
    rw [← hx]
    simpa [State.proc] using (hclear k hk.le).2 j (Table.find_unused hj)
  refine ⟨?_, ?_, hfresh, ?_⟩
  · intro k c ch pid rest hk hl ho hret
    have hx := label_exec (r.steps k hk) hl ho
    simp only [execOp, act] at hx
    cases hfind : (r.state k).mem.proc.find fun p => p.pid = pid with
    | none =>
      simp only [hfind, Option.map_some, Option.some.injEq] at hx
      rw [← hx, (threadStep_setOps (r.state k) c _ _).ops] at hret
      simp at hret
    | some j =>
      refine ⟨j, by simpa using Table.find_some hfind, ?_, fun i hij => ?_⟩
      · exact (hok k hk).kill (by rw [hl]) (by rw [hl]; exact ho) hfind
      · simp only [hfind, Option.map_some, Option.some.injEq] at hx
        rw [← hx]
        simp [State.proc, Table.set_of_ne _ _ hij]
  · intro k c ch pid rest hk hl ho hret
    have hx := label_exec (r.steps k hk) hl ho
    simp only [execOp, act] at hx
    cases hfind : (r.state k).mem.proc.find fun p => p.pid = pid with
    | none =>
      simp only [hfind, Option.map_some, Option.some.injEq] at hx
      rw [← hx]
    | some j =>
      simp only [hfind, Option.map_some, Option.some.injEq] at hx
      exact absurd (by rw [← hx, (threadStep_setOps (r.state k) c _ _).ops]; rfl) hret
  · intro a b c ch rest j hab hb hl ho hj hkilled
    by_contra hno
    push Not at hno
    have := r.preserved (P := fun _ s => (s.proc j).killed = false) hb
      (hfresh a c ch rest j (by omega) hl ho hj) (fun x hax hxb hP hstep => ?_) b (by omega) le_rfl
    · simp [this] at hkilled
    · obtain ⟨⟨emb, hi⟩, -⟩ := hclear x (by omega)
      rcases step_killed (step_kind hi hstep).1 j with h | h | h
      · exact h.trans hP
      · exact absurd h (hno x (by omega) hxb)
      · exact h

/-- The first process kills itself. -/
theorem killSound_of_killOk_self : ∃ r : KRun .rr 1 18,
    ((r.state 17).ops 0).head? = some (.kill 1) ∧ KillSound r := by
  obtain ⟨r, hr, -⟩ := Lts.exists_run_of_check (step .rr 1)
    (go 0 12 ++ exec 0 (.syscall (.kill 1)) ++ go 0 5)
    (fun x s lb => KillOk s lb ∧ (x ≠ 17 ∨ (s.ops 0).head? = some (.kill 1))) (fun _ => true)
    boot_bootState (by decide +kernel)
  have hq := fun x hx => of_decide_eq_true (hr x hx)
  exact ⟨r, (hq 17 (by decide)).2.resolve_left (by decide), killSound_of_killOk r fun x hx => (hq x hx).1⟩

/-- `kill(0)` succeeds: it finds an `UNUSED` slot. -/
theorem kill_zero_not_sound : ¬ ∀ (flag : SchedFlag) (ncpu n : ℕ) (r : KRun flag ncpu n), KillSound r := by
  intro h
  obtain ⟨r, hr, hend⟩ := Lts.exists_run_of_check (step .rr 1)
    (go 0 12 ++ exec 0 (.syscall (.kill 0)) ++ go 0 5)
    (fun x s lb => x ≠ 17 ∨ lb = ⟨0, .exec .go⟩ ∧ s.ops 0 = .kill 0 :: [ifKilledExit true, iret, user] ∧
      ∀ j, (s.proc j).pid = 0 → (s.proc j).state = .unused)
    (fun s => s.ops 0 = release .ptable :: store (.eax 0) :: [ifKilledExit true, iret, user])
    boot_bootState (by decide +kernel)
  obtain ⟨hl, ho, hunused⟩ := (of_decide_eq_true (hr 17 (by decide))).resolve_left (by decide)
  obtain ⟨j, hpid, hst, -⟩ := (h _ _ _ r).zero 17 0 .go 0 _ (by decide) hl ho (of_decide_eq_true hend)
  exact hst (hunused j hpid)

end Os132

import Os132.Cli.Turn

/-!
# The invariant of the machine

Every CPU agrees with its thread, no two CPUs run the same thread, and a thread that no CPU runs has
`ptable.lock` as its only lock: it is taken over by the scheduler in `sched`, and back by the thread
when a scheduler dispatches it.
-/

namespace Os132

namespace Cli

/-- A thread that no CPU runs: in `sched`, or new. -/
structure Parked {Lock : Type} (ptable : Lock) (x : Thread Lock) : Prop where
  locks : x.locks = [ptable]
  pushes : x.pushes = 0
  pc : x.pc = .idle ∨ x.pc = .resume
  frames : x.FramesOk

/-- The invariant of the machine. -/
structure Inv {Cpu Proc Lock : Type} (ptable : Lock) (s : State Cpu Proc Lock) : Prop where
  fine : ∀ c, Fine ptable c s.holder (s.cpu c) (s.on c)
  home : ∀ c d, (s.cpu c).curr = .sched d → d = c
  alone : ∀ c d p, (s.cpu c).curr = .proc p → (s.cpu d).curr = .proc p → c = d
  away : ∀ p, (∀ c, (s.cpu c).curr ≠ .proc p) → Parked ptable (s.thread (.proc p))
  waiting : ∀ c, (s.cpu c).curr ≠ .sched c → (s.thread (.sched c)).Only ptable ∧ (s.thread (.sched c)).FramesOk

section Runs

variable {Cpu Proc Lock : Type} {ptable : Lock} {c d : Cpu} {p q : Proc} {holder holder' : Lock → Option Cpu}
  {k : CpuState Cpu Proc} {x : Thread Lock} {s s' : State Cpu Proc Lock}

lemma Parked.depth (h : Parked ptable x) : x.depth = 1 := by
  rcases h.pc with hpc | hpc <;> simp [Thread.depth, Pc.extra, h.locks, h.pushes, hpc]

lemma Fine.congr (h : Fine ptable c holder k x) (hh : ∀ l, holder' l = some c ↔ holder l = some c) :
    Fine ptable c holder' k x :=
  ⟨h.ncli, h.off, fun l => (hh l).trans (h.holder l), h.nodup, h.only, h.read, h.frames, h.running, h.stopped, h.panic⟩

/-- A thread with only `ptable.lock` may take the place of another one on a CPU that holds no other lock. -/
lemma Fine.swtch {k' : CpuState Cpu Proc} {y : Thread Lock} (h : Fine ptable c holder k x) (hl : x.locks = [ptable])
    (hx : x.depth = 1) (hy : y.locks = [ptable]) (hp : y.pushes = 0) (hpc : y.pc = .idle ∨ y.pc = .resume ∧ k'.curr.isProc = true)
    (hf : y.FramesOk) (hr : k'.curr.isProc = true → y.running = true) (hncli : k'.ncli = k.ncli)
    (hflag : k'.flag = k.flag) (hpanic : k'.panic = k.panic) : Fine ptable c holder k' y := by
  have hd : y.depth = 1 := by
    rcases hpc with hpc | ⟨hpc, -⟩ <;> simp [Thread.depth, Pc.extra, hy, hp, hpc]
  constructor
  · rw [hncli, h.ncli, hx, hd]
  · intro _
    rw [hflag]
    exact h.off (by omega)
  · intro l
    rw [hy, ← hl]
    exact h.holder l
  · rw [hy, ← hl]
    exact h.nodup
  · rintro (he | he)
    · rcases hpc with hpc | ⟨hpc, -⟩ <;> simp [hpc] at he
    · rcases hpc with hpc | ⟨-, hc⟩
      · simp [hpc] at he
      · exact ⟨hy, hp, hc⟩
  · intro e lk he
    rcases hpc with hpc | ⟨hpc, -⟩ <;> simp [hpc] at he
  · exact hf
  · exact fun hc => Or.inl (hr hc)
  · intro he
    rcases hpc with hpc | ⟨hpc, -⟩ <;> simp [hpc] at he
  · rw [hpanic]
    exact h.panic

lemma on_eq (hc : (s.cpu c).curr = .proc p) : s.on c = s.thread (.proc p) := by
  rw [State.on, hc]

namespace Inv

lemma curr_ne (h : Inv ptable s) (hdc : d ≠ c) : (s.cpu d).curr ≠ (s.cpu c).curr := by
  intro heq
  cases hc : (s.cpu c).curr with
  | sched e =>
    rw [hc] at heq
    exact hdc ((h.home d e heq).symm.trans (h.home c e hc))
  | proc p =>
    rw [hc] at heq
    exact hdc (h.alone d c p heq hc)

lemma on_of_depth (h : Inv ptable s) (hd : (s.thread (.proc p)).depth = 0) : ∃ c, (s.cpu c).curr = .proc p := by
  by_contra hno
  have := (h.away p (fun c hc => hno ⟨c, hc⟩)).depth
  omega

/-- A process that a scheduler may choose is on no CPU. -/
lemma not_on (h : Inv ptable s) (hc : (s.cpu c).curr = .sched c) (ho : (s.on c).Only ptable)
    (hp : (s.thread (.proc p)).running = false) (d : Cpu) : (s.cpu d).curr ≠ .proc p := by
  intro hd
  have hfine := h.fine d
  have hon := on_eq hd
  have hpc : (s.on d).pc = .leaving := by
    refine (hfine.running (by simp [hd, Tid.isProc])).resolve_left ?_
    simp [hon, hp]
  have hmine := ((h.fine c).holder ptable).mpr (by simp [ho.2.1])
  have hyours := (hfine.holder ptable).mpr (by simp [(hfine.only (Or.inl hpc)).1])
  rw [hmine] at hyours
  injection hyours with hcd
  rw [← hcd, hc] at hd
  simp at hd

lemma init (h : Init ptable s) : Inv ptable s := by
  obtain ⟨hcpu, hfree, hsched, hproc⟩ := h
  have hcurr : ∀ c, (s.cpu c).curr = .sched c := fun c => (hcpu c).2.1
  constructor
  · intro c
    have hon : s.on c = s.thread (.sched c) := by rw [State.on, hcurr]
    obtain ⟨hbare, hframes⟩ := hsched c
    have hbare' : (s.on c).Bare := hon ▸ hbare
    constructor
    · rw [(hcpu c).1, hbare'.depth]
      rfl
    · intro hd
      have := hbare'.depth
      omega
    · simp [hfree, hbare'.2.1]
    · simp [hbare'.2.1]
    · simp [hbare'.1]
    · simp [hbare'.1]
    · rw [Thread.FramesOk, hon, hframes]
      simp
    · simp [hcurr, Tid.isProc]
    · simp [hbare'.1]
    · exact Or.inl (hcpu c).2.2
  · intro c d hd
    rw [hcurr] at hd
    injection hd with hd
    exact hd.symm
  · intro c d p hc
    rw [hcurr] at hc
    simp at hc
  · intro p _
    obtain ⟨honly, hframes, -⟩ := hproc p
    refine ⟨honly.2.1, honly.2.2, Or.inl honly.1, ?_⟩
    rw [Thread.FramesOk, hframes]
    simp
  · intro c hc
    exact absurd (hcurr c) hc

lemma parked (h : Inv ptable s) (hpc : (s.on c).pc = .leaving) (i : Bool) :
    Parked ptable { s.on c with pc := .resume, intena := i } := by
  obtain ⟨hl, hp, -⟩ := (h.fine c).only (Or.inl hpc)
  exact ⟨hl, hp, Or.inr rfl, (h.fine c).frames⟩

lemma schedPanic_eq [DecidableEq Cpu] (h : Inv ptable s) (hpc : (s.on c).pc = .leaving) :
    schedPanic ptable c s.holder (s.cpu c) (s.on c) = none := by
  have hfine := h.fine c
  obtain ⟨hl, hp, -⟩ := hfine.only (Or.inl hpc)
  have hd : (s.on c).depth = 1 := by simp [Thread.depth, Pc.extra, hl, hp, hpc]
  have hheld : s.holder ptable = some c := (hfine.holder ptable).mpr (by simp [hl])
  have hncli : (s.cpu c).ncli = 1 := by rw [hfine.ncli, hd]; rfl
  have hflag := hfine.off (by omega)
  have hrun := hfine.stopped hpc
  simp [schedPanic, hheld, hncli, hflag, hrun]

variable [DecidableEq Cpu] [DecidableEq Proc]

lemma put_thread_of_ne {t : Tid Cpu Proc} (ht : t ≠ (s.cpu c).curr) : (s.put c k x holder).thread t = s.thread t :=
  Function.update_of_ne ht _ _

lemma put_on_self (hk : k.curr = (s.cpu c).curr) : (s.put c k x holder).on c = x := by
  simp [State.on, State.put, hk]

lemma put_on_of_ne (h : Inv ptable s) (hdc : d ≠ c) : (s.put c k x holder).on d = s.on d := by
  have hcpu : (s.put c k x holder).cpu d = s.cpu d := Function.update_of_ne hdc _ _
  rw [State.on, hcpu, put_thread_of_ne (h.curr_ne hdc), State.on]

lemma put_curr (hk : k.curr = (s.cpu c).curr) (d : Cpu) : ((s.put c k x holder).cpu d).curr = (s.cpu d).curr := by
  by_cases hdc : d = c
  · rw [hdc]
    simp [State.put, hk]
  · simp [State.put, Function.update_of_ne hdc]

/-- A step of the thread on `c`. -/
lemma put (h : Inv ptable s) (hk : k.curr = (s.cpu c).curr) (hfine : Fine ptable c holder k x)
    (hothers : ∀ l d, d ≠ c → (holder l = some d ↔ s.holder l = some d)) : Inv ptable (s.put c k x holder) := by
  constructor
  · intro d
    by_cases hdc : d = c
    · subst hdc
      have hcpu : (s.put d k x holder).cpu d = k := Function.update_self _ _ _
      rw [hcpu, put_on_self hk]
      exact hfine
    · have hcpu : (s.put c k x holder).cpu d = s.cpu d := Function.update_of_ne hdc _ _
      rw [hcpu, h.put_on_of_ne hdc]
      exact (h.fine d).congr fun l => hothers l d hdc
  · intro d e
    rw [put_curr hk]
    exact h.home d e
  · intro d e p
    rw [put_curr hk, put_curr hk]
    exact h.alone d e p
  · intro p hp
    have hno : ∀ d, (s.cpu d).curr ≠ .proc p := fun d => by rw [← put_curr hk d]; exact hp d
    rw [put_thread_of_ne (Ne.symm (hno c))]
    exact h.away p hno
  · intro d hd
    rw [put_curr hk] at hd
    have hne : Tid.sched d ≠ (s.cpu c).curr := by
      intro he
      have := h.home c d he.symm
      rw [this] at he hd
      exact hd he.symm
    rw [put_thread_of_ne hne]
    exact h.waiting d hd

/-- `sched` leaves the CPU to its scheduler, which finds the lock as it left it. -/
lemma sched (h : Inv ptable s) (hpc : (s.on c).pc = .leaving) (hx : Parked ptable x)
    (hk : k = { s.cpu c with curr := .sched c }) : Inv ptable (s.put c k x s.holder) := by
  have hfine := h.fine c
  obtain ⟨hl, hp, hproc⟩ := hfine.only (Or.inl hpc)
  obtain ⟨q, hq⟩ : ∃ q, (s.cpu c).curr = .proc q := by
    cases hc : (s.cpu c).curr with
    | sched e => simp [hc, Tid.isProc] at hproc
    | proc q => exact ⟨q, rfl⟩
  have hd : (s.on c).depth = 1 := by simp [Thread.depth, Pc.extra, hl, hp, hpc]
  have hsched : ∀ e, Tid.sched e ≠ (s.cpu c).curr := by simp [hq]
  obtain ⟨hidle, hframes⟩ := h.waiting c (hsched c).symm
  have hself : (s.put c k x s.holder).cpu c = k := Function.update_self _ _ _
  have hother : ∀ d, d ≠ c → (s.put c k x s.holder).cpu d = s.cpu d := fun d hdc => Function.update_of_ne hdc _ _
  have hcurr : k.curr = .sched c := by rw [hk]
  constructor
  · intro d
    by_cases hdc : d = c
    · subst hdc
      rw [hself, State.on, hself, hcurr, put_thread_of_ne (hsched d)]
      exact hfine.swtch hl hd hidle.2.1 hidle.2.2 (Or.inl hidle.1) hframes (by simp [hcurr, Tid.isProc])
        (by rw [hk]) (by rw [hk]) (by rw [hk])
    · rw [hother d hdc, h.put_on_of_ne hdc]
      exact h.fine d
  · intro d e he
    by_cases hdc : d = c
    · subst hdc
      rw [hself, hcurr] at he
      injection he with he
      exact he.symm
    · rw [hother d hdc] at he
      exact h.home d e he
  · intro d e p hdp hep
    have hne : ∀ d, ((s.put c k x s.holder).cpu d).curr = .proc p → d ≠ c := by
      rintro d hd rfl
      rw [hself, hcurr] at hd
      simp at hd
    have hdc := hne d hdp
    have hec := hne e hep
    rw [hother d hdc] at hdp
    rw [hother e hec] at hep
    exact h.alone d e p hdp hep
  · intro p hno
    by_cases hpq : p = q
    · have hthread : (s.put c k x s.holder).thread (.proc p) = x := by simp [State.put, hq, hpq]
      rwa [hthread]
    · have hne : Tid.proc p ≠ (s.cpu c).curr := by simp [hq, hpq]
      rw [put_thread_of_ne hne]
      apply h.away p
      intro d
      by_cases hdc : d = c
      · rw [hdc]
        exact hne.symm
      · have := hno d
        rwa [hother d hdc] at this
  · intro d hd'
    have hdc : d ≠ c := by
      rintro rfl
      rw [hself, hcurr] at hd'
      exact hd' rfl
    rw [hother d hdc] at hd'
    rw [put_thread_of_ne (hsched d)]
    exact h.waiting d hd'

/-- A scheduler leaves its CPU to a process, which goes on with the lock. -/
lemma dispatch (h : Inv ptable s) (hc : (s.cpu c).curr = .sched c) (ho : (s.on c).Only ptable)
    (hp : (s.thread (.proc p)).running = false) :
    Inv ptable { s with
      cpu := Function.update s.cpu c { s.cpu c with curr := .proc p }
      thread := Function.update s.thread (.proc p) { s.thread (.proc p) with running := true } } := by
  have hno := h.not_on hc ho hp
  have hpark := h.away p hno
  have hfine := h.fine c
  have hthread : ∀ t, t ≠ .proc p →
      Function.update s.thread (.proc p) { s.thread (.proc p) with running := true } t = s.thread t :=
    fun t ht => Function.update_of_ne ht _ _
  constructor
  · intro d
    by_cases hdc : d = c
    · subst hdc
      simp only [State.on, Function.update_self]
      refine hfine.swtch ho.2.1 ho.depth hpark.locks hpark.pushes ?_ hpark.frames (fun _ => rfl) rfl rfl rfl
      exact hpark.pc.imp id fun hr => ⟨hr, rfl⟩
    · simp only [State.on, Function.update_of_ne hdc, hthread _ (hno d)]
      exact h.fine d
  · intro d e he
    by_cases hdc : d = c
    · simp [hdc] at he
    · simp only [Function.update_of_ne hdc] at he
      exact h.home d e he
  · intro d e q hdq heq
    by_cases hdc : d = c
    · by_cases hec : e = c
      · rw [hdc, hec]
      · simp only [hdc, Function.update_self, Function.update_of_ne hec, Tid.proc.injEq] at hdq heq
        rw [← hdq] at heq
        exact absurd heq (hno e)
    · by_cases hec : e = c
      · simp only [hec, Function.update_self, Function.update_of_ne hdc, Tid.proc.injEq] at hdq heq
        rw [← heq] at hdq
        exact absurd hdq (hno d)
      · simp only [Function.update_of_ne hdc, Function.update_of_ne hec] at hdq heq
        exact h.alone d e q hdq heq
  · intro q hq
    have hqp : q ≠ p := by
      rintro rfl
      exact hq c (by simp)
    simp only [hthread (.proc q) (by simp [hqp])]
    apply h.away q
    intro d
    by_cases hdc : d = c
    · simp [hdc, hc]
    · have := hq d
      simpa only [Function.update_of_ne hdc] using this
  · intro d hd
    simp only [hthread (.sched d) (by simp)]
    by_cases hdc : d = c
    · rw [hdc, ← hc]
      exact ⟨ho, hfine.frames⟩
    · simp only [Function.update_of_ne hdc] at hd
      exact h.waiting d hd

end Inv

variable [DecidableEq Cpu] [DecidableEq Proc] [DecidableEq Lock] {l : Cpu × Label Proc Lock} {b : Bool}

/-- What a step is: a step of the current thread, a call of `sched` or a dispatch. -/
lemma step_cases (h : Inv ptable s) (hs : step ptable l s = some s') :
    (∃ op k x holder, turn ptable l.1 s.holder (s.cpu l.1) (s.on l.1) op = some (k, x, holder) ∧
      s' = s.put l.1 k x holder) ∨
    ((s.on l.1).pc = .leaving ∧ s' = s.put l.1 { s.cpu l.1 with curr := .sched l.1 }
      { s.on l.1 with pc := .resume, intena := (s.cpu l.1).intena } s.holder) ∨
    ∃ p, (s.cpu l.1).curr = .sched l.1 ∧ (s.on l.1).Only ptable ∧ (s.thread (.proc p)).running = false ∧
      s' = { s with
        cpu := Function.update s.cpu l.1 { s.cpu l.1 with curr := .proc p }
        thread := Function.update s.thread (.proc p) { s.thread (.proc p) with running := true } } := by
  obtain ⟨c, l⟩ := l
  simp only [step, Option.ite_none_left_eq_some] at hs
  obtain ⟨-, hs⟩ := hs
  cases l with
  | run op =>
    obtain ⟨⟨k, x, holder⟩, ht, rfl⟩ := Option.map_eq_some_iff.mp hs
    exact Or.inl ⟨op, k, x, holder, ht, rfl⟩
  | sched =>
    simp only [Option.ite_none_right_eq_some] at hs
    obtain ⟨hpc, hs⟩ := hs
    rw [h.schedPanic_eq hpc] at hs
    injection hs with hs
    exact Or.inr (Or.inl ⟨hpc, hs.symm⟩)
  | dispatch p =>
    simp only [Option.ite_none_right_eq_some, Option.some.injEq] at hs
    obtain ⟨⟨hc, ho, hp⟩, rfl⟩ := hs
    exact Or.inr (Or.inr ⟨p, hc, ho, hp, rfl⟩)

theorem Inv.step (h : Inv ptable s) (hs : step ptable l s = some s') : Inv ptable s' := by
  rcases step_cases h hs with ⟨op, k, x, holder, ht, rfl⟩ | ⟨hpc, rfl⟩ | ⟨p, hc, ho, hp, rfl⟩
  · obtain ⟨hfine, hmoved⟩ := turn_spec (h.fine l.1) ht
    exact h.put hmoved.curr hfine hmoved.others
  · exact h.sched hpc (h.parked hpc _) rfl
  · exact h.dispatch hc ho hp

end Runs

end Cli

end Os132

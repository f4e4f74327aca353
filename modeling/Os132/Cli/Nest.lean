import Os132.Cli.Invariant
import Os132.Lib.Run

/-!
# The interrupt flag across a nest

The interrupt state that a process saves when it opens a nest is on its CPU, and in the local variable
of `sched` while another CPU may take the process over. So the flag has its old value when the
process closes the nest, wherever it is then.
-/

namespace Os132

namespace Cli

section Runs

variable {Cpu Proc Lock : Type} [DecidableEq Cpu] [DecidableEq Proc] [DecidableEq Lock] {ptable : Lock}
  {c d : Cpu} {p : Proc} {s s' : State Cpu Proc Lock} {l : Cpu × Label Proc Lock} {b : Bool}

/-- The interrupt state that the open nest of `p` has saved is `b`: on the CPU of `p` or, around `swtch`,
in the local variable of `sched`. -/
structure Saves (p : Proc) (b : Bool) (s : State Cpu Proc Lock) : Prop where
  here : ∀ c, (s.cpu c).curr = .proc p → (s.on c).pc ≠ .resume → (s.cpu c).intena = b
  carried : (s.thread (.proc p)).pc = .resume → (s.thread (.proc p)).intena = b
  somewhere : (∀ c, (s.cpu c).curr ≠ .proc p) → (s.thread (.proc p)).pc = .resume

/-- A step of another CPU: `p` stays where and as it is. -/
structure Untouched (p : Proc) (s s' : State Cpu Proc Lock) : Prop where
  thread : s'.thread (.proc p) = s.thread (.proc p)
  cpu : ∀ c, (s'.cpu c).curr = .proc p ∨ (s.cpu c).curr = .proc p → s'.cpu c = s.cpu c

/-- The steps of the machine, as `p` sees them. -/
lemma step_of (h : Inv ptable s) (hs : Cli.step ptable l s = some s') (p : Proc) :
    Untouched p s s' ∨
    (∃ op k x holder, (s.cpu l.1).curr = .proc p ∧
      turn ptable l.1 s.holder (s.cpu l.1) (s.on l.1) op = some (k, x, holder) ∧ s' = s.put l.1 k x holder) ∨
    ((s.cpu l.1).curr = .proc p ∧ (s.on l.1).pc = .leaving ∧ (∀ c, (s'.cpu c).curr ≠ .proc p) ∧
      s'.thread (.proc p) = { s.on l.1 with pc := .resume, intena := (s.cpu l.1).intena }) ∨
    ((∀ c, (s.cpu c).curr ≠ .proc p) ∧ (s'.cpu l.1).curr = .proc p ∧
      s'.thread (.proc p) = { s.thread (.proc p) with running := true }) := by
  rcases step_cases h hs with ⟨op, k, x, holder, ht, rfl⟩ | ⟨hpc, rfl⟩ | ⟨q, hc, ho, hq, rfl⟩
  · by_cases hp : (s.cpu l.1).curr = .proc p
    · exact Or.inr (Or.inl ⟨op, k, x, holder, hp, ht, rfl⟩)
    · left
      obtain ⟨-, hmoved⟩ := turn_spec (h.fine l.1) ht
      refine ⟨Inv.put_thread_of_ne (Ne.symm hp), fun c hc => ?_⟩
      rw [Inv.put_curr hmoved.curr, or_self] at hc
      have hne : c ≠ l.1 := by
        rintro rfl
        exact hp hc
      exact Function.update_of_ne hne _ _
  · by_cases hp : (s.cpu l.1).curr = .proc p
    · refine Or.inr (Or.inr (Or.inl ⟨hp, hpc, fun c => ?_, ?_⟩))
      · by_cases hne : c = l.1
        · simp [State.put, hne]
        · intro hc
          simp only [State.put, Function.update_of_ne hne] at hc
          exact hne (h.alone c l.1 p hc hp)
      · simp [State.put, hp]
    · left
      refine ⟨Inv.put_thread_of_ne (Ne.symm hp), fun c hc => ?_⟩
      have hne : c ≠ l.1 := by
        rintro rfl
        rcases hc with hc | hc
        · simp [State.put] at hc
        · exact hp hc
      exact Function.update_of_ne hne _ _
  · by_cases hqp : q = p
    · subst hqp
      exact Or.inr (Or.inr (Or.inr ⟨h.not_on hc ho hq, by simp, by simp⟩))
    · left
      refine ⟨Function.update_of_ne (by simpa using Ne.symm hqp) _ _, fun c hc' => ?_⟩
      have hne : c ≠ l.1 := by
        rintro rfl
        rcases hc' with hc' | hc'
        · simp [hqp] at hc'
        · simp [hc] at hc'
      exact Function.update_of_ne hne _ _

/-- An open nest keeps what it has saved, whatever CPU the thread comes to. -/
lemma Saves.step (hk : Saves p b s) (h : Inv ptable s) (hd : 0 < (s.thread (.proc p)).depth)
    (hs : Cli.step ptable l s = some s') : Saves p b s' := by
  rcases step_of h hs p with hu | ⟨op, k, x, holder, hp, ht, rfl⟩ | ⟨hp, hpc, hno, hthread⟩ | ⟨hno, hp, hthread⟩
  · constructor
    · intro c hc hpc
      have hcpu := hu.cpu c (Or.inl hc)
      have hc' : (s.cpu c).curr = .proc p := by rw [← hcpu, hc]
      rw [on_eq hc, hu.thread, ← on_eq hc'] at hpc
      rw [hcpu]
      exact hk.here c hc' hpc
    · rw [hu.thread]
      exact hk.carried
    · intro hno
      rw [hu.thread]
      apply hk.somewhere
      intro c hc
      have hcpu := hu.cpu c (Or.inr hc)
      exact hno c (by rw [hcpu, hc])
  · obtain ⟨-, hmoved⟩ := turn_spec (h.fine l.1) ht
    rw [← on_eq hp] at hd
    have hthread : (s.put l.1 k x holder).thread (.proc p) = x := by simp [State.put, hp]
    have hsaved : x.pc ≠ .resume ∧ k.intena = b := by
      by_cases hpc : (s.on l.1).pc = .resume
      · obtain ⟨hne, hi, -⟩ := hmoved.back hpc
        refine ⟨hne, ?_⟩
        rw [on_eq hp] at hpc hi
        rw [hi, hk.carried hpc]
      · obtain ⟨hne, hi⟩ := hmoved.keep hd hpc
        exact ⟨hne, by rw [hi, hk.here l.1 hp hpc]⟩
    constructor
    · intro c hc _
      rw [Inv.put_curr hmoved.curr] at hc
      have hcl := h.alone c l.1 p hc hp
      rw [hcl]
      simpa [State.put] using hsaved.2
    · rw [hthread]
      exact fun he => absurd he hsaved.1
    · intro hno
      exact absurd ((Inv.put_curr hmoved.curr l.1).trans hp) (hno l.1)
  · constructor
    · exact fun c hc => absurd hc (hno c)
    · intro _
      rw [hthread]
      exact hk.here l.1 hp (by simp [hpc])
    · intro _
      rw [hthread]
  · have hpc := hk.somewhere hno
    constructor
    · intro c hc hne
      rw [on_eq hc, hthread] at hne
      exact absurd hpc hne
    · rw [hthread]
      exact hk.carried
    · exact fun hno' => absurd hp (hno' l.1)

/-- Opening a nest saves the interrupt flag. -/
lemma saves_of_first (h : Inv ptable s) (hc : (s.cpu c).curr = .proc p) (hd : (s.thread (.proc p)).depth = 0)
    (hs : Cli.step ptable l s = some s') (hd' : 0 < (s'.thread (.proc p)).depth) : Saves p (s.cpu c).flag s' := by
  rcases step_of h hs p with hu | ⟨op, k, x, holder, hp, ht, rfl⟩ | ⟨hp, hpc, -, -⟩ | ⟨hno, -, -⟩
  · rw [hu.thread] at hd'
    omega
  · obtain ⟨-, hmoved⟩ := turn_spec (h.fine l.1) ht
    have hthread : (s.put l.1 k x holder).thread (.proc p) = x := by simp [State.put, hp]
    have hcl := h.alone c l.1 p hc hp
    rw [hthread] at hd'
    rw [← on_eq hp] at hd
    obtain ⟨hne, hi⟩ := hmoved.first hd hd'
    constructor
    · intro d hdc _
      rw [Inv.put_curr hmoved.curr] at hdc
      rw [h.alone d l.1 p hdc hp, hcl]
      simpa [State.put] using hi
    · rw [hthread]
      exact fun he => absurd he hne
    · intro hno
      exact absurd ((Inv.put_curr hmoved.curr l.1).trans hp) (hno l.1)
  · have := ((h.fine l.1).only (Or.inl hpc)).1
    rw [← on_eq hp, Thread.depth, this] at hd
    simp at hd
  · exact absurd hc (hno c)

/-- Closing the nest sets the flag to what was saved. -/
lemma flag_of_last (h : Inv ptable s) (hk : Saves p b s) (hd : 0 < (s.thread (.proc p)).depth)
    (hs : Cli.step ptable l s = some s') (hd' : (s'.thread (.proc p)).depth = 0)
    (hc : (s'.cpu c).curr = .proc p) : (s'.cpu c).flag = b := by
  rcases step_of h hs p with hu | ⟨op, k, x, holder, hp, ht, rfl⟩ | ⟨-, -, hno, -⟩ | ⟨hno, -, hthread⟩
  · rw [hu.thread] at hd'
    omega
  · obtain ⟨-, hmoved⟩ := turn_spec (h.fine l.1) ht
    have hthread : (s.put l.1 k x holder).thread (.proc p) = x := by simp [State.put, hp]
    rw [hthread] at hd'
    rw [← on_eq hp] at hd
    have hpc : (s.on l.1).pc ≠ .resume := by
      intro hpc
      have := (hmoved.back hpc).2.2
      omega
    rw [Inv.put_curr hmoved.curr] at hc
    rw [h.alone c l.1 p hc hp]
    have hflag := hmoved.last hd hd'
    rw [hk.here l.1 hp hpc] at hflag
    simpa [State.put] using hflag
  · exact absurd hc (hno c)
  · rw [hthread] at hd'
    have := (h.away p hno).depth
    simp only [Thread.depth] at this hd'
    omega

/-- When a process closes a nest that it opened, the interrupt flag of its CPU is what it was, on its CPU of
that time, when the nest was opened. -/
lemma flag_of_nest {n i j : ℕ}
    (r : Lts.Run (Init ptable) (Cli.step ptable : Cpu × Label Proc Lock → State Cpu Proc Lock → _) n)
    (hij : i < j) (hj : j < n) (hc : ((r.state i).cpu c).curr = .proc p) (hi : ((r.state i).thread (.proc p)).depth = 0)
    (hopen : ∀ k, i < k → k ≤ j → 0 < ((r.state k).thread (.proc p)).depth)
    (hend : ((r.state (j + 1)).thread (.proc p)).depth = 0) (hd : ((r.state (j + 1)).cpu d).curr = .proc p) :
    ((r.state (j + 1)).cpu d).flag = ((r.state i).cpu c).flag := by
  have hinv := r.invariant (P := Inv ptable) (fun s hs => Inv.init hs) (fun s l s' h hs => h.step hs)
  have hfirst := saves_of_first (hinv i (by omega)) hc hi (r.steps i (by omega)) (hopen (i + 1) (by omega) (by omega))
  have hkeep := r.preserved (a := i + 1) (b := j)
    (P := fun k s => Saves p ((r.state i).cpu c).flag s ∧ Inv ptable s ∧ k ≤ j)
    (by omega) ⟨hfirst, hinv (i + 1) (by omega), by omega⟩
    (fun k hik hkj hk hs => ⟨hk.1.step hk.2.1 (hopen k (by omega) (by omega)) hs, hk.2.1.step hs, by omega⟩)
  exact flag_of_last (hinv j (by omega)) (hkeep j (by omega) (by omega)).1 (hopen j hij (by omega)) (r.steps j hj) hend hd

end Runs

end Cli

end Os132
